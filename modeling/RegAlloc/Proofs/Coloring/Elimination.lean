import Mathlib.Data.Finset.Range
import Mathlib.Data.List.Induction
import RegAlloc.Proofs.Coloring.Completeness

/-!
# The order of elimination

Simplification scans the nodes that are left from the lowest to the highest and changes its mind only
for a higher degree below `k`. So it removes, of the nodes with the highest degree below `k`, the
lowest. This rule decides every removal: an order of all nodes is that of a simplification exactly
if each of its nodes is the next one by the rule.
-/

namespace RegAlloc

/-! ## The scan for a candidate -/

namespace Removal

variable {k : Nat} {left : List Removal} {r : Removal}

theorem candidate?_concat (k : Nat) (left : List Removal) (q : Removal) :
    candidate? k (left ++ [q]) = better k (candidate? k left) q := by
  rw [candidate?, candidate?, List.foldl_append, List.foldl_cons, List.foldl_nil]

/-- The candidate is the first of those with the highest degree below `k`. -/
theorem exists_split_of_candidate? (h : candidate? k left = some r) :
    ∃ front rest, left = front ++ r :: rest ∧
      (∀ q ∈ front, q.degree < k → q.degree < r.degree) ∧
      ∀ q ∈ rest, q.degree < k → q.degree ≤ r.degree := by
  -- the scan goes on at the end, so the induction is on the last node that it has seen
  induction left using List.reverseRecOn generalizing r with
  | nil => cases h
  | append_singleton left q ih =>
      rw [candidate?_concat, better] at h
      split at h
      · rename_i hbetter
        cases h
        refine ⟨left, [], rfl, ?_, by simp⟩
        intro p hp hlt
        cases hbest : candidate? k left with
        | none => exact absurd (candidate?_eq_none_iff.mp hbest p hp) (Nat.not_le.mpr hlt)
        | some b =>
            obtain ⟨front, rest, rfl, hfront, hrest⟩ := ih hbest
            have hb : b.degree < q.degree := hbetter.2 b hbest
            rcases List.mem_append.mp hp with hp | hp
            · exact Nat.lt_trans (hfront p hp hlt) hb
            · rcases List.mem_cons.mp hp with rfl | hp
              · exact hb
              · exact Nat.lt_of_le_of_lt (hrest p hp hlt) hb
      · rename_i hbetter
        obtain ⟨front, rest, rfl, hfront, hrest⟩ := ih h
        refine ⟨front, rest ++ [q], by simp, hfront, ?_⟩
        intro p hp hlt
        rcases List.mem_append.mp hp with hp | hp
        · exact hrest p hp hlt
        · obtain rfl := List.mem_singleton.mp hp
          refine Nat.le_of_not_lt fun hr => hbetter ⟨hlt, fun b hb => ?_⟩
          rw [h] at hb
          cases hb
          exact hr

end Removal

namespace Graph

variable {g : Graph} {k n a b node : Nat} {left stack : List Nat} {nodes : Finset Nat}

/-! ## The rule -/

/-- Number of neighbors of `node` among some nodes. -/
def degreeAmong (g : Graph) (nodes : Finset Nat) (node : Nat) : Nat :=
  (nodes.filter fun m => g.adjacent node m = true).card

/-- Of some nodes, `node` is the lowest of those with the highest degree below `k`. -/
structure IsNext (g : Graph) (k : Nat) (nodes : Finset Nat) (node : Nat) : Prop where
  mem : node ∈ nodes
  degree_lt : g.degreeAmong nodes node < k
  highest : ∀ m ∈ nodes, g.degreeAmong nodes m < k →
    g.degreeAmong nodes m ≤ g.degreeAmong nodes node
  lowest : ∀ m ∈ nodes, m ≠ node → g.degreeAmong nodes m = g.degreeAmong nodes node → node < m

theorem IsNext.unique (ha : g.IsNext k nodes a) (hb : g.IsNext k nodes b) : a = b := by
  have hdegree : g.degreeAmong nodes a = g.degreeAmong nodes b :=
    Nat.le_antisymm (hb.highest a ha.mem ha.degree_lt) (ha.highest b hb.mem hb.degree_lt)
  by_contra hne
  have hab := ha.lowest b hb.mem (Ne.symm hne) hdegree.symm
  have hba := hb.lowest a ha.mem hne hdegree
  omega

theorem degreeAmong_toFinset (hdistinct : left.Nodup) (a : Nat) :
    g.degreeAmong left.toFinset a = g.degreeIn left a :=
  card_filter_toFinset hdistinct a

/-- Over ascending nodes the scan finds the next one by the rule. -/
theorem exists_isNext_of_candidate? {r : Removal} (hsorted : left.Pairwise (· < ·))
    (h : Removal.candidate? k (g.tally left) = some r) :
    ∃ node, r = ⟨node, g.degreeIn left node⟩ ∧ g.IsNext k left.toFinset node := by
  have hlt := Removal.degree_lt_of_candidate? h
  obtain ⟨front, rest, hsplit, hfront, hrest⟩ := Removal.exists_split_of_candidate? h
  obtain ⟨before, tail, hleft, rfl, htail⟩ := List.map_eq_append_iff.mp hsplit
  obtain ⟨node, after, rfl, rfl, rfl⟩ := List.map_eq_cons_iff.mp htail
  rw [List.forall_mem_map] at hfront hrest
  have hafter : ∀ m ∈ after, node < m := by
    rw [hleft, List.pairwise_append, List.pairwise_cons] at hsorted
    exact hsorted.2.1.1
  have hdegree : ∀ m, g.degreeAmong left.toFinset m = g.degreeIn left m :=
    degreeAmong_toFinset (hsorted.imp Nat.ne_of_lt)
  have hmem : ∀ m ∈ left.toFinset, m ∈ before ∨ m = node ∨ m ∈ after := by
    intro m hm
    rwa [List.mem_toFinset, hleft, List.mem_append, List.mem_cons] at hm
  refine ⟨node, rfl, by simp [hleft], by rwa [hdegree], ?_, ?_⟩
  · intro m hm hm'
    simp only [hdegree] at hm' ⊢
    rcases hmem m hm with hm | rfl | hm
    · exact Nat.le_of_lt (hfront m hm hm')
    · exact Nat.le_refl _
    · exact hrest m hm hm'
  · intro m hm hne heq
    simp only [hdegree] at heq
    rcases hmem m hm with hm | rfl | hm
    · have hless := hfront m hm (heq ▸ hlt)
      exact absurd heq (Nat.ne_of_lt hless)
    · exact absurd rfl hne
    · exact hafter m hm

theorem candidate?_eq_some_iff {r : Removal} (hsorted : left.Pairwise (· < ·)) :
    Removal.candidate? k (g.tally left) = some r ↔
      ∃ node, r = ⟨node, g.degreeIn left node⟩ ∧ g.IsNext k left.toFinset node := by
  refine ⟨exists_isNext_of_candidate? hsorted, ?_⟩
  rintro ⟨node, rfl, hnext⟩
  cases hbest : Removal.candidate? k (g.tally left) with
  | none =>
      have hstuck := Removal.candidate?_eq_none_iff.mp hbest _
        (List.mem_map_of_mem (List.mem_toFinset.mp hnext.mem))
      have hlt := hnext.degree_lt
      rw [degreeAmong_toFinset (hsorted.imp Nat.ne_of_lt)] at hlt
      exact absurd hstuck (Nat.not_le.mpr hlt)
  | some r =>
      obtain ⟨node', rfl, hnext'⟩ := exists_isNext_of_candidate? hsorted hbest
      rw [hnext'.unique hnext]

/-! ## Orders by the rule -/

/-- All nodes of `left`, each of them the next one when those before it are gone. -/
structure FollowsRule (g : Graph) (k : Nat) (left stack : List Nat) : Prop where
  perm : stack.Perm left
  isNext : ∀ i node, stack[i]? = some node →
    g.IsNext k (left.toFinset \ (stack.take i).toFinset) node

theorem followsRule_cons (hdistinct : left.Nodup) :
    g.FollowsRule k left (node :: stack) ↔
      g.IsNext k left.toFinset node ∧ g.FollowsRule k (left.erase node) stack := by
  have hgone : ∀ i, left.toFinset \ ((node :: stack).take (i + 1)).toFinset =
      (left.erase node).toFinset \ (stack.take i).toFinset := by
    intro i
    ext m
    simp only [Finset.mem_sdiff, List.mem_toFinset, List.take_succ_cons, List.mem_cons,
      hdistinct.mem_erase_iff]
    tauto
  constructor
  · rintro ⟨hperm, hnext⟩
    refine ⟨by simpa using hnext 0 node rfl, (List.cons_perm_iff_perm_erase.mp hperm).2, ?_⟩
    intro i m hm
    rw [← hgone]
    exact hnext (i + 1) m hm
  · rintro ⟨hfirst, hperm, hnext⟩
    have hnode := List.mem_toFinset.mp hfirst.mem
    refine ⟨List.cons_perm_iff_perm_erase.mpr ⟨hnode, hperm⟩, ?_⟩
    intro i m hm
    cases i with
    | zero =>
        obtain rfl : node = m := by simpa using hm
        simpa using hfirst
    | succ i =>
        rw [hgone]
        exact hnext i m hm

/-- A run that comes to its end removes the nodes in the one order that follows the rule. -/
theorem simplifyFrom_iff_followsRule (hlength : left.length = n) (hsorted : left.Pairwise (· < ·)) :
    (g.simplifyFrom k n (g.tally left)).2 = none ∧
        (g.simplifyFrom k n (g.tally left)).1.map Removal.node = stack ↔
      g.FollowsRule k left stack := by
  induction n generalizing left stack with
  | zero =>
      obtain rfl := List.length_eq_zero_iff.mp hlength
      constructor
      · rintro ⟨_, rfl⟩
        exact ⟨List.Perm.refl _, by simp [simplifyFrom]⟩
      · intro h
        exact ⟨rfl, (List.perm_nil.mp h.perm).symm⟩
  | succ n ih =>
      have hdistinct : left.Nodup := hsorted.imp Nat.ne_of_lt
      have hnil : ¬ g.FollowsRule k left [] := fun h => by simp [← h.perm.length_eq] at hlength
      rw [simplifyFrom]
      cases hbest : Removal.candidate? k (g.tally left) with
      | none =>
          constructor
          · rintro ⟨hnone, _⟩
            cases hnone
          · intro h
            cases stack with
            | nil => exact absurd h hnil
            | cons first stack =>
                have hfirst := ((followsRule_cons hdistinct).mp h).1
                rw [(candidate?_eq_some_iff hsorted).mpr ⟨first, rfl, hfirst⟩] at hbest
                cases hbest
      | some r =>
          obtain ⟨node, rfl, hnext⟩ := (candidate?_eq_some_iff hsorted).mp hbest
          have hnode := List.mem_toFinset.mp hnext.mem
          have hlength' : (left.erase node).length = n := by
            rw [List.length_erase_of_mem hnode, hlength]
            rfl
          have hsorted' : (left.erase node).Pairwise (· < ·) := hsorted.sublist List.erase_sublist
          simp only [g.without_tally hdistinct hnode]
          cases stack with
          | nil =>
              constructor
              · rintro ⟨_, heq⟩
                cases heq
              · exact fun h => absurd h hnil
          | cons first stack =>
              rw [followsRule_cons hdistinct, List.map_cons, List.cons.injEq]
              constructor
              · rintro ⟨hend, rfl, hstack⟩
                exact ⟨hnext, (ih hlength' hsorted').mp ⟨hend, hstack⟩⟩
              · rintro ⟨hfirst, hfollows⟩
                obtain rfl := hfirst.unique hnext
                obtain ⟨hend, hstack⟩ := (ih hlength' hsorted').mpr hfollows
                exact ⟨hend, rfl, hstack⟩

theorem simplify_eq_ok_iff :
    g.simplify k = .ok stack ↔ g.FollowsRule k (List.range g.size) stack := by
  rw [← simplifyFrom_iff_followsRule List.length_range List.pairwise_lt_range]
  unfold simplify simplifyTrace
  cases g.simplifyFrom k g.size (g.tally (List.range g.size)) with
  | mk rs stuck => cases stuck <;> simp

/-- An order of all nodes is that of the simplification exactly if each node of it has, among those
that are not gone before it, the highest degree below the size of the palette, and of the nodes with
that degree the lowest number. -/
theorem elimination_follows_rule (g : Graph) (palette : Palette) (stack : List Nat) :
    g.simplify palette.size = .ok stack ↔
      stack.Perm (List.range g.size) ∧
      ∀ i node, stack[i]? = some node →
        g.IsNext palette.size (Finset.range g.size \ (stack.take i).toFinset) node := by
  have hrange : (List.range g.size).toFinset = Finset.range g.size := by
    ext a
    simp
  rw [simplify_eq_ok_iff, ← hrange]
  exact ⟨fun h => ⟨h.perm, h.isNext⟩, fun h => ⟨h.1, h.2⟩⟩

-- with two slots the hub of a star has to wait until two of its three leaves are gone
example : ((empty 4).joinEach 0 [1, 2, 3]).simplifyTrace 2 =
    ([⟨1, 1⟩, ⟨2, 1⟩, ⟨0, 1⟩, ⟨3, 0⟩], none) := by decide

end Graph

end RegAlloc
