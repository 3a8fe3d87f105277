import Mathlib.Data.List.Perm.Subperm
import RegAlloc.Proofs.Flow.Building
import RegAlloc.Proofs.Liveness.Correctness
import RegAlloc.Proofs.Program.Parsing

/-!
# How many sweeps are needed

A sweep visits the instructions from the last to the first. So it carries a live register back over
any number of forward edges, and over one backward edge. A register that is live is live along a
path that takes no backward edge twice: after one sweep more than there are backward edges the live
sets are exact, and the next sweep finds nothing to change.
-/

namespace RegAlloc

namespace Flow

variable {f : Flow} {v : VarId} {n s : InstId} {taken : List (InstId × InstId)}

/-! ## Paths by their backward edges -/

/-- The backward edges of a path that goes from `n` to `s` and then takes `taken`. -/
def crossed (n s : InstId) (taken : List (InstId × InstId)) : List (InstId × InstId) :=
  if s ≤ n then (n, s) :: taken else taken

/-- Some path from `n` reads `v` at its end and writes it nowhere on the way. Its backward edges are
`taken`, in this order. -/
inductive LiveVia (f : Flow) (v : VarId) : List (InstId × InstId) → InstId → Prop where
  | use {n : InstId} (huse : v ∈ (f.node n).uses) : LiveVia f v [] n
  | step {n s : InstId} {taken : List (InstId × InstId)} (hs : s ∈ (f.node n).succs)
      (hdef : v ∉ (f.node n).defs) (hlive : LiveVia f v taken s) :
      LiveVia f v (crossed n s taken) n

/-- `v` is live before some successor of `n`; `taken` are the backward edges from `n` on. -/
def LiveOutVia (f : Flow) (v : VarId) (taken : List (InstId × InstId)) (n : InstId) : Prop :=
  ∃ s ∈ (f.node n).succs, ∃ rest, taken = crossed n s rest ∧ f.LiveVia v rest s

theorem mem_crossed {e : InstId × InstId} :
    e ∈ crossed n s taken ↔ s ≤ n ∧ e = (n, s) ∨ e ∈ taken := by
  unfold crossed
  by_cases hback : s ≤ n <;> simp [hback]

/-- A path goes on behind each of its backward edges. -/
theorem LiveVia.exists_rest (h : f.LiveVia v taken n) {a b : InstId} (hmem : (a, b) ∈ taken) :
    ∃ rest, (a, b) :: rest <:+ taken ∧ f.LiveVia v rest b := by
  induction h with
  | use _ => simp at hmem
  | @step n s taken _ _ hlive ih =>
      by_cases hback : s ≤ n
      · rw [crossed, if_pos hback] at hmem ⊢
        rcases List.mem_cons.mp hmem with heq | hmem
        · cases heq
          exact ⟨taken, List.suffix_refl _, hlive⟩
        · obtain ⟨rest, hsuffix, hrest⟩ := ih hmem
          exact ⟨rest, hsuffix.trans (List.suffix_cons _ _), hrest⟩
      · rw [crossed, if_neg hback] at hmem ⊢
        exact ih hmem

/-- In front of a path that takes no edge twice a step can be put, if need be on a shorter path. -/
theorem LiveVia.exists_nodup_crossed (h : f.LiveVia v taken s) (hnodup : taken.Nodup)
    (n : InstId) : ∃ rest, f.LiveVia v rest s ∧ (crossed n s rest).Nodup := by
  by_cases hagain : s ≤ n ∧ (n, s) ∈ taken
  · obtain ⟨rest, hsuffix, hrest⟩ := h.exists_rest hagain.2
    refine ⟨rest, hrest, ?_⟩
    rw [crossed, if_pos hagain.1]
    exact hnodup.sublist hsuffix.sublist
  · refine ⟨taken, h, ?_⟩
    unfold crossed
    split
    · rename_i hback
      exact List.nodup_cons.mpr ⟨fun hmem => hagain ⟨hback, hmem⟩, hnodup⟩
    · exact hnodup

theorem LiveIn.exists_via (h : f.LiveIn v n) : ∃ taken, f.LiveVia v taken n ∧ taken.Nodup := by
  obtain ⟨path, m, hpath, huse, hpass⟩ := h
  induction hpath with
  | here n => exact ⟨[], .use huse, List.nodup_nil⟩
  | @edge n s m path hs _ ih =>
      obtain ⟨taken, hlive, hnodup⟩ := ih huse fun i hi => hpass i (List.mem_cons_of_mem n hi)
      obtain ⟨rest, hrest, hnodup⟩ := hlive.exists_nodup_crossed hnodup n
      exact ⟨_, .step hs (hpass n List.mem_cons_self) hrest, hnodup⟩

theorem LiveOut.exists_via (h : f.LiveOut v n) :
    ∃ taken, f.LiveOutVia v taken n ∧ taken.Nodup := by
  obtain ⟨s, hs, hlive⟩ := h
  obtain ⟨taken, hlive, hnodup⟩ := hlive.exists_via
  obtain ⟨rest, hrest, hnodup⟩ := hlive.exists_nodup_crossed hnodup n
  exact ⟨_, ⟨s, hs, rest, rfl, hrest⟩, hnodup⟩

theorem crossed_subset (hs : s ∈ (f.node n).succs) (h : taken ⊆ f.backEdges) :
    crossed n s taken ⊆ f.backEdges := by
  intro e he
  rcases mem_crossed.mp he with ⟨hback, rfl⟩ | he
  · exact mem_backEdges.mpr ⟨hs, hback⟩
  · exact h he

theorem LiveVia.subset_backEdges (h : f.LiveVia v taken n) : taken ⊆ f.backEdges := by
  induction h with
  | use _ => exact List.nil_subset _
  | step hs _ _ ih => exact crossed_subset hs ih

theorem LiveOutVia.subset_backEdges (h : f.LiveOutVia v taken n) : taken ⊆ f.backEdges := by
  obtain ⟨s, hs, rest, rfl, hrest⟩ := h
  exact crossed_subset hs hrest.subset_backEdges

theorem length_le_of_nodup (hnodup : taken.Nodup) (h : taken ⊆ f.backEdges) :
    taken.length ≤ f.backEdges.length :=
  (hnodup.subperm h).length_le

end Flow

/-! ## What sweeps find -/

/-- The sets of `n` hold what is live along paths with fewer than `count` backward edges. -/
structure LiveSets.Covers (x : LiveSets) (f : Flow) (count : Nat) (n : InstId) : Prop where
  liveIn : ∀ {v taken}, f.LiveVia v taken n → taken.length < count → v ∈ x.liveIn
  liveOut : ∀ {v taken}, f.LiveOutVia v taken n → taken.length < count → v ∈ x.liveOut

namespace Flow

variable {f : Flow} {l : Liveness} {count : Nat} {n : InstId}

theorem covers_zero (x : LiveSets) (f : Flow) (n : InstId) : x.Covers f 0 n :=
  ⟨fun _ h => absurd h (Nat.not_lt_zero _), fun _ h => absurd h (Nat.not_lt_zero _)⟩

/-- Outside the program nothing is live. -/
theorem covers_of_size_le (h : f.size ≤ n) (x : LiveSets) : x.Covers f count n := by
  have hnode := node_of_size_le h
  constructor
  · intro v taken hlive _
    cases hlive with
    | use huse => simp [hnode] at huse
    | step hs _ _ => simp [hnode] at hs
  · rintro v taken ⟨s, hs, _⟩ _
    simp [hnode] at hs

/-- An update knows the instructions ahead as the sweep has left them, and those behind as the last
sweep did. -/
theorem covers_transfer (hahead : ∀ s, n < s → (l.get s).Covers f (count + 1) s)
    (hbehind : ∀ s ≤ n, (l.get s).Covers f count s) :
    (f.transfer l n).Covers f (count + 1) n := by
  have hout : ∀ {v taken}, f.LiveOutVia v taken n → taken.length < count + 1 →
      v ∈ (f.transfer l n).liveOut := by
    rintro v taken ⟨s, hs, rest, rfl, hlive⟩ hlength
    refine mem_liveOut_transfer.mpr ⟨s, hs, ?_⟩
    by_cases hback : s ≤ n
    · rw [crossed, if_pos hback, List.length_cons] at hlength
      exact (hbehind s hback).liveIn hlive (Nat.lt_of_succ_lt_succ hlength)
    · rw [crossed, if_neg hback] at hlength
      exact (hahead s (Nat.lt_of_not_le hback)).liveIn hlive hlength
  refine ⟨?_, hout⟩
  intro v taken hlive hlength
  cases hlive with
  | use huse => exact mem_liveIn_transfer.mpr (Or.inl huse)
  | @step _ s rest hs hdef hlive =>
      exact mem_liveIn_transfer.mpr (Or.inr ⟨hout ⟨s, hs, rest, rfl, hlive⟩ hlength, hdef⟩)

/-- The instructions from `m` on have been visited, those before it have not. -/
theorem covers_foldl_visit {m : Nat} {s : Sweep} (hm : m ≤ s.live.size)
    (hahead : ∀ n, m ≤ n → (s.live.get n).Covers f (count + 1) n)
    (hbehind : ∀ n < m, (s.live.get n).Covers f count n) (n : InstId) :
    ((((List.range m).reverse).foldl f.visit s).live.get n).Covers f (count + 1) n := by
  induction m generalizing s with
  | zero => exact hahead n (Nat.zero_le n)
  | succ m ih =>
      rw [List.range_succ, List.reverse_concat, List.foldl_cons]
      apply ih
      · rw [size_visit]
        exact Nat.le_of_succ_le hm
      · intro k hk
        by_cases hkm : m = k
        · subst hkm
          rw [get_visit_self hm]
          exact covers_transfer hahead fun s hs => hbehind s (Nat.lt_succ_of_le hs)
        · rw [get_visit_of_ne hkm]
          exact hahead k (Nat.lt_of_le_of_ne hk hkm)
      · intro k hk
        rw [get_visit_of_ne (Nat.ne_of_gt hk)]
        exact hbehind k (Nat.lt_succ_of_lt hk)

theorem covers_sweep (hsize : f.size ≤ l.size) (h : ∀ n, (l.get n).Covers f count n) (n : InstId) :
    ((f.sweep l).live.get n).Covers f (count + 1) n :=
  covers_foldl_visit (Nat.le_refl _) (fun _ hk => covers_of_size_le (Nat.le_trans hsize hk) _)
    (fun k _ => h k) n

/-! ## Convergence -/

/-- All backward edges taken once is as far as a path need go. -/
theorem exact_of_covers (hsound : l.Sound f)
    (h : ∀ n, (l.get n).Covers f (f.backEdges.length + 1) n) : l.Exact f := by
  constructor
  · intro n v
    refine ⟨hsound.liveIn, fun hlive => ?_⟩
    obtain ⟨taken, hvia, hnodup⟩ := hlive.exists_via
    exact (h n).liveIn hvia (Nat.lt_succ_of_le (length_le_of_nodup hnodup hvia.subset_backEdges))
  · intro n v
    refine ⟨hsound.liveOut, fun hlive => ?_⟩
    obtain ⟨taken, hvia, hnodup⟩ := hlive.exists_via
    exact (h n).liveOut hvia (Nat.lt_succ_of_le (length_le_of_nodup hnodup hvia.subset_backEdges))

/-- Exact live sets solve their equations. -/
theorem isFixedPoint_of_exact (h : l.Exact f) : f.isFixedPoint l = true := by
  have hout : ∀ n v, v ∈ (f.transfer l n).liveOut ↔ f.LiveOut v n := by
    intro n v
    simp only [mem_liveOut_transfer, h.liveIn, LiveOut]
  have hin : ∀ n v, v ∈ (f.transfer l n).liveIn ↔ f.LiveIn v n := by
    intro n v
    rw [mem_liveIn_transfer, hout, liveIn_iff]
  refine isFixedPoint_iff.mpr fun n _ => ?_
  have hliveIn : (l.get n).liveIn = (f.transfer l n).liveIn :=
    IdSet.ext fun v => h.liveIn.trans (hin n v).symm
  have hliveOut : (l.get n).liveOut = (f.transfer l n).liveOut :=
    IdSet.ext fun v => h.liveOut.trans (hout n v).symm
  calc l.get n = ⟨(l.get n).liveIn, (l.get n).liveOut⟩ := rfl
    _ = ⟨(f.transfer l n).liveIn, (f.transfer l n).liveOut⟩ := by rw [hliveIn, hliveOut]
    _ = f.transfer l n := rfl

theorem sound_sweep (h : l.Sound f) : (f.sweep l).live.Sound f :=
  foldl_visit_preserves (P := fun m => m.Sound f) (fun _ i hm => hm.transfer i) h _

theorem size_sweep (f : Flow) (l : Liveness) : (f.sweep l).live.size = l.size :=
  foldl_visit_preserves (P := fun m => m.size = l.size) (fun m i h => (m.size_set i _).trans h)
    rfl _

/-- From live sets that know the paths with fewer than `count` backward edges, each further sweep
either finds nothing to change or learns one backward edge more. -/
theorem solveFrom_converges {cap : Nat} (made : Nat) (hsize : f.size ≤ l.size)
    (hsound : l.Sound f) (hcovers : ∀ n, (l.get n).Covers f count n)
    (hcount : count ≤ f.backEdges.length + 1) (hcap : f.backEdges.length + 2 ≤ count + cap) :
    (f.solveFrom cap made l).1.converged = true ∧
      (f.solveFrom cap made l).1.sweeps + count ≤ made + (f.backEdges.length + 2) := by
  induction cap generalizing made count l with
  | zero => omega
  | succ cap ih =>
      rw [solveFrom]
      split
      · rename_i hchanged
        have hlt : count < f.backEdges.length + 1 := by
          refine Nat.lt_of_le_of_ne hcount fun heq => ?_
          subst heq
          have hfixed := isFixedPoint_of_exact (exact_of_covers hsound hcovers)
          rw [changed_sweep_eq_false_iff.mpr hfixed] at hchanged
          cases hchanged
        obtain ⟨hconverged, hsweeps⟩ := ih (made + 1) (by rwa [size_sweep])
          (sound_sweep hsound) (covers_sweep hsize hcovers) hlt (by omega)
        exact ⟨hconverged, by omega⟩
      · exact ⟨rfl, by dsimp only; omega⟩

theorem solve_blank_converges {cap n : Nat} (hsize : f.size ≤ n)
    (hcap : f.backEdges.length + 2 ≤ cap) :
    (f.solve cap (.blank n)).1.converged = true ∧
      (f.solve cap (.blank n)).1.sweeps ≤ f.backEdges.length + 2 := by
  have h := solveFrom_converges 0 (by rwa [Liveness.size_blank])
    (Liveness.sound_blank n f) (fun k => covers_zero _ f k) (Nat.zero_le _)
    (Nat.le_trans hcap (Nat.le_add_left cap 0))
  simpa [solve] using h

end Flow

namespace Annotated

/-- From empty live sets two sweeps more than there are backward edges are always enough. -/
theorem sweeps_bounded_by_backEdges {a a' : Annotated} (hflow : a.buildFlow = .ok a')
    (hlive : a.live = .blank a.program.size) :
    (∀ cap, a'.flow.backEdges.length + 2 ≤ cap →
      (a'.solve cap).1.converged = true ∧
        (a'.solve cap).1.sweeps ≤ a'.flow.backEdges.length + 2) ∧
    (a'.flow.backEdges = [] → ∀ cap, 2 ≤ cap →
      (a'.solve cap).1.converged = true ∧ (a'.solve cap).1.sweeps ≤ 2) ∧
    (a'.flow.backEdges.length ≤ 8 →
      (a'.solve Liveness.defaultSweeps).1.converged = true) := by
  obtain ⟨f, hf, rfl⟩ := buildFlow_eq_ok_iff.mp hflow
  have hbound : ∀ cap, f.backEdges.length + 2 ≤ cap →
      (f.solve cap a.live).1.converged = true ∧
        (f.solve cap a.live).1.sweeps ≤ f.backEdges.length + 2 := by
    intro cap hcap
    rw [hlive]
    exact Flow.solve_blank_converges (Nat.le_of_eq (Program.size_flow hf)) hcap
  refine ⟨hbound, ?_, ?_⟩
  · intro hnone cap hcap
    have h := hbound cap
    rw [hnone] at h
    exact h hcap
  · intro hfew
    exact (hbound Liveness.defaultSweeps (Nat.add_le_add_right hfew 2)).1

/-- One backward edge, and a third sweep that is needed. -/
theorem sweeps_of_backward_branch :
    ∃ p a', Program.parse "_reg r1; _func main; top: nop; bltz r1, top;" = .ok p ∧
      (ofProgram p).buildFlow = .ok a' ∧ a'.flow.backEdges = [(2, 1)] ∧
      (a'.solve 2).1.converged = false ∧
      ∀ cap, 3 ≤ cap → (a'.solve cap).1.converged = true ∧ (a'.solve cap).1.sweeps ≤ 3 := by
  obtain ⟨p, hparse, hp⟩ :
      ∃ p, Program.parse "_reg r1; _func main; top: nop; bltz r1, top;" = .ok p ∧
        succeedsWith (fun a' => decide (a'.flow.backEdges = [(2, 1)] ∧
          (a'.solve 2).1.converged = false)) (ofProgram p).buildFlow = true :=
    exists_ok_of_decide (by decide +kernel)
  obtain ⟨a', hflow, hback, hsweeps⟩ := exists_ok_of_decide hp
  refine ⟨p, a', hparse, hflow, hback, hsweeps, ?_⟩
  have h := (sweeps_bounded_by_backEdges hflow rfl).1
  rw [hback] at h
  exact h

end Annotated

end RegAlloc
