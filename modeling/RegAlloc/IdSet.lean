/-!
# Finite sets of indices

Variables and instructions are named by their index in creation order. `IdSet` holds a finite set
of such indices as a strictly ascending list, so two sets with the same members are equal and the
members come out in ascending order. Each operation is pinned down by its members.
-/

namespace RegAlloc

/-- A finite set of indices. -/
structure IdSet where
  toList : List Nat
  ascending : toList.Pairwise (· < ·)
deriving DecidableEq

namespace IdSet

/-- Places `a` into an ascending list, unless it is there already. -/
def place (a : Nat) : List Nat → List Nat
  | [] => [a]
  | b :: bs => if a < b then a :: b :: bs else if a = b then b :: bs else b :: place a bs

theorem mem_place {a x : Nat} {bs : List Nat} : x ∈ place a bs ↔ x = a ∨ x ∈ bs := by
  induction bs with
  | nil => simp [place]
  | cons b bs ih =>
    unfold place
    split
    · simp
    · split <;> rename_i h
      · subst h; simp
      · simp only [List.mem_cons, ih]
        constructor
        · rintro (h | h | h) <;> simp [h]
        · rintro (h | h | h) <;> simp [h]

theorem pairwise_place {a : Nat} {bs : List Nat} (h : bs.Pairwise (· < ·)) :
    (place a bs).Pairwise (· < ·) := by
  induction bs with
  | nil => simp [place]
  | cons b bs ih =>
    obtain ⟨hb, hbs⟩ := List.pairwise_cons.mp h
    unfold place
    split <;> rename_i hab
    · refine List.pairwise_cons.mpr ⟨fun x hx => ?_, h⟩
      rcases List.mem_cons.mp hx with rfl | hx
      · exact hab
      · exact Nat.lt_trans hab (hb x hx)
    · split <;> rename_i hne
      · exact h
      · refine List.pairwise_cons.mpr ⟨fun x hx => ?_, ih hbs⟩
        rcases mem_place.mp hx with rfl | hx
        · omega
        · exact hb x hx

/-- Joins two ascending lists into one. -/
def merge : List Nat → List Nat → List Nat
  | [], bs => bs
  | a :: as, bs =>
    bs.takeWhile (· < a) ++ a :: merge as ((bs.dropWhile (· < a)).dropWhile (· == a))

theorem mem_dropWhile_eq {a x : Nat} {bs : List Nat} :
    x = a ∨ x ∈ bs.dropWhile (· == a) ↔ x = a ∨ x ∈ bs := by
  induction bs with
  | nil => simp
  | cons b bs ih => by_cases h : b = a <;> simp_all

theorem mem_merge {x : Nat} {as bs : List Nat} : x ∈ merge as bs ↔ x ∈ as ∨ x ∈ bs := by
  induction as generalizing bs with
  | nil => simp [merge]
  | cons a as ih =>
    have split : x ∈ bs ↔ x ∈ bs.takeWhile (· < a) ∨ x ∈ bs.dropWhile (· < a) := by
      rw [← List.mem_append, List.takeWhile_append_dropWhile]
    have dropped : x = a ∨ x ∈ (bs.dropWhile (· < a)).dropWhile (· == a) ↔
        x = a ∨ x ∈ bs.dropWhile (· < a) := mem_dropWhile_eq
    simp only [merge, List.mem_append, List.mem_cons, ih]
    grind

/-- Past the entries up to `a` an ascending list goes on above `a`. -/
theorem lt_of_mem_dropWhile {a x : Nat} {bs : List Nat} (h : bs.Pairwise (· < ·))
    (hx : x ∈ (bs.dropWhile (· < a)).dropWhile (· == a)) : a < x := by
  induction bs with
  | nil => simp at hx
  | cons b bs ih =>
    obtain ⟨hb, hbs⟩ := List.pairwise_cons.mp h
    by_cases hlt : b < a
    · exact ih hbs (by simpa [List.dropWhile_cons, hlt] using hx)
    · by_cases heq : b = a
      · have : x ∈ bs.dropWhile (· == a) := by
          simpa [List.dropWhile_cons, hlt, heq] using hx
        exact heq ▸ hb x ((List.dropWhile_sublist _).subset this)
      · have : x ∈ b :: bs := by simpa [List.dropWhile_cons, hlt, heq] using hx
        rcases List.mem_cons.mp this with rfl | hm
        · omega
        · have := hb x hm
          omega

theorem pairwise_merge {as bs : List Nat} (ha : as.Pairwise (· < ·)) (hb : bs.Pairwise (· < ·)) :
    (merge as bs).Pairwise (· < ·) := by
  induction as generalizing bs with
  | nil => exact hb
  | cons a as ih =>
    obtain ⟨hlt, has⟩ := List.pairwise_cons.mp ha
    have rest : ((bs.dropWhile (· < a)).dropWhile (· == a)).Pairwise (· < ·) :=
      hb.sublist ((List.dropWhile_sublist _).trans (List.dropWhile_sublist _))
    have above : ∀ x ∈ merge as ((bs.dropWhile (· < a)).dropWhile (· == a)), a < x := fun x hx => by
      rcases mem_merge.mp hx with hx | hx
      · exact hlt x hx
      · exact lt_of_mem_dropWhile hb hx
    refine List.pairwise_append.mpr ⟨hb.sublist (List.takeWhile_sublist _),
      List.pairwise_cons.mpr ⟨above, ih has rest⟩, fun x hx y hy => ?_⟩
    have hxa : x < a := by simpa using List.all_eq_true.mp List.all_takeWhile x hx
    rcases List.mem_cons.mp hy with rfl | hy
    · exact hxa
    · exact Nat.lt_trans hxa (above y hy)

/-- The set without members. -/
def empty : IdSet := ⟨[], .nil⟩

instance : EmptyCollection IdSet := ⟨empty⟩

instance : Inhabited IdSet := ⟨empty⟩

instance : Membership Nat IdSet := ⟨fun s a => a ∈ s.toList⟩

instance (a : Nat) (s : IdSet) : Decidable (a ∈ s) := inferInstanceAs (Decidable (a ∈ s.toList))

/-- `s` with `a` added. -/
def insert (a : Nat) (s : IdSet) : IdSet := ⟨place a s.toList, pairwise_place s.ascending⟩

/-- The set of the entries of a list, in any order and repeated or not. -/
def ofList (as : List Nat) : IdSet := as.foldr insert empty

/-- The members of either set. -/
def union (s t : IdSet) : IdSet :=
  ⟨merge t.toList s.toList, pairwise_merge t.ascending s.ascending⟩

instance : Union IdSet := ⟨union⟩

/-- The members of `s` that are not in `t`. -/
def diff (s t : IdSet) : IdSet :=
  ⟨s.toList.filter fun a => decide (a ∉ t), s.ascending.filter _⟩

instance : SDiff IdSet := ⟨diff⟩

/-- The members of any of the given sets. -/
def unions (ss : List IdSet) : IdSet := ss.foldr (fun s acc => acc ∪ s) ∅

/-- Number of members. -/
def size (s : IdSet) : Nat := s.toList.length

/-! ### Members -/

@[simp] theorem mem_toList {a : Nat} {s : IdSet} : a ∈ s.toList ↔ a ∈ s := Iff.rfl

@[simp] theorem not_mem_empty (a : Nat) : a ∉ (∅ : IdSet) := List.not_mem_nil

@[simp] theorem mem_insert {a x : Nat} {s : IdSet} : x ∈ s.insert a ↔ x = a ∨ x ∈ s := mem_place

@[simp] theorem mem_ofList {x : Nat} {as : List Nat} : x ∈ ofList as ↔ x ∈ as := by
  induction as with
  | nil => exact ⟨fun h => absurd h (not_mem_empty x), fun h => absurd h List.not_mem_nil⟩
  | cons a as ih => simpa [ofList] using or_congr Iff.rfl ih

@[simp] theorem mem_union {x : Nat} {s t : IdSet} : x ∈ s ∪ t ↔ x ∈ s ∨ x ∈ t :=
  mem_merge.trans or_comm

@[simp] theorem mem_diff {x : Nat} {s t : IdSet} : x ∈ s \ t ↔ x ∈ s ∧ x ∉ t := by
  change x ∈ List.filter _ _ ↔ _
  simp

@[simp] theorem mem_unions {x : Nat} {ss : List IdSet} : x ∈ unions ss ↔ ∃ s ∈ ss, x ∈ s := by
  induction ss with
  | nil => simp [unions]
  | cons s ss ih =>
    have : unions (s :: ss) = unions ss ∪ s := rfl
    simp [this, ih, or_comm]

/-! ### Extensionality -/

theorem eq_of_ascending {as bs : List Nat} (ha : as.Pairwise (· < ·)) (hb : bs.Pairwise (· < ·))
    (h : ∀ x, x ∈ as ↔ x ∈ bs) : as = bs := by
  induction as generalizing bs with
  | nil =>
    cases bs with
    | nil => rfl
    | cons b bs => exact absurd ((h b).mpr List.mem_cons_self) List.not_mem_nil
  | cons a as ih =>
    cases bs with
    | nil => exact absurd ((h a).mp List.mem_cons_self) List.not_mem_nil
    | cons b bs =>
      obtain ⟨ha, has⟩ := List.pairwise_cons.mp ha
      obtain ⟨hb, hbs⟩ := List.pairwise_cons.mp hb
      have hab : a = b := by
        rcases List.mem_cons.mp ((h a).mp List.mem_cons_self) with h₁ | h₁
        · exact h₁
        · rcases List.mem_cons.mp ((h b).mpr List.mem_cons_self) with h₂ | h₂
          · exact h₂.symm
          · exact absurd (hb a h₁) (Nat.lt_asymm (ha b h₂))
      subst hab
      have tail : ∀ x, x ∈ as ↔ x ∈ bs := fun x => by
        constructor <;> intro hx
        · have hne := ha x hx
          rcases List.mem_cons.mp ((h x).mp (List.mem_cons_of_mem _ hx)) with h₁ | h₁
          · omega
          · exact h₁
        · have hne := hb x hx
          rcases List.mem_cons.mp ((h x).mpr (List.mem_cons_of_mem _ hx)) with h₁ | h₁
          · omega
          · exact h₁
      rw [ih has hbs tail]

/-- Sets with the same members are equal. -/
@[ext] theorem ext {s t : IdSet} (h : ∀ x, x ∈ s ↔ x ∈ t) : s = t := by
  cases s; cases t
  congr 1
  exact eq_of_ascending ‹_› ‹_› h

end IdSet

end RegAlloc
