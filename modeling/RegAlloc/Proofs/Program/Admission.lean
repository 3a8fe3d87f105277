import Mathlib.Data.List.Induction
import Mathlib.Data.List.Nodup
import RegAlloc.Proofs.Program.Statement

/-!
# Statements in the order of the text

A reader sees each statement after those before it. `Statement.Admitted` is what it can ask of one
statement then. Statements are well formed if each is admitted by those before it, every label that
they name is defined, and exactly one of them opens a function.
-/

namespace RegAlloc

def Argument.Admitted (before : List Statement) : Argument → Prop
  | number value => Text.Decimal.FitsWord value
  | a => a.DeclaredIn before

def Statement.Admitted (before : List Statement) : Statement → Prop
  | memory name value => name ∉ before.filterMap declaredMemory? ∧ Text.Decimal.FitsWord value
  | register name => name ∉ before.filterMap declaredRegister?
  | function name => name ∉ before.filterMap definedLabel?
  | instruction label _ arguments =>
    (∃ s ∈ before, s.isFunction = true) ∧
      (∀ name, label = some name → name ∉ before.filterMap definedLabel?) ∧
      ∀ a ∈ arguments, a.Admitted before

def AdmittedAll (ss : List Statement) : Prop :=
  ∀ before s after, ss = before ++ s :: after → s.Admitted before

theorem admittedAll_nil : AdmittedAll [] := by
  intro before s after h
  simp at h

theorem AdmittedAll.snoc {ss : List Statement} {s : Statement} (h : AdmittedAll ss)
    (hs : s.Admitted ss) : AdmittedAll (ss ++ [s]) := by
  intro before t after heq
  rcases List.eq_nil_or_concat after with rfl | ⟨after, u, rfl⟩
  · obtain ⟨rfl, hst⟩ := List.append_inj' heq rfl
    cases hst
    exact hs
  · have hlast : ss ++ [s] = (before ++ t :: after) ++ [u] := by simpa using heq
    exact h before t after (List.append_inj' hlast rfl).1

/-! ## Names that occur once -/

theorem nodup_filterMap_iff {α β : Type} {f : α → Option β} {xs : List α} :
    (xs.filterMap f).Nodup ↔ ∀ before x after, xs = before ++ x :: after →
      ∀ y, f x = some y → y ∉ before.filterMap f := by
  constructor
  · rintro h before x after rfl y hy hmem
    rw [List.filterMap_append, List.filterMap_cons_some hy, List.nodup_append] at h
    exact h.2.2 y hmem y List.mem_cons_self rfl
  · intro h
    induction xs using List.reverseRecOn with
    | nil => simp
    | append_singleton xs x ih =>
        have hxs := ih fun before z after heq y hy => h before z (after ++ [x]) (by simp [heq]) y hy
        rw [List.filterMap_append]
        cases hx : f x with
        | none => simpa [hx] using hxs
        | some y =>
            have hy := h xs x [] rfl y hx
            simp only [List.filterMap_cons_some hx, List.filterMap_nil]
            exact List.nodup_append.mpr ⟨hxs, List.nodup_singleton y, by
              rintro z hz w hw rfl
              rw [List.mem_singleton] at hw
              exact hy (hw ▸ hz)⟩

/-! ## The function -/

theorem isCode_eq_false_iff {s : Statement} :
    s.isCode = false ↔ s.isFunction = false ∧ s.isInstruction = false := by
  simp [Statement.isCode]

/-- An instruction that stands behind a function, among statements of which none before the function
is code. -/
theorem function_mem_of_instruction {before pre after post : List Statement} {s : Statement}
    {name : String} (heq : before ++ s :: after = pre ++ .function name :: post)
    (hs : s.isInstruction = true) (hpre : ∀ t ∈ pre, t.isCode = false) :
    .function name ∈ before := by
  rcases List.append_eq_append_iff.mp heq with ⟨mid, rfl, hmid⟩ | ⟨mid, rfl, hmid⟩
  · cases mid with
    | nil =>
        cases hmid
        cases hs
    | cons t mid =>
        cases hmid
        have hcode := hpre s (by simp)
        simp [Statement.isCode, hs] at hcode
  · cases mid with
    | nil =>
        cases hmid
        cases hs
    | cons t mid =>
        cases hmid
        simp

theorem countP_isFunction_eq_one_iff {ss : List Statement} :
    ss.countP Statement.isFunction = 1 ↔ ∃ before name after,
      ss = before ++ .function name :: after ∧ (∀ s ∈ before, s.isFunction = false) ∧
        ∀ s ∈ after, s.isFunction = false := by
  constructor
  · intro h
    obtain ⟨s, hs, hfunction⟩ := List.countP_pos_iff.mp (h ▸ Nat.one_pos)
    obtain ⟨before, after, rfl⟩ := List.append_of_mem hs
    cases s with
    | function name =>
        refine ⟨before, name, after, rfl, ?_⟩
        have hcount : before.countP Statement.isFunction = 0 ∧
            after.countP Statement.isFunction = 0 := by
          simp only [List.countP_append, List.countP_cons_of_pos hfunction] at h
          omega
        simpa [List.countP_eq_zero] using hcount
    | _ => cases hfunction
  · rintro ⟨before, name, after, rfl, hbefore, hafter⟩
    have hzero : ∀ xs : List Statement, (∀ s ∈ xs, s.isFunction = false) →
        xs.countP Statement.isFunction = 0 := fun xs hxs => by simpa [List.countP_eq_zero] using hxs
    rw [List.countP_append, List.countP_cons_of_pos rfl, hzero before hbefore, hzero after hafter]

/-! ## Well-formed statements -/

theorem fitsWord_iff {n : Int} : Text.Decimal.FitsWord n ↔ -2 ^ 31 ≤ n ∧ n < 2 ^ 31 := by
  unfold Text.Decimal.FitsWord
  omega

theorem WellFormed.admittedAll {ss : List Statement} (h : WellFormed ss) : AdmittedAll ss := by
  intro before s after heq
  have hs : s ∈ ss := by simp [heq]
  cases s with
  | memory name value =>
      refine ⟨nodup_filterMap_iff.mp h.memory_nodup before _ after heq name rfl, ?_⟩
      exact fitsWord_iff.mpr (h.numbers_fit _ hs value (by simp [Statement.numbers]))
  | register name => exact nodup_filterMap_iff.mp h.registers_nodup before _ after heq name rfl
  | function name => exact nodup_filterMap_iff.mp h.labels_nodup before _ after heq name rfl
  | instruction label opcode arguments =>
      refine ⟨?_, ?_, ?_⟩
      · obtain ⟨pre, name, post, hsplit, hpre, _⟩ := h.one_function
        exact ⟨_, function_mem_of_instruction (heq.symm.trans hsplit) rfl hpre, rfl⟩
      · exact nodup_filterMap_iff.mp h.labels_nodup before _ after heq
      · intro a ha
        cases a with
        | number value =>
            refine fitsWord_iff.mpr (h.numbers_fit _ hs value ?_)
            exact List.mem_filterMap.mpr ⟨_, ha, rfl⟩
        | _ => exact h.declared before _ after heq _ ha

theorem AdmittedAll.wellFormed {ss : List Statement} (h : AdmittedAll ss)
    (hlabels : ∀ s ∈ ss, ∀ name, .label name ∈ s.arguments →
      name ∈ ss.filterMap Statement.definedLabel?)
    (hfunction : ss.countP Statement.isFunction = 1) : WellFormed ss where
  memory_nodup := nodup_filterMap_iff.mpr fun before s after heq name hname => by
    have hs := h before s after heq
    cases s <;> cases hname
    exact hs.1
  registers_nodup := nodup_filterMap_iff.mpr fun before s after heq name hname => by
    have hs := h before s after heq
    cases s <;> cases hname
    exact hs
  numbers_fit s hs n hn := by
    obtain ⟨before, after, rfl⟩ := List.append_of_mem hs
    have hadmitted := h before s after rfl
    cases s with
    | memory name value =>
        obtain rfl := List.mem_singleton.mp hn
        exact fitsWord_iff.mp hadmitted.2
    | instruction label opcode arguments =>
        obtain ⟨a, ha, heq⟩ := List.mem_filterMap.mp hn
        cases a with
        | number value =>
            cases heq
            exact fitsWord_iff.mp (hadmitted.2.2 _ ha)
        | _ => cases heq
    | _ => simp [Statement.numbers] at hn
  declared before s after heq a ha := by
    have hs := h before s after heq
    cases s with
    | instruction label opcode arguments =>
        cases a with
        | number value => trivial
        | _ => exact hs.2.2 _ ha
    | _ => simp [Statement.arguments] at ha
  labels_nodup := nodup_filterMap_iff.mpr fun before s after heq name hname => by
    have hs := h before s after heq
    cases s with
    | function => cases hname; exact hs
    | instruction => exact hs.2.1 name hname
    | _ => cases hname
  labels_defined := hlabels
  one_function := by
    obtain ⟨before, name, after, rfl, hbefore, hafter⟩ := countP_isFunction_eq_one_iff.mp hfunction
    refine ⟨before, name, after, rfl, fun s hs => ?_, hafter⟩
    -- an instruction before the function would need one before itself
    obtain ⟨front, back, rfl⟩ := List.append_of_mem hs
    have hadmitted := h front s (back ++ .function name :: after) (by simp)
    have hs' := hbefore s hs
    cases s with
    | instruction =>
        obtain ⟨t, ht, hfun⟩ := hadmitted.1
        rw [hbefore t (by simp [ht])] at hfun
        cases hfun
    | function => cases hs'
    | _ => rfl

theorem WellFormed.countP_isFunction {ss : List Statement} (h : WellFormed ss) :
    ss.countP Statement.isFunction = 1 := by
  obtain ⟨before, name, after, heq, hbefore, hafter⟩ := h.one_function
  refine countP_isFunction_eq_one_iff.mpr ⟨before, name, after, heq, fun s hs => ?_, hafter⟩
  exact (isCode_eq_false_iff.mp (hbefore s hs)).1

end RegAlloc
