import Mathlib.Data.List.Nodup
import RegAlloc.Assembly

/-!
# Colors and machine registers

A palette is made of names that passed a check, in which each name is compared with those before it.
So the slots of a palette, numbered from 1, are written as different registers, and the operand of a
register variable tells its slot.
-/

namespace RegAlloc

namespace Palette

variable {names seen : List String} {p : Palette} {s t : Slot} {k : Nat}

/-! ## Lists of names -/

theorem badName?_eq_none_iff :
    badName? seen names = none ↔
      (∀ name ∈ names, name ≠ "" ∧ name ∉ seen) ∧ names.Nodup := by
  refine ⟨nodup_of_badName?, ?_⟩
  -- the names seen grow along the list, so they are part of the induction
  induction names generalizing seen with
  | nil =>
      intro _
      rfl
  | cons name names ih =>
      intro ⟨hfresh, hnodup⟩
      have hname := hfresh name List.mem_cons_self
      rw [List.nodup_cons] at hnodup
      rw [badName?, if_neg hname.1, if_neg hname.2]
      apply ih
      refine ⟨fun other hother => ?_, hnodup.2⟩
      have hrest := hfresh other (List.mem_cons_of_mem name hother)
      refine ⟨hrest.1, fun hmem => ?_⟩
      rcases List.mem_cons.mp hmem with heq | hmem
      · exact hnodup.1 (heq ▸ hother)
      · exact hrest.2 hmem

theorem fault?_eq_none_iff : fault? names = none ↔ Valid names := by
  refine ⟨valid_of_fault?, fun h => ?_⟩
  rw [fault?, if_neg h.ne_nil, if_neg (Nat.not_lt.mpr h.length_le), badName?_eq_none_iff]
  exact ⟨fun name hname => ⟨h.ne_empty name hname, List.not_mem_nil⟩, h.nodup⟩

/-- Every palette is made from its names, and only from them. -/
theorem ofNames_eq_ok_iff : ofNames names = .ok p ↔ p.names = names := by
  unfold ofNames
  split
  · rename_i e hfault
    constructor
    · intro h
      cases h
    · intro h
      have hnone := fault?_eq_none_iff.mpr p.valid
      rw [h, hfault] at hnone
      cases hnone
  · constructor
    · intro h
      cases h
      rfl
    · intro h
      subst h
      rfl

theorem exists_ofNames_iff : (∃ p, ofNames names = .ok p) ↔ Valid names := by
  constructor
  · intro ⟨p, hp⟩
    rw [← ofNames_eq_ok_iff.mp hp]
    exact p.valid
  · intro h
    exact ⟨⟨names, h⟩, ofNames_eq_ok_iff.mpr rfl⟩

/-! ## Temporaries -/

theorem temporary_injective : Function.Injective fun i : Nat => "t" ++ toString i := by
  intro i j h
  have hdigits : Nat.toDigits 10 i = Nat.toDigits 10 j :=
    String.ofList_inj.mp ((String.append_right_inj "t").mp h)
  -- the digits can be read back
  rw [← @Nat.ofDigitChars_ten_toDigits i, hdigits, Nat.ofDigitChars_ten_toDigits]

theorem valid_temporaries (hpos : 1 ≤ k) (hle : k ≤ maxSize) :
    Valid ((List.range k).map fun i => "t" ++ toString i) where
  ne_nil := by simpa using Nat.ne_of_gt hpos
  length_le := by simpa using hle
  ne_empty := by simp
  nodup := List.nodup_range.map temporary_injective

theorem ofSize_eq_ok_iff :
    ofSize k = .ok p ↔ k ≤ maxSize ∧ p.names = (List.range k).map fun i => "t" ++ toString i := by
  by_cases hle : k ≤ maxSize
  · have hspace : ¬ maxTableBytes < entryBytes * k := by
      unfold maxSize at hle
      unfold maxTableBytes entryBytes
      omega
    rw [ofSize, if_neg hspace, if_neg (Nat.not_lt.mpr hle), ofNames_eq_ok_iff]
    exact (and_iff_right hle).symm
  · rw [ofSize, if_pos (Nat.lt_of_not_le hle)]
    refine iff_of_false ?_ fun h => hle h.1
    split <;> intro h <;> cases h

theorem exists_ofSize_iff : (∃ p, ofSize k = .ok p) ↔ 1 ≤ k ∧ k ≤ maxSize := by
  constructor
  · intro ⟨p, hp⟩
    have ⟨hle, hnames⟩ := ofSize_eq_ok_iff.mp hp
    have hne := p.valid.ne_nil
    rw [hnames] at hne
    refine ⟨Nat.one_le_iff_ne_zero.mpr ?_, hle⟩
    intro hzero
    exact hne (by rw [hzero]; rfl)
  · intro ⟨hpos, hle⟩
    exact ⟨⟨_, valid_temporaries hpos hle⟩, ofSize_eq_ok_iff.mpr ⟨hle, rfl⟩⟩

/-! ## Slots and their registers -/

theorem map_number_slots (p : Palette) : p.slots.map Slot.number = List.range' 1 p.size := by
  rw [slots, List.map_map, List.range'_eq_map_range]
  apply List.map_congr_left
  intro i _
  exact Nat.add_comm i 1

theorem isSome_render?_iff : (p.render? s).isSome = true ↔ p.contains s = true := by
  rw [contains, decide_eq_true_iff]
  simp [render?, name?, size]

/-- The slots in order are written as the names in order. -/
theorem map_render?_slots (p : Palette) :
    p.slots.map p.render? = p.names.map fun name => some ("$" ++ name) := by
  apply List.ext_getElem?
  intro i
  rw [slots, List.map_map, List.getElem?_map, List.getElem?_map]
  by_cases hi : i < p.names.length
  · simp [size, hi, render?, name?]
  · simp [size, hi]

theorem isSome_render?_ofNumber? (p : Palette) (n : Nat) :
    ((Slot.ofNumber? n).bind p.render?).isSome = true ↔ 1 ≤ n ∧ n ≤ p.size := by
  cases n with
  | zero => simp [Slot.ofNumber?]
  | succ n =>
      rw [Slot.ofNumber?, Option.bind_some, isSome_render?_iff, contains, decide_eq_true_iff]
      show n < p.size ↔ 1 ≤ n + 1 ∧ n + 1 ≤ p.size
      omega

/-- A slot outside the palette has no register, so it is enough that one of the two is inside. -/
theorem render?_inj (hs : p.contains s = true) : p.render? s = p.render? t ↔ s = t := by
  refine ⟨fun h => ?_, congrArg p.render?⟩
  have hname : p.name? s = p.name? t := by
    apply Option.map_injective _ h
    intro x y hxy
    exact (String.append_right_inj "$").mp hxy
  have hindex := (List.getElem?_inj (of_decide_eq_true hs) p.valid.nodup).mp hname
  exact congrArg Slot.mk hindex

end Palette

/-! ## Operands -/

namespace Annotated

variable {a : Annotated} {p : Palette} {v w : VarId} {s t : Slot}

theorem render?_eq_some_operand (hv : (a.program.var v).kind = .register)
    (hs : a.slotOf v = some s) (hcontains : p.contains s = true) :
    p.render? s = some (a.operand p v) := by
  obtain ⟨text, htext⟩ := Option.isSome_iff_exists.mp (Palette.isSome_render?_iff.mpr hcontains)
  simp [operand, hv, hs, htext]

theorem operand_eq_iff (hv : (a.program.var v).kind = .register)
    (hw : (a.program.var w).kind = .register) (hs : a.slotOf v = some s) (ht : a.slotOf w = some t)
    (hcontains : p.contains s = true) (hcontains' : p.contains t = true) :
    a.operand p v = a.operand p w ↔ s = t := by
  rw [← Palette.render?_inj hcontains, render?_eq_some_operand hv hs hcontains,
    render?_eq_some_operand hw ht hcontains', Option.some.injEq]

end Annotated

/-- A list of names is a palette exactly if it has one to 32 names, none of them empty and no two of
them equal. The colors of a palette are the numbers from 1 to its size, each with a register of its
own, so the operands of two register variables tell whether they have the same slot. -/
theorem Palette.colors_are_distinct_registers :
    (∀ names, (∃ p, ofNames names = .ok p) ↔
      (1 ≤ names.length ∧ names.length ≤ 32) ∧ (∀ name ∈ names, name ≠ "") ∧ names.Nodup) ∧
    (∀ names p, ofNames names = .ok p ↔ p.names = names) ∧
    (∀ k, (∃ p, ofSize k = .ok p) ↔ 1 ≤ k ∧ k ≤ 32) ∧ ofSize 4 = .ok standard ∧
    ∀ p : Palette,
      (∀ n, ((Slot.ofNumber? n).bind p.render?).isSome = true ↔ 1 ≤ n ∧ n ≤ p.size) ∧
      (∀ s t, p.contains s = true → p.contains t = true → p.render? s = p.render? t → s = t) ∧
      p.slots.map Slot.number = List.range' 1 p.size ∧
      p.slots.map p.render? = p.names.map (fun name => some ("$" ++ name)) ∧
      ∀ (a : Annotated) (v w : VarId) (s t : Slot),
        (a.program.var v).kind = .register → (a.program.var w).kind = .register →
        a.slotOf v = some s → a.slotOf w = some t →
        p.contains s = true → p.contains t = true →
        (a.operand p v = a.operand p w ↔ s = t) := by
  refine ⟨?_, fun names p => ofNames_eq_ok_iff, fun k => exists_ofSize_iff,
    ofSize_eq_ok_iff.mpr ⟨by decide, rfl⟩, ?_⟩
  · intro names
    rw [exists_ofNames_iff]
    constructor
    · intro h
      exact ⟨⟨List.length_pos_iff.mpr h.ne_nil, h.length_le⟩, h.ne_empty, h.nodup⟩
    · intro ⟨⟨hpos, hle⟩, hempty, hnodup⟩
      exact ⟨List.length_pos_iff.mp hpos, hle, hempty, hnodup⟩
  · intro p
    refine ⟨isSome_render?_ofNumber? p, ?_, map_number_slots p, map_render?_slots p, ?_⟩
    · intro s t hs _ h
      exact (render?_inj hs).mp h
    · intro a v w s t hv hw hs ht hcontains hcontains'
      exact Annotated.operand_eq_iff hv hw hs ht hcontains hcontains'

/-- Names that contain one another and the sign of a register are different registers. -/
theorem Palette.nested_names_are_distinct_registers :
    let a : Annotated :=
      { Annotated.ofProgram
          { vars := #["r1", "r2"].mapIdx fun i name => ⟨.register, name, 0, some i⟩
            registers := [0, 1] } with slots := [some ⟨2⟩, some ⟨0⟩] }
    ∃ p, ofNames ["t", "$t", "tt"] = .ok p ∧ p.slots.map Slot.number = [1, 2, 3] ∧
      a.slotOf 0 = some ⟨2⟩ ∧ a.slotOf 1 = some ⟨0⟩ ∧ a.operand p 0 ≠ a.operand p 1 := by
  intro a
  obtain ⟨hnames, hmade, _, _, hall⟩ := colors_are_distinct_registers
  obtain ⟨p, hp⟩ := (hnames ["t", "$t", "tt"]).mpr (by decide)
  have hsize : p.size = 3 := by rw [size, (hmade _ p).mp hp]; rfl
  obtain ⟨_, _, hslots, _, hoperand⟩ := hall p
  have hdiffer := hoperand a 0 1 ⟨2⟩ ⟨0⟩ rfl rfl rfl rfl
    (by rw [contains, hsize]; rfl) (by rw [contains, hsize]; rfl)
  refine ⟨p, hp, by rw [hslots, hsize]; rfl, rfl, rfl, fun h => ?_⟩
  exact absurd (hdiffer.mp h) (by decide)

end RegAlloc
