import Mathlib.Data.List.Find
import RegAlloc.Proofs.Program.Numbering

/-!
# Kinds of the variables that a builder makes

A call of the builder never changes what an earlier one has made: a variable keeps its kind, its
name and its position, and all but labels keep their value. From this follow the properties of the
lists of the program: each holds variables of its kind, and every instruction has operands of the
kinds that its operation asks for.
-/

namespace RegAlloc

theorem Program.var_of_size_le {p : Program} {v : VarId} (h : p.vars.size ≤ v) :
    p.var v = default := by
  rw [Program.var, Array.getD_eq_getD_getElem?, Array.getElem?_eq_none h]
  rfl

theorem Program.lt_size_of_kind {p : Program} {v : VarId} (h : (p.var v).kind ≠ .untyped) :
    v < p.vars.size := by
  refine Nat.lt_of_not_le fun hle => h ?_
  rw [Program.var_of_size_le hle]
  rfl

namespace Builder

/-! ## Calls keep what there is -/

structure Extends (b b' : Builder) : Prop where
  size_le : b.program.vars.size ≤ b'.program.vars.size
  kind_eq : ∀ {v}, v < b.program.vars.size → (b'.program.var v).kind = (b.program.var v).kind
  name_eq : ∀ {v}, v < b.program.vars.size → (b'.program.var v).name = (b.program.var v).name
  position_eq : ∀ {v}, v < b.program.vars.size →
    (b'.program.var v).position = (b.program.var v).position
  value_eq : ∀ {v}, v < b.program.vars.size → (b.program.var v).kind ≠ .label →
    (b'.program.var v).value = (b.program.var v).value
  ofKind_subset : ∀ kind, b.program.ofKind kind ⊆ b'.program.ofKind kind

theorem Extends.refl (b : Builder) : b.Extends b :=
  ⟨Nat.le_refl _, fun _ => rfl, fun _ => rfl, fun _ => rfl, fun _ _ => rfl,
    fun _ => List.Subset.refl _⟩

theorem Extends.trans {b₁ b₂ b₃ : Builder} (h : b₁.Extends b₂) (h' : b₂.Extends b₃) :
    b₁.Extends b₃ where
  size_le := Nat.le_trans h.size_le h'.size_le
  kind_eq hv := (h'.kind_eq (Nat.lt_of_lt_of_le hv h.size_le)).trans (h.kind_eq hv)
  name_eq hv := (h'.name_eq (Nat.lt_of_lt_of_le hv h.size_le)).trans (h.name_eq hv)
  position_eq hv := (h'.position_eq (Nat.lt_of_lt_of_le hv h.size_le)).trans (h.position_eq hv)
  value_eq hv hkind := by
    have hkind' := hkind
    rw [← h.kind_eq hv] at hkind'
    exact (h'.value_eq (Nat.lt_of_lt_of_le hv h.size_le) hkind').trans (h.value_eq hv hkind)
  ofKind_subset kind := List.Subset.trans (h.ofKind_subset kind) (h'.ofKind_subset kind)

theorem extends_of_vars_eq {b b' : Builder} (hvars : b'.program.vars = b.program.vars)
    (hlists : ∀ kind, b.program.ofKind kind ⊆ b'.program.ofKind kind) : b.Extends b' := by
  have hvar : ∀ v, b'.program.var v = b.program.var v := fun v => by rw [Program.var, hvars]; rfl
  exact ⟨Nat.le_of_eq (congrArg Array.size hvars).symm, fun _ => by rw [hvar],
    fun _ => by rw [hvar], fun _ => by rw [hvar], fun _ _ => by rw [hvar], hlists⟩

theorem var_eq_of_push {b b' : Builder} {new : Variable}
    (hvars : b'.program.vars = b.program.vars.push new) (v : VarId) :
    b'.program.var v = if v = b.program.vars.size then new else b.program.var v := by
  simp only [Program.var, hvars, Array.getD_eq_getD_getElem?, Array.getElem?_push]
  split <;> rfl

theorem extends_of_push {b b' : Builder} {new : Variable}
    (hvars : b'.program.vars = b.program.vars.push new)
    (hlists : ∀ kind, b.program.ofKind kind ⊆ b'.program.ofKind kind) : b.Extends b' := by
  have hvar : ∀ {v}, v < b.program.vars.size → b'.program.var v = b.program.var v := fun hv => by
    rw [var_eq_of_push hvars, if_neg (Nat.ne_of_lt hv)]
  exact ⟨by simp [hvars], fun hv => by rw [hvar hv], fun hv => by rw [hvar hv],
    fun hv => by rw [hvar hv], fun hv _ => by rw [hvar hv], hlists⟩

theorem extends_label (b : Builder) (name : String) : b.Extends (b.label name).2 :=
  extends_of_push rfl fun kind => by cases kind <;> simp [label, push, Program.ofKind]

theorem extends_constant (b : Builder) (value : Int) : b.Extends (b.constant value).2 := by
  unfold constant
  cases b.constant? value with
  | some id => exact .refl b
  | none => exact extends_of_push rfl fun kind => by cases kind <;> simp [push, Program.ofKind]

theorem var_define (b : Builder) (label v : VarId) :
    (b.define label).program.var v =
      if label = v ∧ v < b.program.vars.size then { b.program.var v with value := 1 }
      else b.program.var v := by
  simp only [define, Program.var, Array.getD_eq_getD_getElem?, Array.getElem?_modify]
  by_cases h : label = v
  · by_cases hv : v < b.program.vars.size
    · simp [h, hv]
    · simp [h, hv]
  · simp [h]

theorem isDefinedLabel_define {b : Builder} {label v : VarId}
    (hkind : (b.program.var v).kind = .label) :
    ((b.define label).program.var v).isDefinedLabel =
      ((b.program.var v).isDefinedLabel || decide (some label = some v)) := by
  have hlt : v < b.program.vars.size := Program.lt_size_of_kind (by simp [hkind])
  rw [var_define]
  by_cases h : label = v
  · simp [h, hlt, Variable.isDefinedLabel, hkind]
  · simp [h]

theorem extends_define {b : Builder} {label : VarId} (h : (b.program.var label).kind = .label) :
    b.Extends (b.define label) where
  size_le := by simp [define]
  kind_eq _ := b.kind_define label _
  name_eq hv := by
    rw [var_define]
    split <;> rfl
  position_eq _ := b.position_define label _
  value_eq {v} _ hkind := by
    have hne : label ≠ v := by
      rintro rfl
      exact hkind h
    rw [var_define, if_neg (by simp [hne])]
  ofKind_subset kind := by cases kind <;> simp [define, Program.ofKind]

/-- What `checkFree` lets pass is a label that no instruction has taken. -/
theorem checkFree_eq_ok_iff {b : Builder} {label : VarId} :
    b.checkFree label = .ok () ↔
      (b.program.var label).kind = .label ∧ (b.program.var label).isDefinedLabel = false := by
  unfold checkFree var
  by_cases hkind : (b.program.var label).kind = .label
  · cases hdefined : (b.program.var label).isDefinedLabel <;> simp [hkind]
  · simp [hkind]

/-- The builder after an instruction or a marker was appended. -/
theorem extends_append (b : Builder) (make : Nat → Instruction) :
    b.Extends (b.append make).2 :=
  extends_of_vars_eq rfl fun kind => by cases kind <;> simp [append, Program.ofKind]

theorem entry_eq_ok {b b' : Builder} {label : VarId} {inst : InstId}
    (h : b.entry label = .ok (inst, b')) :
    b.checkFree label = .ok () ∧ inst = b.program.instrs.size ∧
      b' = ((b.define label).append fun position =>
        { position, opcode := none, label := some label }).2 := by
  rw [entry_eq] at h
  cases hfree : b.checkFree label with
  | error e =>
      rw [hfree] at h
      cases h
  | ok _ =>
      rw [hfree] at h
      cases h
      exact ⟨rfl, rfl, rfl⟩

theorem instruction_eq_ok {b b' : Builder} {opcode : Opcode} {dst src : List VarId} {inst : InstId}
    (h : b.instruction opcode dst src = .ok (inst, b')) :
    b.checkOperands opcode dst src = .ok () ∧ inst = b.program.instrs.size ∧
      b' = (b.append fun position => { position, opcode := some opcode, dst, src }).2 := by
  rw [instruction_eq] at h
  cases hoperands : b.checkOperands opcode dst src with
  | error e =>
      rw [hoperands] at h
      cases h
  | ok _ =>
      rw [hoperands] at h
      cases h
      exact ⟨rfl, rfl, rfl⟩

theorem attach_eq_ok {b b' : Builder} {inst : InstId} {label : VarId}
    (h : b.attach inst label = .ok b') :
    b.checkFree label = .ok () ∧ b' = (b.define label).relabel inst label := by
  rw [attach_eq] at h
  cases hfree : b.checkFree label with
  | error e =>
      rw [hfree] at h
      cases h
  | ok _ =>
      rw [hfree] at h
      cases h
      exact ⟨rfl, rfl⟩

theorem extends_relabel (b : Builder) (inst : InstId) (label : VarId) :
    b.Extends (b.relabel inst label) :=
  extends_of_vars_eq rfl fun kind => by cases kind <;> simp [relabel, Program.ofKind]

theorem extends_entry {b b' : Builder} {label : VarId} {inst : InstId}
    (h : b.entry label = .ok (inst, b')) : b.Extends b' := by
  obtain ⟨hfree, _, rfl⟩ := entry_eq_ok h
  exact (extends_define (checkFree_eq_ok_iff.mp hfree).1).trans (extends_append _ _)

theorem extends_instruction {b b' : Builder} {opcode : Opcode} {dst src : List VarId}
    {inst : InstId} (h : b.instruction opcode dst src = .ok (inst, b')) : b.Extends b' := by
  obtain ⟨_, _, rfl⟩ := instruction_eq_ok h
  exact extends_append _ _

theorem extends_attach {b b' : Builder} {inst : InstId} {label : VarId}
    (h : b.attach inst label = .ok b') : b.Extends b' := by
  obtain ⟨hfree, rfl⟩ := attach_eq_ok h
  exact (extends_define (checkFree_eq_ok_iff.mp hfree).1).trans (extends_relabel _ _ _)

/-! ## Operands -/

theorem wrongKind?_eq_none_iff {b : Builder} {role : Role} {slot : Nat} {kinds : List VarKind}
    {ids : List VarId} (hlength : kinds.length = ids.length) :
    b.wrongKind? role slot kinds ids = none ↔ ids.map (fun v => (b.program.var v).kind) = kinds := by
  induction kinds generalizing slot ids with
  | nil =>
      obtain rfl : ids = [] := List.length_eq_zero_iff.mp hlength.symm
      simp [wrongKind?]
  | cons kind kinds ih =>
      cases ids with
      | nil => simp at hlength
      | cons id ids =>
          have hrest := @ih (slot + 1) ids (by simpa using hlength)
          by_cases h : (b.program.var id).kind = kind
          · simp [wrongKind?, var, h, hrest]
          · simp [wrongKind?, var, h]

theorem mismatch?_eq_none_iff {b : Builder} {role : Role} {kinds : List VarKind}
    {ids : List VarId} :
    b.mismatch? role kinds ids = none ↔ ids.map (fun v => (b.program.var v).kind) = kinds := by
  unfold mismatch?
  by_cases h : kinds.length = ids.length
  · rw [if_pos h, wrongKind?_eq_none_iff h]
  · simp only [h, if_false, reduceCtorEq, false_iff]
    intro heq
    apply h
    rw [← heq, List.length_map]

theorem checkOperands_eq_ok_iff {b : Builder} {opcode : Opcode} {dst src : List VarId} :
    b.checkOperands opcode dst src = .ok () ↔
      dst.map (fun v => (b.program.var v).kind) = opcode.shape.dst ∧
        src.map (fun v => (b.program.var v).kind) = opcode.shape.src := by
  rw [← @mismatch?_eq_none_iff b .destination, ← @mismatch?_eq_none_iff b .source]
  unfold checkOperands
  cases b.mismatch? .destination opcode.shape.dst dst with
  | some reason => simp
  | none =>
      cases b.mismatch? .source opcode.shape.src src <;> simp

theorem kind_ne_untyped_of_shape (opcode : Opcode) {kind : VarKind}
    (h : kind ∈ opcode.shape.dst ∨ kind ∈ opcode.shape.src) : kind ≠ .untyped := by
  rintro rfl
  revert h
  cases opcode <;> decide

/-! ## Every builder -/

/-- What holds of each instruction: the operands have the kinds that the operation asks for, the
label is one, and an instruction without operation is a marker. -/
structure Fits (p : Program) (i : Instruction) : Prop where
  operands : ∀ op, i.opcode = some op → i.dst.map (fun v => (p.var v).kind) = op.shape.dst ∧
    i.src.map (fun v => (p.var v).kind) = op.shape.src
  label : ∀ v, i.label = some v → (p.var v).kind = .label
  marker : i.opcode = none → i.label.isSome = true ∧ i.operands = []

structure Kinded (b : Builder) : Prop where
  mem_ofKind : ∀ {kind v}, kind ≠ .untyped →
    (v ∈ b.program.ofKind kind ↔ (b.program.var v).kind = kind)
  isRegister_of_position : ∀ {v x}, (b.program.var v).position = some x →
    (b.program.var v).isRegister = true
  fits : ∀ i ∈ b.program.instrs, Fits b.program i

theorem Kinded.kind_of_mem {b : Builder} (h : b.Kinded) {kind : VarKind} {v : VarId}
    (hv : v ∈ b.program.ofKind kind) : (b.program.var v).kind = kind := by
  cases kind with
  | untyped => simp [Program.ofKind] at hv
  | _ => exact (h.mem_ofKind (by decide)).mp hv

theorem Kinded.lt_size {b : Builder} (h : b.Kinded) {kind : VarKind} {v : VarId}
    (hv : v ∈ b.program.ofKind kind) : v < b.program.vars.size := by
  apply Program.lt_size_of_kind
  rw [h.kind_of_mem hv]
  rintro rfl
  simp [Program.ofKind] at hv

theorem Fits.kind_mem {p : Program} {i : Instruction} (h : Fits p i) {op : Opcode}
    (hop : i.opcode = some op) {v : VarId} (hv : v ∈ i.operands) :
    (p.var v).kind ∈ op.shape.dst ∨ (p.var v).kind ∈ op.shape.src := by
  obtain ⟨hdst, hsrc⟩ := h.operands op hop
  rcases List.mem_append.mp hv with hv | hv
  · exact Or.inl (hdst ▸ List.mem_map_of_mem hv)
  · exact Or.inr (hsrc ▸ List.mem_map_of_mem hv)

theorem Fits.lt_size {p : Program} {i : Instruction} (h : Fits p i) {op : Opcode}
    (hop : i.opcode = some op) {v : VarId} (hv : v ∈ i.operands) : v < p.vars.size :=
  Program.lt_size_of_kind (kind_ne_untyped_of_shape op (h.kind_mem hop hv))

/-- Operands and labels that fit exist already, so they keep their kinds. -/
theorem Fits.extends {b b' : Builder} (hext : b.Extends b') {i : Instruction}
    (h : Fits b.program i) : Fits b'.program i where
  operands op hop := by
    obtain ⟨hdst, hsrc⟩ := h.operands op hop
    constructor
    · rw [← hdst]
      exact List.map_congr_left fun v hv => hext.kind_eq (h.lt_size hop (List.mem_append_left _ hv))
    · rw [← hsrc]
      exact List.map_congr_left fun v hv => hext.kind_eq (h.lt_size hop (List.mem_append_right _ hv))
  label v hv := by
    have hkind := h.label v hv
    rw [hext.kind_eq (Program.lt_size_of_kind (by simp [hkind])), hkind]
  marker := h.marker

/-- A new variable, in the list of its kind. -/
theorem Kinded.push {b b' : Builder} (h : b.Kinded) {new : Variable}
    (hvars : b'.program.vars = b.program.vars.push new)
    (hlists : ∀ kind, b'.program.ofKind kind = b.program.ofKind kind ++
      if kind = new.kind ∧ kind ≠ .untyped then [b.program.vars.size] else [])
    (hposition : ∀ x, new.position = some x → new.isRegister = true)
    (hinstrs : b'.program.instrs = b.program.instrs) : b'.Kinded := by
  have hext : b.Extends b' := extends_of_push hvars fun kind => by simp [hlists]
  have hold : ∀ {kind}, b.program.vars.size ∉ b.program.ofKind kind := fun hmem =>
    Nat.lt_irrefl _ (h.lt_size hmem)
  refine ⟨?_, ?_, ?_⟩
  · intro kind v hkind
    rw [hlists, var_eq_of_push hvars, List.mem_append]
    by_cases hv : v = b.program.vars.size
    · subst hv
      by_cases heq : kind = new.kind
      · simp [heq, heq ▸ hkind]
      · simp [heq, hold, Ne.symm heq]
    · rw [if_neg hv, h.mem_ofKind hkind]
      split <;> simp [hv]
  · intro v x hx
    rw [var_eq_of_push hvars] at hx ⊢
    split at hx
    · rename_i heq
      rw [if_pos heq]
      exact hposition x hx
    · rename_i hne
      rw [if_neg hne]
      exact h.isRegister_of_position hx
  · intro i hi
    exact (h.fits i (hinstrs ▸ hi)).extends hext

/-- The same variables in the same lists. -/
theorem Kinded.keep {b b' : Builder} (h : b.Kinded) (hext : b.Extends b')
    (hkind : ∀ v, (b'.program.var v).kind = (b.program.var v).kind)
    (hposition : ∀ v, (b'.program.var v).position = (b.program.var v).position)
    (hlists : ∀ kind, b'.program.ofKind kind = b.program.ofKind kind)
    (hfits : ∀ i ∈ b'.program.instrs, Fits b.program i) : b'.Kinded where
  mem_ofKind hne := by rw [hlists, hkind, h.mem_ofKind hne]
  isRegister_of_position {v x} hx := by
    rw [hposition] at hx
    rw [Variable.isRegister, hkind]
    exact h.isRegister_of_position hx
  fits i hi := (hfits i hi).extends hext

theorem Kinded.define {b : Builder} (h : b.Kinded) {label : VarId}
    (hlabel : (b.program.var label).kind = .label) : (b.define label).Kinded :=
  h.keep (extends_define hlabel) (b.kind_define label) (b.position_define label)
    (fun kind => by cases kind <;> rfl) h.fits

theorem Kinded.append {b : Builder} (h : b.Kinded) {make : Nat → Instruction}
    (hfits : ∀ position, Fits b.program (make position)) : (b.append make).2.Kinded := by
  refine h.keep (extends_append b make) (fun _ => rfl) (fun _ => rfl)
    (fun kind => by cases kind <;> rfl) ?_
  intro i hi
  rcases Array.mem_push.mp hi with hi | rfl
  · exact h.fits i hi
  · exact hfits _

theorem Kinded.relabel {b : Builder} (h : b.Kinded) (inst : InstId) {label : VarId}
    (hlabel : (b.program.var label).kind = .label) : (b.relabel inst label).Kinded := by
  refine h.keep (extends_relabel b inst label) (fun _ => rfl) (fun _ => rfl)
    (fun kind => by cases kind <;> rfl) ?_
  intro i hi
  obtain ⟨k, hk, rfl⟩ := Array.mem_iff_getElem.mp hi
  have hlt : k < b.program.instrs.size := by simpa [Builder.relabel] using hk
  have hold := h.fits b.program.instrs[k] (Array.getElem_mem hlt)
  simp only [Builder.relabel, Array.getElem_modify]
  split
  · refine ⟨hold.operands, ?_, fun hop => ⟨rfl, (hold.marker hop).2⟩⟩
    rintro v ⟨⟩
    exact hlabel
  · exact hold

theorem Reachable.kinded {b : Builder} (h : b.Reachable) : b.Kinded := by
  induction h with
  | new =>
      have hvar : ∀ v, (({} : Builder).program.var v) = default := fun v =>
        Program.var_of_size_le (Nat.zero_le _)
      refine ⟨?_, ?_, by simp⟩
      · intro kind v hkind
        rw [hvar]
        cases kind <;> simp_all [Program.ofKind, default]
      · intro v x hx
        rw [hvar] at hx
        cases hx
  | memory _ name value ih =>
      exact ih.push rfl
        (fun kind => by cases kind <;> simp [Builder.memory, Builder.push, Program.ofKind])
        (by simp) rfl
  | register _ name ih =>
      exact ih.push rfl
        (fun kind => by cases kind <;> simp [Builder.register, Builder.push, Program.ofKind])
        (by simp [Variable.isRegister]) rfl
  | label _ name ih =>
      exact ih.push rfl
        (fun kind => by cases kind <;> simp [Builder.label, Builder.push, Program.ofKind])
        (by simp) rfl
  | untyped _ name ih =>
      exact ih.push rfl
        (fun kind => by cases kind <;> simp [Builder.untyped, Builder.push, Program.ofKind])
        (by simp) rfl
  | @constant b _ value ih =>
      unfold Builder.constant
      cases b.constant? value with
      | some id => exact ih
      | none =>
          exact ih.push rfl (fun kind => by cases kind <;> simp [Builder.push, Program.ofKind])
            (by simp) rfl
  | entry _ hentry ih =>
      obtain ⟨hfree, _, rfl⟩ := entry_eq_ok hentry
      have hlabel := (checkFree_eq_ok_iff.mp hfree).1
      refine (ih.define hlabel).append fun position => ⟨?_, ?_, fun _ => ⟨rfl, rfl⟩⟩
      · rintro op ⟨⟩
      · rintro v ⟨⟩
        rw [kind_define, hlabel]
  | instruction _ hinstruction ih =>
      obtain ⟨hoperands, _, rfl⟩ := instruction_eq_ok hinstruction
      refine ih.append fun position => ⟨?_, ?_, ?_⟩
      · rintro op ⟨⟩
        exact checkOperands_eq_ok_iff.mp hoperands
      · rintro v ⟨⟩
      · rintro ⟨⟩
  | attach _ _ hattach ih =>
      obtain ⟨hfree, rfl⟩ := attach_eq_ok hattach
      have hlabel := (checkFree_eq_ok_iff.mp hfree).1
      exact (ih.define hlabel).relabel _ (by rw [kind_define, hlabel])

/-! ## Constants by their values -/

/-- Constants keep their values. -/
theorem Extends.find?_constants {b b' : Builder} (hext : b.Extends b') (hb : b.Kinded)
    (value : Int) :
    b.program.constants.find? (fun v => (b'.program.var v).value == value) =
      b.program.constants.find? fun v => (b.program.var v).value == value := by
  refine List.find?_congr fun v hv => ?_
  have hkind : (b.program.var v).kind = .constant := @Kinded.kind_of_mem b hb .constant v hv
  rw [hext.value_eq (@Kinded.lt_size b hb .constant v hv) (by simp [hkind])]

/-- The table has what a search through the constants would find. -/
theorem Reachable.constant?_eq {b : Builder} (h : b.Reachable) (value : Int) :
    b.constant? value =
      b.program.constants.find? fun v => (b.program.var v).value == value := by
  have hkeep : ∀ {b b' : Builder}, b.Reachable → b.Extends b' → b'.interned = b.interned →
      b'.program.constants = b.program.constants →
      b.constant? value = b.program.constants.find? (fun v => (b.program.var v).value == value) →
      b'.constant? value =
        b'.program.constants.find? fun v => (b'.program.var v).value == value := by
    intro b b' hb hext hinterned hconstants ih
    rw [hconstants, hext.find?_constants hb.kinded, ← ih, constant?, hinterned, constant?]
  induction h with
  | new => rfl
  | memory hb name initial ih =>
      refine hkeep hb (extends_of_push rfl fun kind => ?_) rfl rfl ih
      cases kind <;> simp [Builder.memory, Builder.push, Program.ofKind]
  | register hb name ih =>
      refine hkeep hb (extends_of_push rfl fun kind => ?_) rfl rfl ih
      cases kind <;> simp [Builder.register, Builder.push, Program.ofKind]
  | label hb name ih => exact hkeep hb (extends_label _ name) rfl rfl ih
  | untyped hb name ih =>
      refine hkeep hb (extends_of_push rfl fun kind => ?_) rfl rfl ih
      cases kind <;> simp [Builder.untyped, Builder.push, Program.ofKind]
  | @constant b hb new ih =>
      have hold := (b.extends_constant new).find?_constants hb.kinded value
      cases hnew : b.constant? new with
      | some id =>
          rw [Builder.constant, hnew]
          exact ih
      | none =>
          rw [Builder.constant, hnew] at hold ⊢
          change ((new, b.program.vars.size) :: b.interned).lookup value =
            (b.program.constants ++ [b.program.vars.size]).find? _
          rw [List.find?_append, hold, ← ih, List.lookup_cons]
          by_cases hvalue : value = new
          · subst hvalue
            simp [hnew, Program.var, push]
          · have hne : (value == new) = false := by simpa using hvalue
            simp [hne, Ne.symm hvalue, Program.var, push, constant?]
  | entry hb hentry ih =>
      have hext := extends_entry hentry
      obtain ⟨_, _, rfl⟩ := entry_eq_ok hentry
      exact hkeep hb hext rfl rfl ih
  | instruction hb hinstruction ih =>
      have hext := extends_instruction hinstruction
      obtain ⟨_, _, rfl⟩ := instruction_eq_ok hinstruction
      exact hkeep hb hext rfl rfl ih
  | attach hb _ hattach ih =>
      have hext := extends_attach hattach
      obtain ⟨_, rfl⟩ := attach_eq_ok hattach
      exact hkeep hb hext rfl rfl ih

theorem Reachable.constant?_eq_some {b : Builder} (h : b.Reachable) {value : Int} {v : VarId}
    (hfound : b.constant? value = some v) :
    v ∈ b.program.constants ∧ (b.program.var v).value = value := by
  rw [h.constant?_eq] at hfound
  exact ⟨List.mem_of_find?_eq_some hfound, by simpa using List.find?_some hfound⟩

theorem Reachable.constant?_eq_none {b : Builder} (h : b.Reachable) {value : Int}
    (hnew : b.constant? value = none) :
    ∀ v ∈ b.program.constants, (b.program.var v).value ≠ value := by
  rw [h.constant?_eq] at hnew
  simpa using hnew

end Builder

theorem Program.Finished.isRegister_of_position {p : Program} (h : p.Finished) {v : VarId}
    {x : Nat} (hx : (p.var v).position = some x) : (p.var v).isRegister = true := by
  obtain ⟨b, hb, rfl⟩ := h
  exact hb.kinded.isRegister_of_position hx

end RegAlloc
