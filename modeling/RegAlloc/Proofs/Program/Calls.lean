import Mathlib.Data.List.Induction
import RegAlloc.Proofs.Program.Kinds

/-!
# Sequences of calls

A builder is used through a sequence of calls, some of which it refuses. `Builder.made` is the
builder after such a sequence and `Builder.Legal` asks that each call names variables and
instructions that exist when it is made. `Builder.Step` says once what a call that is not refused
does.
-/

namespace RegAlloc

namespace Builder

/-- A call of the builder with its arguments. -/
inductive Call where
  | memory (name : String) (value : Int)
  | register (name : String)
  | label (name : String)
  | untyped (name : String)
  | constant (value : Int)
  | entry (label : VarId)
  | instruction (opcode : Opcode) (dst src : List VarId)
  | attach (inst : InstId) (label : VarId)
deriving DecidableEq, Repr

/-- The label that the call gives to an instruction. -/
def Call.label? : Call → Option VarId
  | entry v | attach _ v => some v
  | _ => none

/-- The variables and instructions that the call names exist. -/
def Call.Known (b : Builder) : Call → Prop
  | entry v => v < b.program.vars.size
  | instruction _ dst src => ∀ v ∈ dst ++ src, v < b.program.vars.size
  | attach i v => i < b.instructionCount ∧ v < b.program.vars.size
  | _ => True

instance (b : Builder) (c : Call) : Decidable (c.Known b) :=
  match c with
  | .entry v => inferInstanceAs (Decidable (v < b.program.vars.size))
  | .instruction _ dst src => inferInstanceAs (Decidable (∀ v ∈ dst ++ src, v < b.program.vars.size))
  | .attach i v => inferInstanceAs (Decidable (i < b.instructionCount ∧ v < b.program.vars.size))
  | .memory _ _ | .register _ | .label _ | .untyped _ | .constant _ => isTrue trivial

/-- The call as a computation on the builder. -/
def Call.action : Call → Action Unit
  | .memory name value => modify fun b => (b.memory name value).2
  | .register name => modify fun b => (b.register name).2
  | .label name => modify fun b => (b.label name).2
  | .untyped name => modify fun b => (b.untyped name).2
  | .constant value => modify fun b => (b.constant value).2
  | .entry v => discard (Action.entry v)
  | .instruction opcode dst src => discard (Action.instruction opcode dst src)
  | .attach i v => Action.attach i v

/-- The builder that a call returns, if it is not refused. -/
def attempt (b : Builder) (c : Call) : Except BuildError Builder :=
  (c.action.answer b).map Prod.snd

/-- The builder after a call, refused or not. -/
def perform (b : Builder) (c : Call) : Builder := stateAfter c.action b

/-- The builder after some calls of an empty one. -/
def made (cs : List Call) : Builder := cs.foldl perform {}

/-- Each call names what exists when it is made. -/
def LegalFrom (b : Builder) : List Call → Prop
  | [] => True
  | c :: cs => c.Known b ∧ LegalFrom (b.perform c) cs

def Legal (cs : List Call) : Prop := LegalFrom {} cs

instance decidableLegalFrom : (b : Builder) → (cs : List Call) → Decidable (LegalFrom b cs)
  | _, [] => inferInstanceAs (Decidable True)
  | b, c :: cs =>
    have := decidableLegalFrom (b.perform c) cs
    inferInstanceAs (Decidable (c.Known b ∧ LegalFrom (b.perform c) cs))

instance (cs : List Call) : Decidable (Legal cs) := decidableLegalFrom {} cs

theorem made_concat (cs : List Call) (c : Call) : made (cs ++ [c]) = (made cs).perform c := by
  simp [made]

theorem legalFrom_concat {b : Builder} {cs : List Call} {c : Call} :
    LegalFrom b (cs ++ [c]) ↔ LegalFrom b cs ∧ c.Known (cs.foldl perform b) := by
  induction cs generalizing b with
  | nil => simp [LegalFrom]
  | cons d cs ih => simp [LegalFrom, ih, and_assoc]

theorem legal_concat {cs : List Call} {c : Call} :
    Legal (cs ++ [c]) ↔ Legal cs ∧ c.Known (made cs) :=
  legalFrom_concat

/-! ## What a call does -/

/-- The builder `b'` has one more variable than `b`, in the list of its kind. -/
structure Declares (b : Builder) (new : Variable) (b' : Builder) : Prop where
  vars : b'.program.vars = b.program.vars.push new
  lists : ∀ kind, b'.program.ofKind kind = b.program.ofKind kind ++
    if kind = new.kind ∧ kind ≠ .untyped then [b.program.vars.size] else []
  instrs : b'.program.instrs = b.program.instrs
  instructionSeq : b'.instructionSeq = b.instructionSeq
  undefined : new.isDefinedLabel = false
  fresh : new.kind = .constant → ∀ v ∈ b.program.constants, (b.program.var v).value ≠ new.value

inductive Step : Builder → Call → Builder → Prop where
  | declare {b b' : Builder} {c : Call} {new : Variable} (hlabel : c.label? = none)
      (hdeclares : b.Declares new b') : Step b c b'
  | found {b : Builder} {value : Int} {v : VarId} (hfound : b.constant? value = some v) :
      Step b (.constant value) b
  | entry {b : Builder} {label : VarId} (hfree : b.checkFree label = .ok ()) :
      Step b (.entry label) ((b.define label).append fun position =>
        { position, opcode := none, label := some label }).2
  | instruction {b : Builder} {opcode : Opcode} {dst src : List VarId}
      (hoperands : b.checkOperands opcode dst src = .ok ()) :
      Step b (.instruction opcode dst src)
        (b.append fun position => { position, opcode := some opcode, dst, src }).2
  | attach {b : Builder} {inst : InstId} {label : VarId} (hinst : inst < b.instructionCount)
      (hfree : b.checkFree label = .ok ()) :
      Step b (.attach inst label) ((b.define label).relabel inst label)

theorem declares_memory (b : Builder) (name : String) (value : Int) :
    b.Declares ⟨.memory, name, value, none⟩ (b.memory name value).2 where
  vars := rfl
  lists kind := by cases kind <;> simp [memory, push, Program.ofKind]
  instrs := rfl
  instructionSeq := rfl
  undefined := rfl
  fresh h := by cases h

theorem declares_register (b : Builder) (name : String) :
    b.Declares ⟨.register, name, 0, some b.registerSeq.upcoming⟩ (b.register name).2 where
  vars := rfl
  lists kind := by cases kind <;> simp [register, push, Program.ofKind]
  instrs := rfl
  instructionSeq := rfl
  undefined := rfl
  fresh h := by cases h

theorem declares_label (b : Builder) (name : String) :
    b.Declares ⟨.label, name, 0, none⟩ (b.label name).2 where
  vars := rfl
  lists kind := by cases kind <;> simp [label, push, Program.ofKind]
  instrs := rfl
  instructionSeq := rfl
  undefined := rfl
  fresh h := by cases h

theorem declares_untyped (b : Builder) (name : String) :
    b.Declares ⟨.untyped, name, -1, none⟩ (b.untyped name).2 where
  vars := rfl
  lists kind := by cases kind <;> simp [untyped, push, Program.ofKind]
  instrs := rfl
  instructionSeq := rfl
  undefined := rfl
  fresh h := by cases h

theorem declares_constant {b : Builder} {value : Int} (hb : b.Reachable)
    (h : b.constant? value = none) :
    b.Declares ⟨.constant, Text.Decimal.text value, value, none⟩ (b.constant value).2 := by
  rw [constant, h]
  refine ⟨rfl, fun kind => ?_, rfl, rfl, rfl, fun _ => hb.constant?_eq_none h⟩
  cases kind <;> simp [push, Program.ofKind]

/-- No call changes the builder before it is sure not to be refused. -/
theorem Call.atomic_action (c : Call) : Atomic c.action := by
  cases c with
  | entry v => exact (Action.atomic_entry v).discard
  | instruction opcode dst src => exact (Action.atomic_instruction opcode dst src).discard
  | attach i v => exact Action.atomic_attach i v
  | _ => exact (total_modify _).atomic

theorem attempt_entry_eq (b : Builder) (label : VarId) :
    b.attempt (.entry label) = (b.entry label).map Prod.snd :=
  Action.answer_discard _ b

theorem attempt_instruction_eq (b : Builder) (opcode : Opcode) (dst src : List VarId) :
    b.attempt (.instruction opcode dst src) = (b.instruction opcode dst src).map Prod.snd :=
  Action.answer_discard _ b

theorem attempt_entry {b b' : Builder} {label : VarId} :
    b.attempt (.entry label) = .ok b' ↔ ∃ inst, b.entry label = .ok (inst, b') := by
  rw [attempt_entry_eq]
  cases b.entry label <;> simp [Except.map, Prod.ext_iff]

theorem attempt_instruction {b b' : Builder} {opcode : Opcode} {dst src : List VarId} :
    b.attempt (.instruction opcode dst src) = .ok b' ↔
      ∃ inst, b.instruction opcode dst src = .ok (inst, b') := by
  rw [attempt_instruction_eq]
  cases b.instruction opcode dst src <;> simp [Except.map, Prod.ext_iff]

theorem step_of_attempt {b b' : Builder} {c : Call} (hb : b.Reachable) (hknown : c.Known b)
    (h : b.attempt c = .ok b') : Step b c b' := by
  cases c with
  | memory name value =>
      cases h
      exact .declare rfl (b.declares_memory name value)
  | register name =>
      cases h
      exact .declare rfl (b.declares_register name)
  | label name =>
      cases h
      exact .declare rfl (b.declares_label name)
  | untyped name =>
      cases h
      exact .declare rfl (b.declares_untyped name)
  | constant value =>
      obtain rfl : (b.constant value).2 = b' := Except.ok.inj h
      cases hfound : b.constant? value with
      | none => exact .declare rfl (declares_constant hb hfound)
      | some v =>
          rw [constant, hfound]
          exact .found hfound
  | entry label =>
      obtain ⟨inst, hentry⟩ := attempt_entry.mp h
      obtain ⟨hfree, _, rfl⟩ := entry_eq_ok hentry
      exact .entry hfree
  | instruction opcode dst src =>
      obtain ⟨inst, hinstruction⟩ := attempt_instruction.mp h
      obtain ⟨hoperands, _, rfl⟩ := instruction_eq_ok hinstruction
      exact .instruction hoperands
  | attach inst label =>
      obtain ⟨hfree, rfl⟩ := attach_eq_ok h
      exact .attach hknown.1 hfree

theorem Reachable.attempt {b b' : Builder} {c : Call} (hb : b.Reachable) (hknown : c.Known b)
    (h : b.attempt c = .ok b') : b'.Reachable := by
  cases c with
  | memory name value =>
      cases h
      exact hb.memory name value
  | register name =>
      cases h
      exact hb.register name
  | label name =>
      cases h
      exact hb.label name
  | untyped name =>
      cases h
      exact hb.untyped name
  | constant value =>
      cases h
      exact hb.constant value
  | entry label =>
      obtain ⟨inst, hentry⟩ := attempt_entry.mp h
      exact hb.entry hentry
  | instruction opcode dst src =>
      obtain ⟨inst, hinstruction⟩ := attempt_instruction.mp h
      exact hb.instruction hinstruction
  | attach inst label => exact hb.attach hknown.1 h

/-- A call that is refused leaves the builder as it was. -/
theorem perform_of_error {b : Builder} {c : Call} {e : BuildError} (h : b.attempt c = .error e) :
    b.perform c = b := by
  unfold attempt Action.answer at h
  split at h
  · cases h
  · rename_i heq
    rw [perform, stateAfter, heq]
    exact c.atomic_action _ _ _ heq

theorem perform_of_ok {b b' : Builder} {c : Call} (h : b.attempt c = .ok b') :
    b.perform c = b' := by
  unfold attempt Action.answer at h
  split at h
  · rename_i heq
    rw [perform, stateAfter, heq]
    exact Except.ok.inj h
  · cases h

/-- What holds of the empty builder and of each builder that a call returns holds after all calls. -/
theorem made_induction {P : Builder → Prop} (hnew : P {})
    (hcall : ∀ {b c b'}, P b → c.Known b → b.attempt c = .ok b' → P b') {cs : List Call}
    (h : Legal cs) : P (made cs) := by
  induction cs using List.reverseRecOn with
  | nil => exact hnew
  | append_singleton cs c ih =>
      obtain ⟨hlegal, hknown⟩ := legal_concat.mp h
      rw [made_concat]
      cases hc : (made cs).attempt c with
      | error e =>
          rw [perform_of_error hc]
          exact ih hlegal
      | ok b' =>
          rw [perform_of_ok hc]
          exact hcall (ih hlegal) hknown hc

theorem reachable_made {cs : List Call} (h : Legal cs) : (made cs).Reachable :=
  made_induction .new (fun hb => hb.attempt) h

theorem exists_made_of_attempt {cs : List Call} {c : Call} {b : Builder} (h : Legal cs)
    (hknown : c.Known (made cs)) (hc : (made cs).attempt c = .ok b) :
    ∃ cs', Legal cs' ∧ made cs' = b :=
  ⟨cs ++ [c], legal_concat.mpr ⟨h, hknown⟩, by rw [made_concat, perform_of_ok hc]⟩

theorem lt_size_of_checkFree {b : Builder} {label : VarId} (h : b.checkFree label = .ok ()) :
    label < b.program.vars.size :=
  Program.lt_size_of_kind (by simp [(checkFree_eq_ok_iff.mp h).1])

theorem lt_size_of_checkOperands {b : Builder} {opcode : Opcode} {dst src : List VarId}
    (h : b.checkOperands opcode dst src = .ok ()) : ∀ v ∈ dst ++ src, v < b.program.vars.size := by
  obtain ⟨hdst, hsrc⟩ := checkOperands_eq_ok_iff.mp h
  intro v hv
  apply Program.lt_size_of_kind
  apply kind_ne_untyped_of_shape opcode
  rcases List.mem_append.mp hv with hv | hv
  · exact Or.inl (hdst ▸ List.mem_map_of_mem hv)
  · exact Or.inr (hsrc ▸ List.mem_map_of_mem hv)

/-- The calls that are not refused name what exists, so every reachable builder is made by legal
calls. -/
theorem Reachable.exists_made {b : Builder} (h : b.Reachable) : ∃ cs, Legal cs ∧ made cs = b := by
  induction h with
  | new => exact ⟨[], trivial, rfl⟩
  | memory _ name value ih =>
      obtain ⟨cs, hlegal, rfl⟩ := ih
      exact @exists_made_of_attempt _ (.memory name value) _ hlegal trivial rfl
  | register _ name ih =>
      obtain ⟨cs, hlegal, rfl⟩ := ih
      exact @exists_made_of_attempt _ (.register name) _ hlegal trivial rfl
  | label _ name ih =>
      obtain ⟨cs, hlegal, rfl⟩ := ih
      exact @exists_made_of_attempt _ (.label name) _ hlegal trivial rfl
  | untyped _ name ih =>
      obtain ⟨cs, hlegal, rfl⟩ := ih
      exact @exists_made_of_attempt _ (.untyped name) _ hlegal trivial rfl
  | constant _ value ih =>
      obtain ⟨cs, hlegal, rfl⟩ := ih
      exact @exists_made_of_attempt _ (.constant value) _ hlegal trivial rfl
  | @entry _ _ label _ _ hentry ih =>
      obtain ⟨cs, hlegal, rfl⟩ := ih
      exact @exists_made_of_attempt _ (.entry label) _ hlegal
        (lt_size_of_checkFree (entry_eq_ok hentry).1) (attempt_entry.mpr ⟨_, hentry⟩)
  | @instruction _ _ opcode dst src _ _ hinstruction ih =>
      obtain ⟨cs, hlegal, rfl⟩ := ih
      exact @exists_made_of_attempt _ (.instruction opcode dst src) _ hlegal
        (lt_size_of_checkOperands (instruction_eq_ok hinstruction).1)
        (attempt_instruction.mpr ⟨_, hinstruction⟩)
  | @attach _ _ inst label _ hinst hattach ih =>
      obtain ⟨cs, hlegal, rfl⟩ := ih
      exact @exists_made_of_attempt _ (.attach inst label) _ hlegal
        ⟨hinst, lt_size_of_checkFree (attach_eq_ok hattach).1⟩ hattach

/-- What holds of the empty builder and is kept by each step holds after all calls. -/
theorem made_of_step {P : Builder → Prop} (hnew : P {})
    (hstep : ∀ {b c b'}, b.Reachable → P b → Step b c b' → P b') {cs : List Call}
    (h : Legal cs) : P (made cs) := by
  have hboth : (made cs).Reachable ∧ P (made cs) := by
    refine made_induction (P := fun b => b.Reachable ∧ P b) ⟨.new, hnew⟩ ?_ h
    intro b c b' hb hknown hok
    exact ⟨hb.1.attempt hknown hok, hstep hb.1 hb.2 (step_of_attempt hb.1 hknown hok)⟩
  exact hboth.2

/-! ## What a step changes -/

@[simp] theorem size_define (b : Builder) (label : VarId) :
    (b.define label).program.size = b.program.size := rfl

@[simp] theorem instr_define (b : Builder) (label : VarId) (i : InstId) :
    (b.define label).program.instr i = b.program.instr i := rfl

theorem instr_append (b : Builder) (make : Nat → Instruction) (i : InstId) :
    (b.append make).2.program.instr i =
      if i = b.program.size then make b.instructionSeq.upcoming else b.program.instr i := by
  simp only [append, Program.instr, Program.size, Sequence.next, Array.getD_eq_getD_getElem?,
    Array.getElem?_push]
  split <;> rfl

theorem instr_relabel (b : Builder) (inst : InstId) (label : VarId) (i : InstId) :
    (b.relabel inst label).program.instr i =
      if inst = i ∧ i < b.program.size then { b.program.instr i with label := some label }
      else b.program.instr i := by
  simp only [relabel, Program.instr, Program.size, Array.getD_eq_getD_getElem?,
    Array.getElem?_modify]
  by_cases h : inst = i
  · by_cases hi : i < b.program.instrs.size
    · simp [h, hi]
    · simp [h, hi]
  · simp [h]

theorem instr_of_size_le {b : Builder} {i : InstId} (h : b.program.size ≤ i) :
    b.program.instr i = default := by
  have hi : b.program.instrs.size ≤ i := h
  simp [Program.instr, Array.getElem?_eq_none hi]

/-- The instruction to which the call gives its label. -/
def target? (b : Builder) : Call → Option InstId
  | .entry _ => some b.program.size
  | .attach inst _ => some inst
  | _ => none

theorem target?_eq_none_iff {b : Builder} {c : Call} : b.target? c = none ↔ c.label? = none := by
  cases c <;> simp [target?, Call.label?]

theorem Step.label_instr {b b' : Builder} {c : Call} (h : Step b c b') (i : InstId) :
    (b'.program.instr i).label =
      if b.target? c = some i then c.label? else (b.program.instr i).label := by
  cases h with
  | declare hlabel hdeclares =>
      rw [target?_eq_none_iff.mpr hlabel, Program.instr, hdeclares.instrs]
      rfl
  | found hfound => rfl
  | entry hfree =>
      rw [instr_append, size_define, instr_define]
      by_cases hi : i = b.program.size
      · simp [target?, Call.label?, hi]
      · simp [target?, hi, Ne.symm hi]
  | instruction hoperands =>
      rw [instr_append]
      by_cases hi : i = b.program.size
      · simp [target?, hi, instr_of_size_le, default]
      · simp [target?, hi]
  | @attach inst label hinst hfree =>
      rw [instr_relabel, size_define, instr_define]
      by_cases hi : inst = i
      · have hlt : i < b.program.size := hi ▸ hinst
        simp [target?, Call.label?, hi, hlt]
      · simp [target?, hi]

/-- A label that a call gives to an instruction was not taken before. -/
theorem Step.checkFree {b b' : Builder} {c : Call} (h : Step b c b') {v : VarId}
    (hv : c.label? = some v) : b.checkFree v = .ok () := by
  cases h with
  | declare hlabel _ =>
      rw [hlabel] at hv
      cases hv
  | found _ => cases hv
  | entry hfree =>
      cases hv
      exact hfree
  | instruction _ => cases hv
  | attach _ hfree =>
      cases hv
      exact hfree

theorem isDefinedLabel_define_of_free {b : Builder} {label : VarId}
    (h : b.checkFree label = .ok ()) (v : VarId) :
    ((b.define label).program.var v).isDefinedLabel =
      ((b.program.var v).isDefinedLabel || decide (some label = some v)) := by
  by_cases heq : label = v
  · subst heq
    exact isDefinedLabel_define (checkFree_eq_ok_iff.mp h).1
  · simp [var_define, heq]

theorem Step.isDefinedLabel_var {b b' : Builder} {c : Call} (h : Step b c b') (v : VarId) :
    (b'.program.var v).isDefinedLabel =
      ((b.program.var v).isDefinedLabel || decide (c.label? = some v)) := by
  cases h with
  | declare hlabel hdeclares =>
      rw [hlabel, var_eq_of_push hdeclares.vars]
      by_cases hv : v = b.program.vars.size
      · have hold : (b.program.var v).isDefinedLabel = false := by
          rw [Program.var_of_size_le (Nat.le_of_eq hv.symm)]
          rfl
        simp [hv ▸ hold, hv, hdeclares.undefined]
      · simp [hv]
  | found _ => simp [Call.label?]
  | entry hfree => exact isDefinedLabel_define_of_free hfree v
  | instruction _ => exact (Bool.or_false _).symm
  | attach _ hfree => exact isDefinedLabel_define_of_free hfree v

theorem Step.extends {b b' : Builder} {c : Call} (h : Step b c b') : b.Extends b' := by
  cases h with
  | declare _ hdeclares =>
      exact extends_of_push hdeclares.vars fun kind => by simp [hdeclares.lists]
  | found _ => exact .refl b
  | entry hfree =>
      exact (extends_define (checkFree_eq_ok_iff.mp hfree).1).trans (extends_append _ _)
  | instruction _ => exact extends_append _ _
  | attach _ hfree =>
      exact (extends_define (checkFree_eq_ok_iff.mp hfree).1).trans (extends_relabel _ _ _)

end Builder

end RegAlloc
