import Mathlib.Data.List.Nodup
import RegAlloc.Proofs.Program.Kinds
import RegAlloc.Proofs.Program.Statement

/-!
# Builders that hold statements

`Builder.Reads b ss names` ties a builder to the statements that were read into it. `names` are the
labels that the statement now being read has named so far. Each call that the reader makes keeps
this relation.
-/

namespace RegAlloc

/-! ## What calls keep -/

namespace Builder.Extends

variable {b b' : Builder}

theorem argumentOf_eq (h : b.Extends b') {v : VarId} (hv : v < b.program.vars.size) :
    b'.program.argumentOf v = b.program.argumentOf v := by
  unfold Program.argumentOf
  rw [h.kind_eq hv, h.name_eq hv]
  cases hkind : (b.program.var v).kind with
  | constant => simp only [h.value_eq hv (by simp [hkind])]
  | _ => rfl

theorem statementOf_eq (h : b.Extends b') {i : Instruction} (hi : Fits b.program i) :
    b'.program.statementOf i = b.program.statementOf i := by
  have hlabel : i.label.map (fun v => (b'.program.var v).name) =
      i.label.map fun v => (b.program.var v).name := by
    cases heq : i.label with
    | none => rfl
    | some v =>
        have hlt : v < b.program.vars.size := Program.lt_size_of_kind (by simp [hi.label v heq])
        simp only [Option.map_some, h.name_eq hlt]
  unfold Program.statementOf
  rw [hlabel]
  cases hop : i.opcode with
  | none => rfl
  | some op =>
      simp only [List.map_congr_left fun v hv => h.argumentOf_eq (hi.lt_size hop hv)]

end Builder.Extends

/-! ## The relation -/

def Argument.label? : Argument → Option String
  | label name => some name
  | _ => none

/-- The labels that a statement names. -/
def Statement.labels (s : Statement) : List String :=
  s.definedLabel?.toList ++ s.arguments.filterMap Argument.label?

namespace Variable

/-- The statement that declares a variable; labels and constants have none. -/
def declaration (x : Variable) : List Statement :=
  match x.kind with
  | .memory => [.memory x.name x.value]
  | .register => [.register x.name]
  | .label | .constant | .untyped => []

theorem filter_isCode_declaration (x : Variable) : x.declaration.filter Statement.isCode = [] := by
  unfold declaration
  split <;> rfl

theorem filterMap_definedLabel?_declaration (x : Variable) :
    x.declaration.filterMap Statement.definedLabel? = [] := by
  unfold declaration
  split <;> rfl

theorem flatMap_labels_declaration (x : Variable) :
    x.declaration.flatMap Statement.labels = [] := by
  unfold declaration
  split <;> rfl

end Variable

namespace Builder

structure Reads (b : Builder) (ss : List Statement) (names : List String) : Prop where
  reachable : b.Reachable
  code : b.program.instrs.toList.map b.program.statementOf = ss.filter Statement.isCode
  memory : b.program.memory.map
      (fun v => Statement.memory (b.program.var v).name (b.program.var v).value) =
    ss.filter fun s => s.declaredMemory?.isSome
  registers : b.program.registers.map (fun v => Statement.register (b.program.var v).name) =
    ss.filter fun s => s.declaredRegister?.isSome
  labels_nodup : (b.program.labels.map fun v => (b.program.var v).name).Nodup
  constants_nodup : (b.program.constants.map fun v => (b.program.var v).value).Nodup
  defined_iff : ∀ v ∈ b.program.labels, (b.program.var v).isDefinedLabel = true ↔
    (b.program.var v).name ∈ ss.filterMap Statement.definedLabel?
  named : ∀ v ∈ b.program.labels, (b.program.var v).name ∈ ss.flatMap Statement.labels ++ names

variable {b b' : Builder} {ss : List Statement} {names : List String}

theorem reads_new : Reads {} [] [] where
  reachable := .new
  code := rfl
  memory := rfl
  registers := rfl
  labels_nodup := List.nodup_nil
  constants_nodup := List.nodup_nil
  defined_iff := by simp
  named := by simp

theorem Reads.mem_labels (h : b.Reads ss names) {v : VarId} :
    v ∈ b.program.labels ↔ (b.program.var v).kind = .label :=
  @Kinded.mem_ofKind b h.reachable.kinded .label v (by decide)

theorem Reads.label_inj (h : b.Reads ss names) {v w : VarId} (hv : v ∈ b.program.labels)
    (hw : w ∈ b.program.labels) (heq : (b.program.var v).name = (b.program.var w).name) : v = w :=
  List.inj_on_of_nodup_map h.labels_nodup hv hw heq

theorem Reads.mem_code (h : b.Reads ss names) {s : Statement} :
    s ∈ ss ∧ s.isCode = true ↔ ∃ i ∈ b.program.instrs, b.program.statementOf i = s := by
  rw [← List.mem_filter, ← h.code]
  simp

theorem definedLabel?_statementOf {p : Program} {i : Instruction} (h : Fits p i) :
    (p.statementOf i).definedLabel? = i.label.map fun v => (p.var v).name := by
  unfold Program.statementOf
  cases hop : i.opcode with
  | none =>
      obtain ⟨v, hv⟩ := Option.isSome_iff_exists.mp (h.marker hop).1
      simp [Statement.definedLabel?, hv]
  | some op => rfl

theorem isCode_of_definedLabel? {s : Statement} {name : String}
    (h : s.definedLabel? = some name) : s.isCode = true := by
  cases s <;> simp_all [Statement.definedLabel?, Statement.isCode, Statement.isFunction,
    Statement.isInstruction]

/-- What a statement defines is a label of the program. -/
theorem Reads.exists_label (h : b.Reads ss names) {name : String}
    (hname : name ∈ ss.filterMap Statement.definedLabel?) :
    ∃ v ∈ b.program.labels, (b.program.var v).name = name := by
  obtain ⟨s, hs, hdefined⟩ := List.mem_filterMap.mp hname
  obtain ⟨i, hi, rfl⟩ := h.mem_code.mp ⟨hs, isCode_of_definedLabel? hdefined⟩
  have hfits := h.reachable.kinded.fits i hi
  rw [definedLabel?_statementOf hfits] at hdefined
  obtain ⟨v, hv, rfl⟩ := Option.map_eq_some_iff.mp hdefined
  exact ⟨v, h.mem_labels.mpr (hfits.label v hv), rfl⟩

theorem Reads.mono (h : b.Reads ss names) {names' : List String} (hsubset : names ⊆ names') :
    b.Reads ss names' := by
  refine { h with named := fun v hv => ?_ }
  rw [List.mem_append]
  exact (List.mem_append.mp (h.named v hv)).imp_right fun hname => hsubset hname

/-! ## New variables -/

section Push

variable {new : Variable} (hvars : b'.program.vars = b.program.vars.push new)
  (hlists : ∀ kind, b'.program.ofKind kind = b.program.ofKind kind ++
    if kind = new.kind ∧ kind ≠ .untyped then [b.program.vars.size] else [])

include hvars

theorem var_eq_of_mem_ofKind (hb : b.Kinded) {kind : VarKind} {v : VarId}
    (hv : v ∈ b.program.ofKind kind) : b'.program.var v = b.program.var v := by
  rw [var_eq_of_push hvars, if_neg (Nat.ne_of_lt (hb.lt_size hv))]

include hlists

/-- Each list is the old one, with the new variable at the end if it is of that kind. -/
theorem map_ofKind_push (hb : b.Kinded) {β : Type} (f : Variable → β) (kind : VarKind) :
    (b'.program.ofKind kind).map (fun v => f (b'.program.var v)) =
      (b.program.ofKind kind).map (fun v => f (b.program.var v)) ++
        if kind = new.kind ∧ kind ≠ .untyped then [f new] else [] := by
  rw [hlists, List.map_append,
    List.map_congr_left fun v hv => by rw [var_eq_of_mem_ofKind hvars hb hv]]
  split <;> simp [var_eq_of_push hvars]

/-- A new variable in the list of its kind declares itself. A label needs a new name and a constant
a new value. -/
theorem Reads.push (h : b.Reads ss names) (hreachable : b'.Reachable)
    (hinstrs : b'.program.instrs = b.program.instrs)
    (hlabel : new.kind = .label → new.isDefinedLabel = false ∧ new.name ∈ names ∧
      ∀ v ∈ b.program.labels, (b.program.var v).name ≠ new.name)
    (hconstant : new.kind = .constant →
      ∀ v ∈ b.program.constants, (b.program.var v).value ≠ new.value) :
    b'.Reads (ss ++ new.declaration) names := by
  have hext : b.Extends b' := extends_of_push hvars fun kind => by simp [hlists]
  have hmap := @map_ofKind_push b b' new hvars hlists h.reachable.kinded
  have hmem : ∀ v ∈ b'.program.labels,
      v ∈ b.program.labels ∧ b'.program.var v = b.program.var v ∨
        b'.program.var v = new ∧ new.kind = .label := by
    intro v hv
    have hv' : v ∈ b'.program.ofKind .label := hv
    rw [hlists, List.mem_append] at hv'
    rcases hv' with hold | hlast
    · exact Or.inl ⟨hold, var_eq_of_mem_ofKind hvars h.reachable.kinded hold⟩
    · split at hlast
      · rename_i hkind
        rw [List.mem_singleton.mp hlast, var_eq_of_push hvars, if_pos rfl]
        exact Or.inr ⟨rfl, hkind.1.symm⟩
      · cases hlast
  refine ⟨hreachable, ?code, ?memory, ?registers, ?labels_nodup, ?constants_nodup, ?defined_iff,
    ?named⟩
  case code =>
    rw [List.filter_append, new.filter_isCode_declaration, List.append_nil, hinstrs, ← h.code]
    refine List.map_congr_left fun i hi => hext.statementOf_eq ?_
    exact h.reachable.kinded.fits i (Array.mem_toList_iff.mp hi)
  case memory =>
    rw [List.filter_append, ← h.memory]
    refine (hmap (fun x => Statement.memory x.name x.value) .memory).trans ?_
    congr 1
    unfold Variable.declaration
    cases new.kind <;> simp [Statement.declaredMemory?]
  case registers =>
    rw [List.filter_append, ← h.registers]
    refine (hmap (fun x => Statement.register x.name) .register).trans ?_
    congr 1
    unfold Variable.declaration
    cases new.kind <;> simp [Statement.declaredRegister?]
  case labels_nodup =>
    have hnames := hmap Variable.name .label
    simp only [Program.ofKind] at hnames
    rw [hnames]
    split
    · rename_i hkind
      refine List.Nodup.append h.labels_nodup (List.nodup_singleton _) ?_
      simpa using (hlabel hkind.1.symm).2.2
    · simpa using h.labels_nodup
  case constants_nodup =>
    have hvalues := hmap Variable.value .constant
    simp only [Program.ofKind] at hvalues
    rw [hvalues]
    split
    · rename_i hkind
      refine List.Nodup.append h.constants_nodup (List.nodup_singleton _) ?_
      simpa using hconstant hkind.1.symm
    · simpa using h.constants_nodup
  case defined_iff =>
    intro v hv
    rw [List.filterMap_append, new.filterMap_definedLabel?_declaration, List.append_nil]
    rcases hmem v hv with ⟨hold, heq⟩ | ⟨heq, hkind⟩
    · rw [heq]
      exact h.defined_iff v hold
    · -- nothing defines a label that is not there
      obtain ⟨hundefined, _, hfresh⟩ := hlabel hkind
      rw [heq, hundefined]
      refine ⟨fun hfalse => (Bool.false_ne_true hfalse).elim, fun hname => ?_⟩
      obtain ⟨w, hw, hsame⟩ := h.exists_label hname
      exact absurd hsame (hfresh w hw)
  case named =>
    intro v hv
    rw [List.flatMap_append, new.flatMap_labels_declaration, List.append_nil]
    rcases hmem v hv with ⟨hold, heq⟩ | ⟨heq, hkind⟩
    · rw [heq]
      exact h.named v hold
    · rw [heq]
      exact List.mem_append_right _ (hlabel hkind).2.1

end Push

theorem Reads.memory_call (h : b.Reads ss names) (name : String) (value : Int) :
    (b.memory name value).2.Reads (ss ++ [.memory name value]) names := by
  have hpush := h.push rfl
    (fun kind => by cases kind <;> simp [Builder.memory, Builder.push, Program.ofKind])
    (h.reachable.memory name value) rfl (by simp) (by simp)
  exact hpush

theorem Reads.register_call (h : b.Reads ss names) (name : String) :
    (b.register name).2.Reads (ss ++ [.register name]) names := by
  have hpush := h.push rfl
    (fun kind => by cases kind <;> simp [Builder.register, Builder.push, Program.ofKind])
    (h.reachable.register name) rfl (by simp) (by simp)
  exact hpush

theorem Reads.label_call (h : b.Reads ss names) {name : String}
    (hfresh : ∀ v ∈ b.program.labels, (b.program.var v).name ≠ name) :
    (b.label name).2.Reads ss (name :: names) := by
  have hpush := (h.mono (List.subset_cons_self name names)).push rfl
    (fun kind => by cases kind <;> simp [Builder.label, Builder.push, Program.ofKind])
    (h.reachable.label name) rfl (fun _ => ⟨rfl, List.mem_cons_self, hfresh⟩) (by simp)
  simpa [Variable.declaration] using hpush

theorem Reads.constant_call (h : b.Reads ss names) (value : Int) :
    (b.constant value).2.Reads ss names := by
  have hreachable := h.reachable.constant value
  unfold Builder.constant at hreachable ⊢
  cases hconstant : b.constant? value with
  | some id => exact h
  | none =>
      rw [hconstant] at hreachable
      have hpush := h.push rfl
        (fun kind => by cases kind <;> simp [Builder.push, Program.ofKind]) hreachable rfl (by simp)
        fun _ => h.reachable.constant?_eq_none hconstant
      simpa [Variable.declaration] using hpush

/-! ## New instructions -/

theorem Extends.map_name (hext : b.Extends b') (hb : b.Kinded) {β : Type} (f : String → β)
    (kind : VarKind) :
    (b.program.ofKind kind).map (fun v => f (b'.program.var v).name) =
      (b.program.ofKind kind).map fun v => f (b.program.var v).name :=
  List.map_congr_left fun v hv => by rw [hext.name_eq (hb.lt_size hv)]

theorem Extends.value_eq_of_mem (hext : b.Extends b') (hb : b.Kinded) {kind : VarKind}
    (hkind : kind ≠ .label) {v : VarId} (hv : v ∈ b.program.ofKind kind) :
    (b'.program.var v).value = (b.program.var v).value :=
  hext.value_eq (hb.lt_size hv) (by rwa [hb.kind_of_mem hv])

theorem isCode_statementOf (p : Program) (i : Instruction) : (p.statementOf i).isCode = true := by
  unfold Program.statementOf
  split <;> rfl

/-- A new instruction at the end of the program, of which the label is defined from now on. -/
theorem Reads.code_call (h : b.Reads ss names) (hreachable : b'.Reachable) (hext : b.Extends b')
    {i : Instruction} (hfits : Fits b.program i)
    (hinstrs : b'.program.instrs = b.program.instrs.push i)
    (hlists : ∀ kind, b'.program.ofKind kind = b.program.ofKind kind)
    (hdefined : ∀ v ∈ b.program.labels, (b'.program.var v).isDefinedLabel =
      ((b.program.var v).isDefinedLabel || decide (i.label = some v)))
    (hnames : names ⊆ (b.program.statementOf i).labels) :
    b'.Reads (ss ++ [b.program.statementOf i]) [] := by
  have hb := h.reachable.kinded
  have hlabels : b'.program.labels = b.program.labels := hlists .label
  refine ⟨hreachable, ?code, ?memory, ?registers, ?labels_nodup, ?constants_nodup, ?defined_iff,
    ?named⟩
  case code =>
    have hold : b.program.instrs.toList.map b'.program.statementOf =
        b.program.instrs.toList.map b.program.statementOf :=
      List.map_congr_left fun j hj =>
        hext.statementOf_eq (hb.fits j (Array.mem_toList_iff.mp hj))
    simp [hinstrs, hold, h.code, hext.statementOf_eq hfits, isCode_statementOf]
  case memory =>
    have hcode : (b.program.statementOf i).declaredMemory? = none := by
      unfold Program.statementOf
      split <;> rfl
    rw [List.filter_append, ← h.memory, show b'.program.memory = b.program.memory from hlists .memory]
    have hmap := List.map_congr_left fun v (hv : v ∈ b.program.ofKind .memory) =>
      congr_arg₂ Statement.memory (hext.name_eq (hb.lt_size hv))
        (hext.value_eq_of_mem hb (by decide) hv)
    simpa [hcode, Program.ofKind] using hmap
  case registers =>
    have hcode : (b.program.statementOf i).declaredRegister? = none := by
      unfold Program.statementOf
      split <;> rfl
    rw [List.filter_append, ← h.registers,
      show b'.program.registers = b.program.registers from hlists .register]
    simpa [hcode, Program.ofKind] using hext.map_name hb Statement.register .register
  case labels_nodup =>
    rw [hlabels]
    have hmap := hext.map_name hb id .label
    simp only [id, Program.ofKind] at hmap
    rw [hmap]
    exact h.labels_nodup
  case constants_nodup =>
    rw [show b'.program.constants = b.program.constants from hlists .constant]
    have hmap := List.map_congr_left fun v (hv : v ∈ b.program.ofKind .constant) =>
      hext.value_eq_of_mem hb (by decide) hv
    simp only [Program.ofKind] at hmap
    rw [hmap]
    exact h.constants_nodup
  case defined_iff =>
    intro v hv
    rw [hlabels] at hv
    have hname : (b'.program.var v).name = (b.program.var v).name :=
      hext.name_eq (@Kinded.lt_size b hb .label v hv)
    have hsame : i.label = some v ↔
        i.label.map (fun w => (b.program.var w).name) = some (b.program.var v).name := by
      cases heq : i.label with
      | none => simp
      | some w =>
          have hw := h.mem_labels.mpr (hfits.label w heq)
          simp only [Option.some.injEq, Option.map_some]
          exact ⟨fun hwv => by rw [hwv], fun hwv => h.label_inj hw hv hwv⟩
    rw [hdefined v hv, Bool.or_eq_true, h.defined_iff v hv, decide_eq_true_eq, hsame,
      ← definedLabel?_statementOf hfits, hname, List.filterMap_append, List.mem_append]
    simp
  case named =>
    intro v hv
    rw [hlabels] at hv
    have hname := h.named v hv
    rw [hext.name_eq (@Kinded.lt_size b hb .label v hv), List.flatMap_append, List.append_nil]
    rw [List.mem_append] at hname ⊢
    refine hname.imp_right fun hmem => ?_
    simpa using hnames hmem

theorem Reads.entry_call (h : b.Reads ss names) {label : VarId} {inst : InstId}
    (hentry : b.entry label = .ok (inst, b')) (hnames : names ⊆ [(b.program.var label).name]) :
    b'.Reads (ss ++ [.function (b.program.var label).name]) [] := by
  have hreachable := h.reachable.entry hentry
  have hext := extends_entry hentry
  obtain ⟨hfree, _, rfl⟩ := entry_eq_ok hentry
  have hlabel := (checkFree_eq_ok_iff.mp hfree).1
  refine h.code_call hreachable hext ⟨?_, ?_, fun _ => ⟨rfl, rfl⟩⟩ rfl
    (fun kind => by cases kind <;> rfl)
    (fun v hv => isDefinedLabel_define (h.mem_labels.mp hv)) ?_
  · rintro op ⟨⟩
  · rintro v ⟨⟩
    exact hlabel
  · simpa [Program.statementOf, Statement.labels, Statement.definedLabel?, Statement.arguments]
      using hnames

end Builder

end RegAlloc
