import RegAlloc.Proofs.Program.Operands
import RegAlloc.Proofs.Token.Sequence

/-!
# Which texts are programs

A statement is read exactly when its tokens are spelled as the grammar says and the statements
before it admit it; the builder never refuses an instruction whose operands were read. From this
follows which lists of tokens are programs, and which program each of them is.
-/

namespace RegAlloc

theorem Spells.unique {ts : List Token} {s s' : Statement} (h : Spells ts s) (h' : Spells ts s') :
    s = s' := by
  cases h <;> cases h' <;> simp_all

theorem Spells.exists_cons {ts : List Token} {s : Statement} (h : Spells ts s) :
    ∃ t us, ts = t :: us ∧ t.kind ≠ .eof := by
  cases h with
  | memory hd | register hd | function hd => exact ⟨_, _, rfl, by simp [hd]⟩
  | plain hm => exact ⟨_, _, rfl, by simp [hm]⟩
  | labeled hl => exact ⟨_, _, rfl, by simp [hl]⟩

/-- A statement ends before its semicolon. -/
theorem Spells.kind_ne {ts : List Token} {s : Statement} (h : Spells ts s) :
    ∀ t ∈ ts, t.kind ≠ .semicolon ∧ t.kind ≠ .eof := by
  have hpattern : ∀ {opcode : Opcode} {us : List Token}, opcode.Pattern (us.map Token.kind) →
      ∀ t ∈ us, t.kind ≠ .semicolon ∧ t.kind ≠ .eof := by
    intro opcode us hpattern t ht
    have hmem := List.mem_map_of_mem (f := Token.kind) ht
    rw [Opcode.pattern_iff.mp hpattern] at hmem
    obtain ⟨piece, _, heq⟩ := List.mem_map.mp hmem
    rw [← heq]
    cases piece <;> decide
  cases h with
  | memory hd hname ht => simp [hd, hname, ht]
  | register hd hname => simp [hd, hname]
  | function hd hname => simp [hd, hname]
  | plain hm hused => simpa [hm] using hpattern hused
  | labeled hl hcolon hm hused => simpa [hl, hcolon, hm] using hpattern hused

/-- Markers stand for functions. -/
theorem Program.Renders.countP_isEntry {p : Program} {ss : List Statement} (h : p.Renders ss) :
    p.instrs.countP Instruction.isEntry = ss.countP Statement.isFunction := by
  have hentry : ∀ i ∈ p.instrs.toList,
      i.isEntry = true ↔ (p.statementOf i).isFunction = true := by
    intro i hi
    have hmarker := h.entry i (Array.mem_toList_iff.mp hi)
    unfold Instruction.isEntry Program.statementOf
    cases hop : i.opcode with
    | none => simp [(hmarker hop).1, Statement.isFunction]
    | some op => simp [Statement.isFunction]
  calc p.instrs.countP Instruction.isEntry
      = p.instrs.toList.countP (Statement.isFunction ∘ p.statementOf) := by
        rw [← Array.countP_toList]
        exact List.countP_congr hentry
    _ = (ss.filter Statement.isCode).countP Statement.isFunction := by
        rw [← List.countP_map, h.code]
    _ = ss.countP Statement.isFunction := by
        rw [List.countP_filter]
        refine List.countP_congr fun s _ => ?_
        simp +contextual [Statement.isCode]

namespace Parser

variable {b b' : Builder} {ss : List Statement} {names : List String} {ts rest : List Token}

/-! ## Instructions -/

theorem modify_push {α : Type} (xs : Array α) (x : α) (f : α → α) :
    (xs.push x).modify xs.size f = xs.push (f x) := by
  apply Array.ext_getElem?
  intro k
  rw [Array.getElem?_modify, Array.getElem?_push, Array.getElem?_push]
  by_cases hk : k = xs.size
  · simp [hk]
  · simp [hk, Ne.symm hk]

/-- The instruction that `append` makes. -/
def appended (b : Builder) (opcode : Opcode) (ids : List VarId) (label : Option VarId) :
    Instruction :=
  { position := b.instructionSeq.next.1, opcode := some opcode, label
    dst := ids.take opcode.shape.dst.length, src := ids.drop opcode.shape.dst.length }

theorem append_eq_ok {opcode : Opcode} {ids : List VarId} {label : Option VarId}
    (h : append opcode ids label b = .ok b') :
    b.checkOperands opcode (ids.take opcode.shape.dst.length)
        (ids.drop opcode.shape.dst.length) = .ok () ∧
      (∀ v, label = some v → (b.program.var v).kind = .label) ∧ b.Extends b' ∧
      b'.program.instrs = b.program.instrs.push (appended b opcode ids label) ∧
      (∀ kind, b'.program.ofKind kind = b.program.ofKind kind) ∧
      ∀ v, (b.program.var v).kind = .label → (b'.program.var v).isDefinedLabel =
        ((b.program.var v).isDefinedLabel || decide (label = some v)) := by
  obtain ⟨⟨inst, b₁⟩, hinstruction, h⟩ := bind_eq_ok.mp h
  have hext := Builder.extends_instruction hinstruction
  obtain ⟨hoperands, rfl, rfl⟩ := Builder.instruction_eq_ok hinstruction
  cases label with
  | none =>
      cases h
      exact ⟨hoperands, by simp, hext, rfl, fun kind => by cases kind <;> rfl,
        fun v _ => (Bool.or_false _).symm⟩
  | some label =>
      have hattach := Builder.extends_attach h
      obtain ⟨hfree, rfl⟩ := Builder.attach_eq_ok h
      refine ⟨hoperands, ?_, hext.trans hattach, ?_, fun kind => by cases kind <;> rfl, ?_⟩
      · rintro v ⟨⟩
        exact (Builder.checkFree_eq_ok_iff.mp hfree).1
      · exact modify_push b.program.instrs (appended b opcode ids none)
          fun i => { i with label := some label }
      · intro v hv
        exact Builder.isDefinedLabel_define hv

theorem reads_append (h : b.Reads ss names) {opcode : Opcode} {ids : List VarId}
    {label : Option VarId} (hread : append opcode ids label b = .ok b')
    (hnames : names ⊆ (Statement.instruction (label.map fun v => (b.program.var v).name) opcode
      (ids.map b.program.argumentOf)).labels) :
    b'.Reads (ss ++ [.instruction (label.map fun v => (b.program.var v).name) opcode
      (ids.map b.program.argumentOf)]) [] := by
  obtain ⟨hoperands, hlabel, hext, hinstrs, hlists, hdefined⟩ := append_eq_ok hread
  have hstatement : b.program.statementOf (appended b opcode ids label) =
      .instruction (label.map fun v => (b.program.var v).name) opcode
        (ids.map b.program.argumentOf) := by
    simp [Program.statementOf, appended, Instruction.operands]
  have hfits : Builder.Fits b.program (appended b opcode ids label) := by
    refine ⟨?_, hlabel, ?_⟩
    · rintro op ⟨⟩
      exact Builder.checkOperands_eq_ok_iff.mp hoperands
    · rintro ⟨⟩
  rw [← hstatement] at hnames ⊢
  exact h.code_call (reachable_append h.reachable hread) hext hfits hinstrs hlists
    (fun v hv => hdefined v (h.mem_labels.mp hv)) hnames

/-- Operands of the right kinds and a free label are never refused. -/
theorem exists_append {opcode : Opcode} {ids : List VarId} {label : Option VarId}
    (hkinds : ids.map (fun v => (b.program.var v).kind) = opcode.shape.dst ++ opcode.shape.src)
    (hlabel : ∀ v, label = some v → b.checkFree v = .ok ()) :
    ∃ b', append opcode ids label b = .ok b' := by
  have hoperands : b.checkOperands opcode (ids.take opcode.shape.dst.length)
      (ids.drop opcode.shape.dst.length) = .ok () := by
    rw [Builder.checkOperands_eq_ok_iff, List.map_take, List.map_drop, hkinds]
    simp
  obtain ⟨⟨inst, b₁⟩, hinstruction⟩ := Builder.exists_instruction hoperands
  cases label with
  | none => exact ⟨_, bind_eq_ok.mpr ⟨_, hinstruction, rfl⟩⟩
  | some label =>
      have hfree : b₁.checkFree label = .ok () := by
        obtain ⟨_, _, rfl⟩ := Builder.instruction_eq_ok hinstruction
        exact hlabel label rfl
      obtain ⟨b', hattach⟩ := Builder.exists_attach hfree inst
      exact ⟨b', bind_eq_ok.mpr ⟨_, hinstruction, hattach⟩⟩

theorem checkFree_iff (h : b.Reads ss names) {v : VarId} :
    b.checkFree v = .ok () ↔ v ∈ b.program.labels ∧
      (b.program.var v).name ∉ ss.filterMap Statement.definedLabel? := by
  rw [Builder.checkFree_eq_ok_iff, ← h.mem_labels]
  refine and_congr_right fun hv => ?_
  rw [← h.defined_iff v hv, Bool.not_eq_true]

/-- A free label stays free while operands are read. -/
theorem checkFree_extends {names' : List String} (h : b.Reads ss names) (h' : b'.Reads ss names')
    (hext : b.Extends b') {v : VarId} (hfree : b.checkFree v = .ok ()) :
    b'.checkFree v = .ok () ∧ (b'.program.var v).name = (b.program.var v).name := by
  obtain ⟨hv, hfresh⟩ := (checkFree_iff h).mp hfree
  have hname : (b'.program.var v).name = (b.program.var v).name :=
    hext.name_eq (@Builder.Kinded.lt_size b h.reachable.kinded .label v hv)
  exact ⟨(checkFree_iff h').mpr ⟨hext.ofKind_subset .label hv, hname ▸ hfresh⟩, hname⟩

theorem exists_append_of_operands (h : b.Reads ss names) {opcode : Opcode} {ids : List VarId}
    {label : Option VarId} (hlabel : ∀ v, label = some v → b.checkFree v = .ok ())
    (hread : operands opcode.form ts b = .ok (ids, rest, b')) :
    ∃ b₁, append opcode ids label b' = .ok b₁ := by
  obtain ⟨used, _, _, hused⟩ := operandsRead_of_operands h hread
  refine exists_append (by rw [hused.kinds_eq, opcode.varKind?_form]) fun v hv => ?_
  exact (checkFree_extends h hused.reads hused.extends_ (hlabel v hv)).1

theorem renders_of_reads (h : b.Reads ss names) : b.program.Renders ss where
  lists _ _ hkind := h.reachable.kinded.mem_ofKind hkind
  code := h.code
  memory := h.memory
  registers := h.registers
  kinds i hi op hop := (h.reachable.kinded.fits i hi).operands op hop
  entry i hi hop := (h.reachable.kinded.fits i hi).marker hop
  labels i hi := (h.reachable.kinded.fits i hi).label
  labels_inj _ _ hv hw heq := h.label_inj (h.mem_labels.mpr hv) (h.mem_labels.mpr hw) heq
  constants_inj _ _ hv hw heq := by
    have hmem := @Builder.Kinded.mem_ofKind b h.reachable.kinded .constant
    exact List.inj_on_of_nodup_map h.constants_nodup ((hmem (by decide)).mpr hv)
      ((hmem (by decide)).mpr hw) heq

theorem functionCount_eq (h : b.Reads ss names) :
    b.functionCount = ss.countP Statement.isFunction :=
  (renders_of_reads h).countP_isEntry

theorem eq_cons_of_current (h : (current ts).kind ≠ .eof) : ts = current ts :: ts.tail := by
  cases ts with
  | nil => exact absurd rfl h
  | cons t ts => rfl

/-- An instruction that was read, after the label that it carries. -/
theorem reads_instruction {label : Option VarId}
    (h : b.Reads ss (label.map fun v => (b.program.var v).name).toList)
    (hlabel : ∀ v, label = some v → b.checkFree v = .ok ())
    (hread : instruction label ts b = .ok (rest, b')) :
    ∃ m used opcode, ts = m :: used ++ rest ∧ m.kind = .mnemonic opcode ∧
      opcode.Pattern (used.map Token.kind) ∧
      (Statement.instruction (label.map fun v => (b.program.var v).name) opcode
        (used.filterMap Token.argument?)).Admitted ss ∧
      b'.Reads (ss ++ [.instruction (label.map fun v => (b.program.var v).name) opcode
        (used.filterMap Token.argument?)]) [] := by
  unfold instruction at hread
  split at hread
  · cases hread
  · rename_i hcount
    split at hread
    · rename_i opcode hkind
      obtain ⟨⟨ids, ts', b₁⟩, hoperands, hread⟩ := bind_eq_ok.mp hread
      obtain ⟨b₂, happend, hread⟩ := bind_eq_ok.mp hread
      cases hread
      obtain ⟨used, htail, hkinds, hused⟩ := operandsRead_of_operands h hoperands
      have hname : label.map (fun v => (b₁.program.var v).name) =
          label.map fun v => (b.program.var v).name := by
        cases hv : label with
        | none => rfl
        | some v =>
            have hfree := checkFree_extends h hused.reads hused.extends_ (hlabel v hv)
            simp [hfree.2]
      have hreads := reads_append hused.reads (mapError_eq_ok.mp happend) (by
        rw [hname, hused.arguments_eq]
        simp [Statement.labels, Statement.definedLabel?, Statement.arguments])
      rw [hname, hused.arguments_eq] at hreads
      refine ⟨current ts, used, opcode, ?_, hkind, Opcode.pattern_iff.mpr hkinds,
        ⟨?_, ?_, hused.admitted⟩, hreads⟩
      · rw [List.cons_append, ← htail]
        exact eq_cons_of_current (by simp [hkind])
      · rw [functionCount_eq h] at hcount
        exact List.countP_pos_iff.mp (Nat.pos_of_ne_zero hcount)
      · intro name hlabelName
        obtain ⟨v, hv, rfl⟩ := Option.map_eq_some_iff.mp hlabelName
        exact ((checkFree_iff h).mp (hlabel v hv)).2
    · cases hread

theorem exists_instruction (h : b.Reads ss names) {label : Option VarId}
    (hlabel : ∀ v, label = some v → b.checkFree v = .ok ()) {m : Token} {used : List Token}
    {opcode : Opcode} (hm : m.kind = .mnemonic opcode)
    (hpattern : opcode.Pattern (used.map Token.kind))
    (hfunction : ∃ s ∈ ss, s.isFunction = true)
    (hadmitted : ∀ a ∈ used.filterMap Token.argument?, a.Admitted ss) (rest : List Token) :
    ∃ b', instruction label (m :: used ++ rest) b = .ok (rest, b') := by
  obtain ⟨ids, b₁, hoperands⟩ := exists_operands h (Opcode.pattern_iff.mp hpattern) hadmitted rest
  obtain ⟨b₂, happend⟩ := exists_append_of_operands h hlabel hoperands
  have hcount : b.functionCount ≠ 0 := by
    rw [functionCount_eq h]
    exact Nat.ne_of_gt (List.countP_pos_iff.mpr hfunction)
  refine ⟨b₂, ?_⟩
  simp only [instruction, if_neg hcount, current, List.cons_append, List.headD_cons, hm,
    List.tail_cons]
  exact bind_eq_ok.mpr ⟨_, hoperands, bind_eq_ok.mpr ⟨b₂, mapError_eq_ok.mpr happend, rfl⟩⟩

/-! ## Statements -/

theorem reads_labelDefined (h : b.Reads ss []) {t : Token} {v : VarId}
    (hread : labelDefined t b = .ok (v, b')) :
    b'.Reads ss [t.text] ∧ b'.checkFree v = .ok () ∧ (b'.program.var v).name = t.text := by
  obtain ⟨hreads, _, hmem, hname⟩ := reads_labelNamed h t
  unfold labelDefined at hread
  dsimp only at hread
  split at hread
  · cases hread
  · rename_i hundefined
    cases hread
    refine ⟨hreads, Builder.checkFree_eq_ok_iff.mpr ⟨hreads.mem_labels.mp hmem, ?_⟩, hname⟩
    simpa [Builder.var] using hundefined

theorem exists_labelDefined (h : b.Reads ss []) {t : Token}
    (hfresh : t.text ∉ ss.filterMap Statement.definedLabel?) :
    ∃ v b', labelDefined t b = .ok (v, b') := by
  obtain ⟨hreads, _, hmem, hname⟩ := reads_labelNamed h t
  refine ⟨_, _, if_neg fun hdefined => hfresh ?_⟩
  rw [← hname]
  exact (hreads.defined_iff _ hmem).mp hdefined

theorem reads_memory (h : b.Reads ss []) (hread : memory ts b = .ok (rest, b')) :
    ∃ name t, ts = name :: t :: rest ∧ name.kind = .memoryName ∧ t.kind = .number ∧
      (Statement.memory name.text (Text.Decimal.value t.text.toList)).Admitted ss ∧
      b'.Reads (ss ++ [.memory name.text (Text.Decimal.value t.text.toList)]) [] := by
  obtain ⟨⟨name, ts'⟩, hname, hvalue⟩ := bind_eq_ok.mp hread
  obtain ⟨rfl, hkind⟩ := (expect_eq_ok_iff (by decide)).mp hname
  dsimp only at hvalue
  split at hvalue
  · cases hvalue
  · rename_i hfresh
    obtain ⟨⟨t, ts''⟩, htaken, hvalue⟩ := bind_eq_ok.mp hvalue
    obtain ⟨value, hnumber, hvalue⟩ := bind_eq_ok.mp hvalue
    cases hvalue
    obtain ⟨rfl, htkind⟩ := (expect_eq_ok_iff (by decide)).mp htaken
    obtain ⟨rfl, hfits⟩ := number_eq_ok_iff.mp hnumber
    refine ⟨name, t, rfl, hkind, htkind, ⟨?_, hfits⟩, h.memory_call _ _⟩
    exact fun hmem => hfresh ((find?_memory_isSome h).mpr hmem)

theorem reads_register (h : b.Reads ss []) (hread : register ts b = .ok (rest, b')) :
    ∃ name, ts = name :: rest ∧ name.kind = .registerName ∧
      (Statement.register name.text).Admitted ss ∧
      b'.Reads (ss ++ [.register name.text]) [] := by
  obtain ⟨⟨name, ts'⟩, hname, hvalue⟩ := bind_eq_ok.mp hread
  obtain ⟨rfl, hkind⟩ := (expect_eq_ok_iff (by decide)).mp hname
  dsimp only at hvalue
  split at hvalue
  · cases hvalue
  · rename_i hfresh
    cases hvalue
    refine ⟨name, rfl, hkind, ?_, h.register_call _⟩
    exact fun hmem => hfresh ((find?_register_isSome h).mpr hmem)

theorem reads_function (h : b.Reads ss []) (hread : function ts b = .ok (rest, b')) :
    ∃ name, ts = name :: rest ∧ name.kind = .name ∧
      (Statement.function name.text).Admitted ss ∧
      b'.Reads (ss ++ [.function name.text]) [] := by
  obtain ⟨⟨name, ts'⟩, hname, hread⟩ := bind_eq_ok.mp hread
  obtain ⟨⟨v, b₁⟩, hlabel, hread⟩ := bind_eq_ok.mp hread
  obtain ⟨⟨inst, b₂⟩, hentry, hread⟩ := bind_eq_ok.mp hread
  cases hread
  obtain ⟨rfl, hkind⟩ := (expect_eq_ok_iff (by decide)).mp hname
  obtain ⟨hreads, hfree, htext⟩ := reads_labelDefined h hlabel
  have hfresh := ((checkFree_iff hreads).mp hfree).2
  rw [htext] at hfresh
  have hcall := hreads.entry_call (mapError_eq_ok.mp hentry) (by simp [htext])
  rw [htext] at hcall
  exact ⟨name, rfl, hkind, hfresh, hcall⟩

theorem reads_labeled (h : b.Reads ss []) {name : Token}
    (hread : labeled name ts b = .ok (rest, b')) :
    ∃ colon m used opcode, ts = colon :: m :: used ++ rest ∧ colon.kind = .colon ∧
      m.kind = .mnemonic opcode ∧ opcode.Pattern (used.map Token.kind) ∧
      (Statement.instruction (some name.text) opcode
        (used.filterMap Token.argument?)).Admitted ss ∧
      b'.Reads (ss ++ [.instruction (some name.text) opcode
        (used.filterMap Token.argument?)]) [] := by
  obtain ⟨⟨v, b₁⟩, hlabel, hread⟩ := bind_eq_ok.mp hread
  obtain ⟨⟨colon, ts'⟩, hcolon, hinstruction⟩ := bind_eq_ok.mp hread
  obtain ⟨rfl, hkind⟩ := (expect_eq_ok_iff (by decide)).mp hcolon
  obtain ⟨hreads, hfree, htext⟩ := reads_labelDefined h hlabel
  have hreads' : b₁.Reads ss ((some v).map fun w => (b₁.program.var w).name).toList := by
    simpa [htext] using hreads
  obtain ⟨m, used, opcode, rfl, hm, hpattern, hadmitted, hnew⟩ :=
    reads_instruction hreads' (by rintro _ ⟨⟩; exact hfree) hinstruction
  simp only [Option.map_some, htext] at hadmitted hnew
  exact ⟨colon, m, used, opcode, rfl, hkind, hm, hpattern, hadmitted, hnew⟩

/-- The statement that was read is spelled by the tokens that were taken. -/
theorem reads_statement (h : b.Reads ss []) (hread : statement ts b = .ok (rest, b')) :
    ∃ used s, ts = used ++ rest ∧ Spells used s ∧ s.Admitted ss ∧ b'.Reads (ss ++ [s]) [] := by
  have hfirst := @eq_cons_of_current ts
  unfold statement at hread
  split at hread
  · rename_i hkind
    obtain ⟨name, t, htail, hname, ht, hadmitted, hreads⟩ := reads_memory h hread
    exact ⟨[current ts, name, t], _, by simpa [htail] using hfirst (by simp [hkind]),
      .memory hkind hname ht, hadmitted, hreads⟩
  · rename_i hkind
    obtain ⟨name, htail, hname, hadmitted, hreads⟩ := reads_register h hread
    exact ⟨[current ts, name], _, by simpa [htail] using hfirst (by simp [hkind]),
      .register hkind hname, hadmitted, hreads⟩
  · rename_i hkind
    obtain ⟨name, htail, hname, hadmitted, hreads⟩ := reads_function h hread
    exact ⟨[current ts, name], _, by simpa [htail] using hfirst (by simp [hkind]),
      .function hkind hname, hadmitted, hreads⟩
  · rename_i hkind
    obtain ⟨colon, m, used, opcode, htail, hcolon, hm, hpattern, hadmitted, hreads⟩ :=
      reads_labeled h hread
    exact ⟨current ts :: colon :: m :: used, _, by simpa [htail] using hfirst (by simp [hkind]),
      .labeled hkind hcolon hm hpattern, hadmitted, hreads⟩
  · obtain ⟨m, used, opcode, rfl, hm, hpattern, hadmitted, hreads⟩ :=
      reads_instruction h (by simp) hread
    exact ⟨m :: used, _, rfl, .plain hm hpattern, hadmitted, hreads⟩

theorem exists_statement_ok (h : b.Reads ss []) {used : List Token} {s : Statement}
    (hspells : Spells used s) (hadmitted : s.Admitted ss) (rest : List Token) :
    ∃ b', statement (used ++ rest) b = .ok (rest, b') := by
  cases hspells with
  | memory hd hname ht =>
      have hfresh := mt (find?_memory_isSome h).mp hadmitted.1
      have hnumber := number_eq_ok_iff.mpr ⟨rfl, hadmitted.2⟩
      simp only [statement, current, List.cons_append, List.headD_cons, hd, List.tail_cons]
      exact ⟨_, bind_eq_ok.mpr ⟨_, expect_cons hname _,
        (if_neg hfresh).trans (bind_eq_ok.mpr
          ⟨_, expect_cons ht _, bind_eq_ok.mpr ⟨_, hnumber, rfl⟩⟩)⟩⟩
  | register hd hname =>
      have hfresh := mt (find?_register_isSome h).mp hadmitted
      simp only [statement, current, List.cons_append, List.headD_cons, hd, List.tail_cons]
      exact ⟨_, bind_eq_ok.mpr ⟨_, expect_cons hname _,
        if_neg hfresh⟩⟩
  | function hd hname =>
      obtain ⟨v, b₁, hlabel⟩ := exists_labelDefined h hadmitted
      obtain ⟨_, hfree, _⟩ := reads_labelDefined h hlabel
      obtain ⟨r, hentry⟩ := Builder.exists_entry hfree
      have hentry : (b₁.entry v).mapError SourceError.build = .ok r := mapError_eq_ok.mpr hentry
      simp only [statement, current, List.cons_append, List.headD_cons, hd, List.tail_cons]
      exact ⟨_, bind_eq_ok.mpr ⟨_, expect_cons hname _,
        bind_eq_ok.mpr ⟨_, hlabel, bind_eq_ok.mpr ⟨_, hentry, rfl⟩⟩⟩⟩
  | plain hm hpattern =>
      obtain ⟨b', hread⟩ := @exists_instruction b ss _ h none (by simp) _ _ _ hm hpattern
        hadmitted.1 hadmitted.2.2 rest
      refine ⟨b', ?_⟩
      simp only [statement, current, List.cons_append, List.headD_cons, hm]
      exact hread
  | labeled hl hcolon hm hpattern =>
      obtain ⟨v, b₁, hlabel⟩ := exists_labelDefined h (hadmitted.2.1 _ rfl)
      obtain ⟨hreads, hfree, _⟩ := reads_labelDefined h hlabel
      obtain ⟨b', hread⟩ := @exists_instruction b₁ ss _ hreads (some v) (by rintro _ ⟨⟩; exact hfree)
        _ _ _ hm hpattern hadmitted.1 hadmitted.2.2 rest
      refine ⟨b', ?_⟩
      simp only [statement, current, List.cons_append, List.headD_cons, hl, List.tail_cons]
      exact bind_eq_ok.mpr ⟨_, hlabel,
        bind_eq_ok.mpr ⟨_, expect_cons hcolon _, hread⟩⟩

/-- A statement that is spelled out and admitted is read as what it is. -/
theorem exists_statement (h : b.Reads ss []) {used : List Token} {s : Statement}
    (hspells : Spells used s) (hadmitted : s.Admitted ss) (rest : List Token) :
    ∃ b', statement (used ++ rest) b = .ok (rest, b') ∧ b'.Reads (ss ++ [s]) [] := by
  obtain ⟨b', hread⟩ := exists_statement_ok h hspells hadmitted rest
  obtain ⟨used', s', heq, hspells', _, hreads⟩ := reads_statement h hread
  obtain rfl := List.append_cancel_right heq
  obtain rfl := hspells.unique hspells'
  exact ⟨b', hread, hreads⟩

/-! ## Texts -/

theorem reads_statements (h : b.Reads ss []) (hadmitted : AdmittedAll ss) (hclosed : Closed ts)
    (hread : statements ts b = .ok b') :
    ∃ ss', SpellsAll ts ss' ∧ AdmittedAll (ss ++ ss') ∧ b'.Reads (ss ++ ss') [] := by
  fun_induction statements ts b generalizing ss with
  | case1 => cases hread
  | case2 => cases hread
  | case3 ts b rest b₁ hstatement semicolon rest' hended heof =>
      cases hread
      obtain ⟨used, s, rfl, hspells, hs, hreads⟩ := reads_statement h hstatement
      obtain ⟨rfl, hkind⟩ := (expect_eq_ok_iff (by decide)).mp hended
      obtain ⟨_, hrest⟩ := hclosed.regular_of_append (by simp)
      obtain ⟨_, hrest⟩ := hrest.regular_of_ne (by simp [hkind])
      cases rest' with
      | nil => exact absurd rfl hrest.ne_nil
      | cons eof tail =>
          obtain rfl := hrest.eq_singleton heof
          exact ⟨[s], .last hspells hkind heof, hadmitted.snoc hs, hreads⟩
  | case4 ts b rest b₁ hstatement semicolon rest' hended heof ih =>
      obtain ⟨used, s, rfl, hspells, hs, hreads⟩ := reads_statement h hstatement
      obtain ⟨rfl, hkind⟩ := (expect_eq_ok_iff (by decide)).mp hended
      obtain ⟨_, hrest⟩ := hclosed.regular_of_append (by simp)
      obtain ⟨_, hrest⟩ := hrest.regular_of_ne (by simp [hkind])
      obtain ⟨ss', hspells', hadmitted', hreads'⟩ := ih hreads (hadmitted.snoc hs) hrest hread
      exact ⟨s :: ss', .more hspells hkind hspells', by simpa using hadmitted',
        by simpa using hreads'⟩

theorem statements_eq {semicolon : Token} {rest' : List Token}
    (hread : statement ts b = .ok (rest, b')) (hrest : rest = semicolon :: rest')
    (hkind : semicolon.kind = .semicolon) :
    statements ts b = if (current rest').kind = .eof then .ok b' else statements rest' b' := by
  have hended := (expect_eq_ok_iff (by decide)).mpr ⟨hrest, hkind⟩
  fun_cases statements ts b <;> simp_all

theorem current_ne_eof_of_spellsAll (h : SpellsAll ts ss) : (current ts).kind ≠ .eof := by
  cases h with
  | last hspells | more hspells =>
      obtain ⟨t, us, rfl, hkind⟩ := hspells.exists_cons
      exact hkind

theorem exists_statements {ss' : List Statement} (hspells : SpellsAll ts ss') (h : b.Reads ss [])
    (hadmitted : AdmittedAll (ss ++ ss')) :
    ∃ b', statements ts b = .ok b' ∧ b'.Reads (ss ++ ss') [] := by
  induction hspells generalizing ss b with
  | @last ts s semicolon eof hspells hkind heof =>
      obtain ⟨b₁, hread, hreads⟩ := exists_statement h hspells (hadmitted ss s [] rfl) [semicolon, eof]
      refine ⟨b₁, ?_, hreads⟩
      rw [statements_eq hread rfl hkind]
      exact if_pos heof
  | @more ts rest s ss' semicolon hspells hkind hrest ih =>
      obtain ⟨b₁, hread, hreads⟩ :=
        exists_statement h hspells (hadmitted ss s ss' rfl) (semicolon :: rest)
      obtain ⟨b', hreadAll, hreadsAll⟩ := ih hreads (by simpa using hadmitted)
      refine ⟨b', ?_, by simpa using hreadsAll⟩
      rw [statements_eq hread rfl hkind, if_neg (current_ne_eof_of_spellsAll hrest)]
      exact hreadAll

theorem mem_labels_of_argumentOf (h : b.Reads ss names) {v : VarId} {name : String}
    (hv : (b.program.var v).kind ≠ .untyped) (hlabel : b.program.argumentOf v = .label name) :
    v ∈ b.program.labels ∧ (b.program.var v).name = name := by
  unfold Program.argumentOf at hlabel
  split at hlabel
  · cases hlabel
  · cases hlabel
  · cases hlabel
  · rename_i hkind
    cases hlabel
    exact ⟨h.mem_labels.mpr hkind, rfl⟩
  · contradiction

/-- A label that some operand names is a label of the program. -/
theorem exists_label_of_argument (h : b.Reads ss names) {s : Statement} (hs : s ∈ ss)
    {name : String} (hname : .label name ∈ s.arguments) :
    ∃ v ∈ b.program.labels, (b.program.var v).name = name := by
  cases s with
  | instruction label opcode arguments =>
      obtain ⟨i, hi, heq⟩ := h.mem_code.mp ⟨hs, rfl⟩
      have hfits := h.reachable.kinded.fits i hi
      unfold Program.statementOf at heq
      cases hop : i.opcode with
      | none => simp [hop] at heq
      | some op =>
          simp only [hop, Statement.instruction.injEq] at heq
          rw [Statement.arguments, ← heq.2.2] at hname
          obtain ⟨v, hv, hlabel⟩ := List.mem_map.mp hname
          have hmem := @Builder.kind_ne_untyped_of_shape op (b.program.var v).kind
            (hfits.kind_mem hop hv)
          exact ⟨v, mem_labels_of_argumentOf h hmem hlabel⟩
  | _ => simp [Statement.arguments] at hname

theorem undefinedLabel?_eq_none_iff (h : b.Reads ss []) :
    undefinedLabel? b = none ↔ ∀ s ∈ ss, ∀ name, .label name ∈ s.arguments →
      name ∈ ss.filterMap Statement.definedLabel? := by
  have hnone : undefinedLabel? b = none ↔ ∀ v ∈ b.program.labels,
      (b.program.var v).name ∈ ss.filterMap Statement.definedLabel? := by
    simp only [undefinedLabel?, List.find?_eq_none, Builder.var, Bool.not_eq_true]
    exact forall₂_congr fun v hv => by simpa using h.defined_iff v hv
  rw [hnone]
  constructor
  · intro hall s hs name hname
    obtain ⟨v, hv, rfl⟩ := exists_label_of_argument h hs hname
    exact hall v hv
  · intro hall v hv
    have hnamed := h.named v hv
    rw [List.append_nil, List.mem_flatMap] at hnamed
    obtain ⟨s, hs, hname⟩ := hnamed
    rcases List.mem_append.mp hname with hdefined | hargument
    · exact List.mem_filterMap.mpr ⟨s, hs, by simpa using hdefined⟩
    · obtain ⟨a, ha, hlabel⟩ := List.mem_filterMap.mp hargument
      cases a with
      | label name =>
          cases hlabel
          exact hall s hs _ ha
      | _ => cases hlabel

theorem renders_of_program (hclosed : Closed ts) {p : Program} (hread : program ts = .ok p) :
    ∃ ss, SpellsAll ts ss ∧ WellFormed ss ∧ p.Renders ss := by
  rw [program_eq_scan] at hread
  obtain ⟨b, hstatements, hread⟩ := bind_eq_ok.mp hread
  obtain ⟨ss, hspells, hadmitted, hreads⟩ :=
    reads_statements Builder.reads_new admittedAll_nil hclosed hstatements
  rw [List.nil_append] at hadmitted hreads
  split at hread
  · cases hread
  · rename_i hlabels
    split at hread
    · cases hread
    · rename_i hcount
      cases hread
      rw [functionCount_eq hreads] at hcount
      exact ⟨ss, hspells, hadmitted.wellFormed ((undefinedLabel?_eq_none_iff hreads).mp hlabels)
        hcount, renders_of_reads hreads⟩
    · cases hread

theorem exists_program (hspells : SpellsAll ts ss) (h : WellFormed ss) :
    ∃ p, program ts = .ok p := by
  obtain ⟨b, hstatements, hreads⟩ := exists_statements hspells Builder.reads_new h.admittedAll
  have hlabels := (undefinedLabel?_eq_none_iff hreads).mpr h.labels_defined
  have hcount := functionCount_eq hreads
  rw [List.nil_append, h.countP_isFunction] at hcount
  rw [program_eq_scan]
  refine ⟨b.program, bind_eq_ok.mpr ⟨b, hstatements, ?_⟩⟩
  simp only [hlabels, hcount]

/-- The tokens of a text are a program just if they spell well-formed statements, and then they are
the program that these statements stand for. -/
theorem accepts_exactly_wellFormed {text : String} {ts : List Token}
    (h : tokenize text = .ok ts) :
    ((∃ p, program ts = .ok p) ↔ ∃ ss, SpellsAll ts ss ∧ WellFormed ss) ∧
      ∀ p, program ts = .ok p → ∃ ss, SpellsAll ts ss ∧ WellFormed ss ∧ p.Renders ss := by
  have hclosed := closed_of_tokenize h
  refine ⟨⟨?_, ?_⟩, fun p => renders_of_program hclosed⟩
  · rintro ⟨p, hread⟩
    obtain ⟨ss, hspells, hwf, _⟩ := renders_of_program hclosed hread
    exact ⟨ss, hspells, hwf⟩
  · rintro ⟨ss, hspells, hwf⟩
    exact exists_program hspells hwf

/-- A branch forward and a branch to the function. -/
theorem accepts_branches :
    ∃ ts p ss, tokenize "_reg r1; _mem m1 -6; _func main; b end; end: bne r1, r1, main;" = .ok ts ∧
      program ts = .ok p ∧ p.size = 3 ∧ SpellsAll ts ss ∧ WellFormed ss ∧ p.Renders ss := by
  obtain ⟨ts, hts, hread⟩ : ∃ ts, tokenize
      "_reg r1; _mem m1 -6; _func main; b end; end: bne r1, r1, main;" = .ok ts ∧
      succeedsWith (fun p : Program => decide (p.size = 3)) (program ts) = true :=
    exists_ok_of_decide (by decide +kernel)
  obtain ⟨p, hp, hsize⟩ := exists_ok_of_decide hread
  obtain ⟨ss, hss⟩ := (accepts_exactly_wellFormed hts).2 p hp
  exact ⟨ts, p, ss, hts, hp, hsize, hss⟩

end Parser

end RegAlloc
