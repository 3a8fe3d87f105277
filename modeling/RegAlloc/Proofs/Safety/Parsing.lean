import RegAlloc.Proofs.Program.Operands
import RegAlloc.Proofs.Program.Spacing
import RegAlloc.Proofs.Safety.Lexing
import RegAlloc.Proofs.Token.Sequence

/-!
# Accesses of the reader

The reader keeps an index into the tokens, and the builder looks variables and instructions up by
their indices. The index of the token never passes the end of the text, and the reader hands out
only indices of variables that the builder has made.
-/

namespace RegAlloc

namespace Program

/-- The variable with index `v`, if there is one. -/
def var? (p : Program) (v : VarId) : Option Variable := p.vars[v]?

/-- The instruction with index `i`, if there is one. -/
def instr? (p : Program) (i : InstId) : Option Instruction := p.instrs[i]?

theorem var?_eq_some {p : Program} {v : VarId} (h : v < p.vars.size) :
    p.var? v = some (p.var v) := by
  simp [var?, var, h]

theorem instr?_eq_some {p : Program} {i : InstId} (h : i < p.size) :
    p.instr? i = some (p.instr i) := by
  have hi : i < p.instrs.size := h
  simp [instr?, instr, hi]

end Program

namespace Checked

/-! ## Calls of the builder -/

def checkFree (b : Builder) (label : VarId) : Checked BuildError Unit := do
  let v ← b.program.var? label
  if v.kind ≠ .label then throw (.notALabel v.name)
  else if v.isDefinedLabel then throw (.duplicateLabel v.name)
  else return ()

def define (b : Builder) (label : VarId) : Option Builder := do
  let _ ← b.program.var? label
  return b.define label

def wrongKind (b : Builder) (role : Role) :
    Nat → List VarKind → List VarId → Option (Option Mismatch)
  | slot, kind :: kinds, id :: ids => do
    let v ← b.program.var? id
    if v.kind = kind then wrongKind b role (slot + 1) kinds ids
    else return some (.kind role slot v.name v.kind kind)
  | _, _, _ => return none

def mismatch (b : Builder) (role : Role) (expected : List VarKind) (found : List VarId) :
    Option (Option Mismatch) :=
  if expected.length = found.length then wrongKind b role 1 expected found
  else return some (.count role expected.length found.length)

def checkOperands (b : Builder) (opcode : Opcode) (dst src : List VarId) :
    Checked BuildError Unit := do
  match ← mismatch b .destination opcode.shape.dst dst with
  | some reason => throw (.operandMismatch opcode reason)
  | none =>
    match ← mismatch b .source opcode.shape.src src with
    | some reason => throw (.operandMismatch opcode reason)
    | none => return ()

/-- Appends the entry marker. -/
def appendEntry (b : Builder) (label : VarId) : Checked BuildError (InstId × Builder) := do
  checkFree b label
  let b ← define b label
  return b.append fun position => { position, opcode := none, label := some label }

/-- Appends an instruction. -/
def appendInstruction (b : Builder) (opcode : Opcode) (dst src : List VarId) :
    Checked BuildError (InstId × Builder) := do
  checkOperands b opcode dst src
  return b.append fun position => { position, opcode := some opcode, dst, src }

/-- Gives a label to an instruction. -/
def attach (b : Builder) (inst : InstId) (label : VarId) : Checked BuildError Builder := do
  checkFree b label
  let b ← define b label
  let _ ← b.program.instr? inst
  return b.relabel inst label

section Builder

variable {b : Builder} {label : VarId}

theorem checkFree_follows (h : label < b.program.vars.size) :
    Follows Eq (checkFree b label) (b.checkFree label) := by
  refine .access (Program.var?_eq_some h) ?_
  exact .ite (fun _ => .error) fun _ => .ite (fun _ => .error) fun _ => .ok rfl

theorem define_eq_some (h : label < b.program.vars.size) :
    define b label = some (b.define label) := by
  rw [define, Program.var?_eq_some h]
  rfl

theorem wrongKind_eq_some {role : Role} {slot : Nat} {kinds : List VarKind} {ids : List VarId}
    (h : ∀ id ∈ ids, id < b.program.vars.size) :
    wrongKind b role slot kinds ids = some (b.wrongKind? role slot kinds ids) := by
  induction ids generalizing slot kinds with
  | nil => cases kinds <;> rfl
  | cons id ids ih =>
      cases kinds with
      | nil => rfl
      | cons kind kinds =>
          obtain ⟨hid, hids⟩ := List.forall_mem_cons.mp h
          have hvar : b.program.var? id = some (b.var id) := Program.var?_eq_some hid
          rw [wrongKind, Builder.wrongKind?, hvar, Option.bind_eq_bind, Option.bind_some]
          by_cases hkind : (b.var id).kind = kind
          · rw [if_pos hkind, if_pos hkind, ih hids]
          · rw [if_neg hkind, if_neg hkind]
            rfl

theorem mismatch_eq_some {role : Role} {kinds : List VarKind} {ids : List VarId}
    (h : ∀ id ∈ ids, id < b.program.vars.size) :
    mismatch b role kinds ids = some (b.mismatch? role kinds ids) := by
  unfold mismatch Builder.mismatch?
  split
  · exact wrongKind_eq_some h
  · rfl

theorem checkOperands_follows {opcode : Opcode} {dst src : List VarId}
    (hdst : ∀ id ∈ dst, id < b.program.vars.size) (hsrc : ∀ id ∈ src, id < b.program.vars.size) :
    Follows Eq (checkOperands b opcode dst src) (b.checkOperands opcode dst src) := by
  refine .access (mismatch_eq_some hdst) ?_
  unfold Builder.checkOperands
  cases b.mismatch? .destination opcode.shape.dst dst with
  | some reason => exact .error
  | none =>
      refine .access (mismatch_eq_some hsrc) ?_
      cases b.mismatch? .source opcode.shape.src src with
      | some reason => exact .error
      | none => exact .ok rfl

theorem appendEntry_follows (h : label < b.program.vars.size) :
    Follows Eq (appendEntry b label) (b.entry label) := by
  rw [Builder.entry_eq]
  refine (checkFree_follows h).bind_map fun _ _ _ _ => ?_
  exact .access (define_eq_some h) (.ok rfl)

theorem appendInstruction_follows {opcode : Opcode} {dst src : List VarId}
    (hdst : ∀ id ∈ dst, id < b.program.vars.size) (hsrc : ∀ id ∈ src, id < b.program.vars.size) :
    Follows Eq (appendInstruction b opcode dst src) (b.instruction opcode dst src) := by
  rw [Builder.instruction_eq]
  refine (checkOperands_follows hdst hsrc).bind_map fun _ _ _ _ => ?_
  exact .ok rfl

theorem attach_follows {inst : InstId} (h : label < b.program.vars.size)
    (hinst : inst < b.program.size) : Follows Eq (attach b inst label) (b.attach inst label) := by
  rw [Builder.attach_eq]
  refine (checkFree_follows h).bind_map fun _ _ _ _ => ?_
  exact .access (define_eq_some h) (.access (Program.instr?_eq_some hinst) (.ok rfl))

end Builder

/-! ## The reader -/

/-- The token at a position; positions behind the last token stand for it. -/
def current (ts : List Token) (pos : Nat) : Option Token := ts[min pos (ts.length - 1)]?

/-- The position after a token. The end of the text is never passed. -/
def advance (t : Token) (pos : Nat) : Nat := if t.kind = .eof then pos else pos + 1

def expect (ts : List Token) (kind : Kind) (pos : Nat) : Checked SourceError (Token × Nat) := do
  let t ← current ts pos
  if t.kind = kind then return (t, advance t pos)
  else throw (.parse (.unexpectedToken kind.describe t))

def labelDefined (t : Token) (b : Builder) : Checked SourceError (VarId × Builder) :=
  match b.find? .label t.text with
  | some id => do
    let v ← b.program.var? id
    if v.isDefinedLabel then throw (.parse (.duplicateLabel t.text)) else return (id, b)
  | none => return b.label t.text

def readOperands (ts : List Token) : List Piece → Nat → Builder →
    Checked SourceError (List VarId × Nat × Builder)
  | [], pos, b => return ([], pos, b)
  | piece :: pieces, pos, b => do
    let (t, pos) ← expect ts piece.kind pos
    let (id, b) ← liftExcept (Parser.operand piece t b)
    let (ids, pos, b) ← readOperands ts pieces pos b
    return (id.toList ++ ids, pos, b)

def append (opcode : Opcode) (ids : List VarId) (label : Option VarId) (b : Builder) :
    Checked BuildError Builder := do
  let (inst, b) ← appendInstruction b opcode (ids.take opcode.shape.dst.length)
    (ids.drop opcode.shape.dst.length)
  match label with
  | some label => attach b inst label
  | none => return b

def readInstruction (ts : List Token) (label : Option VarId) (pos : Nat) (b : Builder) :
    Checked SourceError (Nat × Builder) :=
  if b.functionCount = 0 then throw (.parse .noEntryFunction)
  else do
    let t ← current ts pos
    match t.kind with
    | .mnemonic opcode => do
      let (ids, pos, b) ← readOperands ts opcode.form (advance t pos) b
      let b ← ExceptT.adapt .build (append opcode ids label b)
      return (pos, b)
    | _ => throw (.parse (.unexpectedToken "an instruction" t))

def readMemory (ts : List Token) (pos : Nat) (b : Builder) :
    Checked SourceError (Nat × Builder) := do
  let (name, pos) ← expect ts .memoryName pos
  if (b.find? .memory name.text).isSome then throw (.parse (.duplicateMemory name.text))
  else do
    let (t, pos) ← expect ts .number pos
    let value ← liftExcept (Parser.number t)
    return (pos, (b.memory name.text value).2)

def readRegister (ts : List Token) (pos : Nat) (b : Builder) :
    Checked SourceError (Nat × Builder) := do
  let (name, pos) ← expect ts .registerName pos
  if (b.find? .register name.text).isSome then throw (.parse (.duplicateRegister name.text))
  else return (pos, (b.register name.text).2)

def readFunction (ts : List Token) (pos : Nat) (b : Builder) :
    Checked SourceError (Nat × Builder) := do
  let (name, pos) ← expect ts .name pos
  let (label, b) ← labelDefined name b
  let (_, b) ← ExceptT.adapt .build (appendEntry b label)
  return (pos, b)

def readLabeled (ts : List Token) (name : Token) (pos : Nat) (b : Builder) :
    Checked SourceError (Nat × Builder) := do
  let (label, b) ← labelDefined name b
  let (_, pos) ← expect ts .colon pos
  readInstruction ts (some label) pos b

def readStatement (ts : List Token) (pos : Nat) (b : Builder) :
    Checked SourceError (Nat × Builder) := do
  let t ← current ts pos
  match t.kind with
  | .memoryDirective => readMemory ts (advance t pos) b
  | .registerDirective => readRegister ts (advance t pos) b
  | .functionDirective => readFunction ts (advance t pos) b
  | .name => readLabeled ts t (advance t pos) b
  | _ => readInstruction ts none pos b

/-- Reads at most `n` statements. As many as there are tokens are enough. -/
def readStatements (ts : List Token) : Nat → Nat → Builder → Checked SourceError Builder
  | 0, _, _ => .mk none
  | n + 1, pos, b => do
    let (pos, b) ← readStatement ts pos b
    let (_, pos) ← expect ts .semicolon pos
    let t ← current ts pos
    if t.kind = .eof then return b else readStatements ts n pos b

/-- The labels that are used and never defined. -/
def undefinedLabels (b : Builder) : Option (List VarId) :=
  b.program.labels.filterM fun label => do
    let v ← b.program.var? label
    return !v.isDefinedLabel

def readProgram (ts : List Token) : Checked SourceError Program := do
  let b ← readStatements ts ts.length 0 {}
  match ← undefinedLabels b with
  | label :: _ => do
    let v ← b.program.var? label
    throw (.parse (.labelNeverDefined v.name))
  | [] =>
    match b.functionCount with
    | 0 => throw (.parse .noEntryFunction)
    | 1 => return b.program
    | count => throw (.parse (.tooManyFunctions count))

/-- The program that a source text denotes. -/
def parse (text : String) : Checked SourceError Program := do
  let ts ← ExceptT.adapt .lex (tokenize text)
  readProgram ts

/-! ## Tokens -/

/-- The rest of the tokens begins at `pos`. -/
structure At (ts : List Token) (pos : Nat) (rest : List Token) : Prop where
  rest_eq : rest = ts.drop pos
  closed : Closed rest

section Reader

variable {ts rest : List Token} {pos : Nat} {b : Builder}

theorem At.exists_cons (h : At ts pos rest) :
    ∃ t more, rest = t :: more ∧ ts[pos]? = some t ∧ more = ts.drop (pos + 1) := by
  obtain ⟨t, more, rfl⟩ := List.exists_cons_of_ne_nil h.closed.ne_nil
  have hdrop := h.rest_eq
  refine ⟨t, more, rfl, ?_, ?_⟩
  · rw [← List.head?_drop, ← hdrop]
    rfl
  · rw [← List.tail_drop, ← hdrop]
    rfl

/-- The position of the reader lies inside the tokens. -/
theorem At.current_eq_some (h : At ts pos rest) : current ts pos = some (Parser.current rest) := by
  obtain ⟨t, more, rfl, hget, _⟩ := h.exists_cons
  have hlt := (List.getElem?_eq_some_iff.mp hget).1
  rw [current, Nat.min_eq_left (Nat.le_sub_one_of_lt hlt), hget]
  rfl

theorem At.advance (h : At ts pos rest) (hkind : (Parser.current rest).kind ≠ .eof) :
    At ts (advance (Parser.current rest) pos) rest.tail := by
  obtain ⟨t, more, rfl, _, hmore⟩ := h.exists_cons
  rw [Checked.advance, if_neg hkind]
  exact ⟨hmore, (h.closed.regular_of_ne hkind).2⟩

/-- The token that is expected, and the positions after it. -/
theorem expect_follows (h : At ts pos rest) {kind : Kind} (hkind : kind ≠ .eof) :
    Follows (fun x y => x.1 = y.1 ∧ At ts x.2 y.2) (expect ts kind pos)
      (Parser.expect kind rest) := by
  refine .access h.current_eq_some ?_
  unfold Parser.expect
  split
  · rename_i heq
    exact .ok ⟨rfl, h.advance (heq ▸ hkind)⟩
  · exact .error

/-! ## Variables that the reader names -/

theorem lt_size_of_find? (hb : b.Reachable) {kind : VarKind} {name : String} {v : VarId}
    (h : b.find? kind name = some v) : v < b.program.vars.size :=
  hb.kinded.lt_size (List.mem_of_find?_eq_some h)

theorem lt_size_labelNamed (hb : b.Reachable) (t : Token) :
    (Parser.labelNamed t b).1 < (Parser.labelNamed t b).2.program.vars.size ∧
      b.Extends (Parser.labelNamed t b).2 := by
  unfold Parser.labelNamed
  split
  · rename_i id hfind
    exact ⟨lt_size_of_find? hb hfind, .refl b⟩
  · exact ⟨by simp [Builder.label, Builder.push], Builder.extends_label b t.text⟩

theorem lt_size_constant (hb : b.Reachable) (n : Int) :
    (b.constant n).1 < (b.constant n).2.program.vars.size := by
  unfold Builder.constant
  split
  · rename_i id hfind
    exact @Builder.Kinded.lt_size b hb.kinded .constant id (hb.constant?_eq_some hfind).1
  · simp [Builder.push]

theorem lt_size_of_operand (hb : b.Reachable) {piece : Piece} {t : Token} {id : Option VarId}
    {b' : Builder} (h : Parser.operand piece t b = .ok (id, b')) :
    (∀ v ∈ id, v < b'.program.vars.size) ∧ b.Extends b' := by
  have hdeclared : ∀ {kind}, (Parser.declared kind t b).map (fun (id, b) => (some id, b)) =
      .ok (id, b') → (∀ v ∈ id, v < b'.program.vars.size) ∧ b.Extends b' := by
    intro kind h
    obtain ⟨⟨v, b₁⟩, hread, heq⟩ := Parser.map_eq_ok.mp h
    cases heq
    unfold Parser.declared at hread
    split at hread
    · rename_i hfind
      cases hread
      exact ⟨by simpa using lt_size_of_find? hb hfind, .refl _⟩
    · cases hread
  cases piece with
  | register => exact hdeclared h
  | memory => exact hdeclared h
  | constant =>
      obtain ⟨n, _, heq⟩ := Parser.map_eq_ok.mp h
      cases heq
      exact ⟨by simpa using lt_size_constant hb n, Builder.extends_constant b n⟩
  | label =>
      cases h
      exact ⟨by simpa using (lt_size_labelNamed hb t).1, (lt_size_labelNamed hb t).2⟩
  | comma | leftParen | rightParen =>
      cases h
      exact ⟨by simp, .refl _⟩

theorem lt_size_of_operands (hb : b.Reachable) {pieces : List Piece} {ids : List VarId}
    {b' : Builder} {more : List Token} (h : Parser.operands pieces rest b = .ok (ids, more, b')) :
    (∀ v ∈ ids, v < b'.program.vars.size) ∧ b.Extends b' := by
  induction pieces generalizing rest b ids with
  | nil =>
      cases h
      exact ⟨by simp, .refl _⟩
  | cons piece pieces ih =>
      obtain ⟨⟨t, rest'⟩, _, h⟩ := Parser.bind_eq_ok.mp h
      obtain ⟨⟨id, b₁⟩, hoperand, h⟩ := Parser.bind_eq_ok.mp h
      obtain ⟨⟨ids', rest'', b₂⟩, hoperands, h⟩ := Parser.bind_eq_ok.mp h
      cases h
      obtain ⟨hid, hfirst⟩ := lt_size_of_operand hb hoperand
      obtain ⟨hids, hrest⟩ := ih (Parser.reachable_operand hb hoperand) hoperands
      refine ⟨fun v hv => ?_, hfirst.trans hrest⟩
      rcases List.mem_append.mp hv with hv | hv
      · exact Nat.lt_of_lt_of_le (hid v (by simpa using hv)) hrest.size_le
      · exact hids v hv

/-! ## Statements -/

/-- The results of two readers: the same builder, and the position of the rest. -/
def Reached (ts : List Token) (x : Nat × Builder) (y : List Token × Builder) : Prop :=
  At ts x.1 y.1 ∧ x.2 = y.2

theorem labelDefined_follows (hb : b.Reachable) (t : Token) :
    Follows Eq (labelDefined t b) (Parser.labelDefined t b) := by
  unfold labelDefined Parser.labelDefined Parser.labelNamed
  cases hfind : b.find? .label t.text with
  | some id =>
      refine .access (Program.var?_eq_some (lt_size_of_find? hb hfind)) ?_
      exact .ite (fun _ => .error) fun _ => .ok rfl
  | none =>
      -- a new label is not defined
      have hnew : ((b.label t.text).2.var (b.label t.text).1).isDefinedLabel = false := by
        simp [Builder.label, Builder.push, Builder.var, Program.var, Variable.isDefinedLabel]
      simp only [hnew]
      exact .ok rfl

theorem readOperands_follows (h : At ts pos rest) (pieces : List Piece) (b : Builder) :
    Follows (fun x y => x.1 = y.1 ∧ Reached ts x.2 y.2) (readOperands ts pieces pos b)
      (Parser.operands pieces rest b) := by
  induction pieces generalizing pos rest b with
  | nil => exact .ok ⟨rfl, h, rfl⟩
  | cons piece pieces ih =>
      refine (expect_follows h (Parser.piece_kind_ne_eof piece)).bind ?_
      rintro ⟨t, pos₁⟩ ⟨_, rest₁⟩ _ ⟨rfl, h₁⟩
      refine (Follows.lift (Parser.operand piece t b)).bind ?_
      rintro ⟨id, b₁⟩ _ _ rfl
      refine (ih h₁ b₁).bind ?_
      rintro ⟨ids, pos₂, b₂⟩ ⟨_, rest₂, _⟩ _ ⟨rfl, h₂, rfl⟩
      exact .ok ⟨rfl, h₂, rfl⟩

theorem append_follows {opcode : Opcode} {ids : List VarId} {label : Option VarId}
    (hids : ∀ id ∈ ids, id < b.program.vars.size)
    (hlabel : ∀ v ∈ label, v < b.program.vars.size) :
    Follows Eq (append opcode ids label b) (Parser.append opcode ids label b) := by
  have hinstruction := @appendInstruction_follows b opcode
    (ids.take opcode.shape.dst.length) (ids.drop opcode.shape.dst.length)
    (fun id hid => hids id (List.mem_of_mem_take hid))
    (fun id hid => hids id (List.mem_of_mem_drop hid))
  refine hinstruction.bind ?_
  rintro ⟨inst, b₁⟩ _ hread rfl
  cases label with
  | none => exact .ok rfl
  | some v =>
      obtain ⟨_, _, hb₁⟩ := Builder.instruction_eq_ok hread
      have hvars : b₁.program.vars = b.program.vars := by rw [hb₁]; rfl
      exact attach_follows (hvars ▸ hlabel v rfl) (Parser.inst_lt_of_instruction hread)

theorem readInstruction_follows (h : At ts pos rest) (hb : b.Reachable) {label : Option VarId}
    (hlabel : ∀ v ∈ label, v < b.program.vars.size) :
    Follows (Reached ts) (readInstruction ts label pos b) (Parser.instruction label rest b) := by
  unfold readInstruction Parser.instruction
  split
  · exact .error
  · refine .access h.current_eq_some ?_
    cases hkind : (Parser.current rest).kind with
    | mnemonic opcode =>
        refine (readOperands_follows (h.advance (by simp [hkind])) opcode.form b).bind ?_
        rintro ⟨ids, pos₁, b₁⟩ ⟨_, rest₁, _⟩ hread ⟨rfl, h₁, rfl⟩
        obtain ⟨hids, hextends⟩ := lt_size_of_operands hb hread
        have hlabel₁ : ∀ v ∈ label, v < b₁.program.vars.size := fun v hv =>
          Nat.lt_of_lt_of_le (hlabel v hv) hextends.size_le
        refine (append_follows hids hlabel₁).adapt.bind ?_
        rintro b₂ _ _ rfl
        exact .ok ⟨h₁, rfl⟩
    | _ => exact .error

theorem readMemory_follows (h : At ts pos rest) (b : Builder) :
    Follows (Reached ts) (readMemory ts pos b) (Parser.memory rest b) := by
  refine (expect_follows h (by decide)).bind ?_
  rintro ⟨name, pos₁⟩ ⟨_, rest₁⟩ _ ⟨rfl, h₁⟩
  dsimp only
  split
  · exact .error
  · refine (expect_follows h₁ (by decide)).bind ?_
    rintro ⟨t, pos₂⟩ ⟨_, rest₂⟩ _ ⟨rfl, h₂⟩
    refine (Follows.lift (Parser.number t)).bind ?_
    rintro value _ _ rfl
    exact .ok ⟨h₂, rfl⟩

theorem readRegister_follows (h : At ts pos rest) (b : Builder) :
    Follows (Reached ts) (readRegister ts pos b) (Parser.register rest b) := by
  refine (expect_follows h (by decide)).bind ?_
  rintro ⟨name, pos₁⟩ ⟨_, rest₁⟩ _ ⟨rfl, h₁⟩
  dsimp only
  split
  · exact .error
  · exact .ok ⟨h₁, rfl⟩

theorem lt_size_of_labelDefined (hb : b.Reachable) {t : Token} {label : VarId} {b' : Builder}
    (h : Parser.labelDefined t b = .ok (label, b')) : label < b'.program.vars.size := by
  unfold Parser.labelDefined at h
  dsimp only at h
  split at h
  · cases h
  · cases h
    exact (lt_size_labelNamed hb t).1

theorem readFunction_follows (h : At ts pos rest) (hb : b.Reachable) :
    Follows (Reached ts) (readFunction ts pos b) (Parser.function rest b) := by
  refine (expect_follows h (by decide)).bind ?_
  rintro ⟨name, pos₁⟩ ⟨_, rest₁⟩ _ ⟨rfl, h₁⟩
  refine (labelDefined_follows hb name).bind ?_
  rintro ⟨label, b₁⟩ _ hread rfl
  refine (appendEntry_follows (lt_size_of_labelDefined hb hread)).adapt.bind ?_
  rintro ⟨inst, b₂⟩ _ _ rfl
  exact .ok ⟨h₁, rfl⟩

theorem readLabeled_follows (h : At ts pos rest) (hb : b.Reachable) (name : Token) :
    Follows (Reached ts) (readLabeled ts name pos b) (Parser.labeled name rest b) := by
  refine (labelDefined_follows hb name).bind ?_
  rintro ⟨label, b₁⟩ _ hread rfl
  refine (expect_follows h (by decide)).bind ?_
  rintro ⟨_, pos₁⟩ ⟨_, rest₁⟩ _ ⟨rfl, h₁⟩
  refine readInstruction_follows h₁ (Parser.reachable_labelDefined hb hread) ?_
  simpa using lt_size_of_labelDefined hb hread

theorem readStatement_follows (h : At ts pos rest) (hb : b.Reachable) :
    Follows (Reached ts) (readStatement ts pos b) (Parser.statement rest b) := by
  refine .access h.current_eq_some ?_
  unfold Parser.statement
  have hnext := h.advance
  cases hkind : (Parser.current rest).kind with
  | memoryDirective => exact readMemory_follows (hnext (by simp [hkind])) b
  | registerDirective => exact readRegister_follows (hnext (by simp [hkind])) b
  | functionDirective => exact readFunction_follows (hnext (by simp [hkind])) hb
  | name => exact readLabeled_follows (hnext (by simp [hkind])) hb _
  | _ => exact readInstruction_follows h hb (by simp)

theorem readStatements_follows {n : Nat} (h : At ts pos rest) (hb : b.Reachable)
    (hn : rest.length ≤ n) : Follows Eq (readStatements ts n pos b) (Parser.statements rest b) := by
  -- a statement and its semicolon leave fewer tokens, and the last one is never taken
  induction n generalizing rest pos b with
  | zero => exact absurd (List.eq_nil_of_length_eq_zero (Nat.le_zero.mp hn)) h.closed.ne_nil
  | succ n ih =>
      rw [readStatements, Parser.statements_eq_bind]
      refine (readStatement_follows h hb).bind ?_
      rintro ⟨pos₁, b₁⟩ ⟨rest₁, _⟩ hread ⟨h₁, rfl⟩
      refine (expect_follows h₁ (by decide)).bind ?_
      rintro ⟨_, pos₂⟩ ⟨_, rest₂⟩ hended ⟨rfl, h₂⟩
      refine .access h₂.current_eq_some (.ite (fun _ => .ok rfl) fun _ => ?_)
      have hlt : rest₂.length < rest₁.length := Parser.length_lt_of_expect hended (by decide)
      have hle := Parser.length_of_statement hread
      have hleft : rest₂.length ≤ n := by omega
      exact ih h₂ (Parser.reachable_statement hb hread) hleft

theorem lt_size_of_mem_labels (hb : b.Reachable) {label : VarId} (h : label ∈ b.program.labels) :
    label < b.program.vars.size :=
  @Builder.Kinded.lt_size b hb.kinded .label label h

theorem undefinedLabels_eq_some (hb : b.Reachable) :
    undefinedLabels b = some (b.program.labels.filter fun v => !(b.var v).isDefinedLabel) := by
  refine filterM_eq_some fun v hv => ?_
  rw [Program.var?_eq_some (lt_size_of_mem_labels hb hv)]
  rfl

theorem readProgram_follows (h : Closed ts) : Follows Eq (readProgram ts) (Parser.program ts) := by
  rw [Parser.program_eq_scan]
  have hstart : At ts 0 ts := ⟨rfl, h⟩
  refine (readStatements_follows hstart .new (Nat.le_refl ts.length)).bind ?_
  rintro b _ hread rfl
  have hb := Parser.reachable_statements .new hread
  refine .access (undefinedLabels_eq_some hb) ?_
  rw [Parser.undefinedLabel?, ← List.head?_filter]
  cases hundefined : b.program.labels.filter fun v => !(b.var v).isDefinedLabel with
  | cons label labels =>
      have hmem : label ∈ b.program.labels :=
        List.mem_of_mem_filter (hundefined ▸ List.mem_cons_self)
      exact .access (Program.var?_eq_some (lt_size_of_mem_labels hb hmem)) .error
  | nil =>
      dsimp only [List.head?_nil]
      cases b.functionCount with
      | zero => exact .error
      | succ n =>
          cases n with
          | zero => exact .ok rfl
          | succ n => exact .error

end Reader

/-- Reading a source text makes no access out of range. -/
theorem parse_follows (text : String) : Follows Eq (parse text) (Program.parse text) := by
  refine (tokenize_follows text).adapt.bind ?_
  rintro ts _ htokens rfl
  exact readProgram_follows (closed_of_tokenize (Parser.mapError_eq_ok.mp htokens))

end Checked

end RegAlloc
