import RegAlloc.Program.Parser

/-!
# Reading without tables

A reader that keeps nothing but the program so far: it searches the program for a name and counts
the functions in it. It reads as the reader with tables does, and its functions say which builder
comes out of which.
-/

namespace RegAlloc

/-- The variable of a kind with a name. -/
def Builder.find? (b : Builder) (kind : VarKind) (name : String) : Option VarId :=
  (b.program.ofKind kind).find? fun v => (b.var v).name == name

/-- Number of functions opened so far. -/
def Builder.functionCount (b : Builder) : Nat := b.program.instrs.countP Instruction.isEntry

namespace Parser

/-! ### Names -/

/-- The declared variable that a token names. -/
def declared (kind : VarKind) (t : Token) (b : Builder) : Except SourceError (VarId × Builder) :=
  match b.find? kind t.text with
  | some id => .ok (id, b)
  | none => .error (.parse (.undeclaredVariable t))

/-- The label that a token names, created when it is seen first. -/
def labelNamed (t : Token) (b : Builder) : VarId × Builder :=
  match b.find? .label t.text with
  | some id => (id, b)
  | none => b.label t.text

/-- The label that a token defines. -/
def labelDefined (t : Token) (b : Builder) : Except SourceError (VarId × Builder) :=
  let (id, b) := labelNamed t b
  if (b.var id).isDefinedLabel then .error (.parse (.duplicateLabel t.text)) else .ok (id, b)

/-! ### Instructions -/

/-- The operand that a token stands for; punctuation stands for none. -/
def operand (piece : Piece) (t : Token) (b : Builder) :
    Except SourceError (Option VarId × Builder) :=
  match piece with
  | .register => (declared .register t b).map fun (id, b) => (some id, b)
  | .memory => (declared .memory t b).map fun (id, b) => (some id, b)
  | .constant => (number t).map fun n => ((b.constant n).1, (b.constant n).2)
  | .label => .ok ((labelNamed t b).1, (labelNamed t b).2)
  | .comma | .leftParen | .rightParen => .ok (none, b)

/-- Reads the operand part of an instruction. -/
def operands : List Piece → List Token → Builder →
    Except SourceError (List VarId × List Token × Builder)
  | [], ts, b => .ok ([], ts, b)
  | piece :: pieces, ts, b => do
    let (t, ts) ← expect piece.kind ts
    let (id, b) ← operand piece t b
    let (ids, ts, b) ← operands pieces ts b
    return (id.toList ++ ids, ts, b)

/-- Appends an instruction and gives it the label before it, if there is one. -/
def append (opcode : Opcode) (ids : List VarId) (label : Option VarId) (b : Builder) :
    Except BuildError Builder := do
  let (inst, b) ← b.instruction opcode (ids.take opcode.shape.dst.length)
    (ids.drop opcode.shape.dst.length)
  match label with
  | some label => b.attach inst label
  | none => return b

/-- Reads an instruction, which carries the label before it. -/
def instruction (label : Option VarId) (ts : List Token) (b : Builder) :
    Except SourceError (List Token × Builder) :=
  if b.functionCount = 0 then .error (.parse .noEntryFunction)
  else
    match (current ts).kind with
    | .mnemonic opcode => do
      let (ids, ts, b) ← operands opcode.form ts.tail b
      let b ← (append opcode ids label b).mapError .build
      return (ts, b)
    | _ => .error (.parse (.unexpectedToken "an instruction" (current ts)))

/-! ### Statements -/

/-- Reads `m1 6`. -/
def memory (ts : List Token) (b : Builder) : Except SourceError (List Token × Builder) := do
  let (name, ts) ← expect .memoryName ts
  if (b.find? .memory name.text).isSome then .error (.parse (.duplicateMemory name.text))
  else do
    let (t, ts) ← expect .number ts
    let value ← number t
    return (ts, (b.memory name.text value).2)

/-- Reads `r1`. -/
def register (ts : List Token) (b : Builder) : Except SourceError (List Token × Builder) := do
  let (name, ts) ← expect .registerName ts
  if (b.find? .register name.text).isSome then .error (.parse (.duplicateRegister name.text))
  else .ok (ts, (b.register name.text).2)

/-- Reads the name of a function. -/
def function (ts : List Token) (b : Builder) : Except SourceError (List Token × Builder) := do
  let (name, ts) ← expect .name ts
  let (label, b) ← labelDefined name b
  let (_, b) ← (b.entry label).mapError .build
  return (ts, b)

/-- Reads a colon and an instruction after the label `name`. -/
def labeled (name : Token) (ts : List Token) (b : Builder) :
    Except SourceError (List Token × Builder) := do
  let (label, b) ← labelDefined name b
  let (_, ts) ← expect .colon ts
  instruction (some label) ts b

/-- Reads a statement. -/
def statement (ts : List Token) (b : Builder) : Except SourceError (List Token × Builder) :=
  match (current ts).kind with
  | .memoryDirective => memory ts.tail b
  | .registerDirective => register ts.tail b
  | .functionDirective => function ts.tail b
  | .name => labeled (current ts) ts.tail b
  | _ => instruction none ts b

/-! ### Reading consumes tokens -/

theorem length_of_operands {pieces : List Piece} {ts rest : List Token} {b b' : Builder}
    {ids : List VarId} (h : operands pieces ts b = .ok (ids, rest, b')) :
    rest.length ≤ ts.length := by
  induction pieces generalizing ts b ids with
  | nil => simp_all [operands]
  | cons piece pieces ih =>
    obtain ⟨⟨t, ts'⟩, taken, h⟩ := bind_eq_ok.mp h
    obtain ⟨_, _, h⟩ := bind_eq_ok.mp h
    obtain ⟨⟨_, rest', _⟩, read, h⟩ := bind_eq_ok.mp h
    cases h
    exact Nat.le_trans (ih read) (length_of_expect taken)

theorem length_of_instruction {label : Option VarId} {ts rest : List Token} {b b' : Builder}
    (h : instruction label ts b = .ok (rest, b')) : rest.length ≤ ts.length := by
  unfold instruction at h
  split at h
  · cases h
  · split at h
    · obtain ⟨⟨_, rest', _⟩, read, h⟩ := bind_eq_ok.mp h
      obtain ⟨_, _, h⟩ := bind_eq_ok.mp h
      cases h
      have := length_of_operands read
      grind
    · cases h

theorem length_of_memory {ts rest : List Token} {b b' : Builder}
    (h : memory ts b = .ok (rest, b')) : rest.length ≤ ts.length := by
  obtain ⟨⟨name, ts'⟩, taken, h⟩ := bind_eq_ok.mp h
  have := length_of_expect taken
  dsimp only at h
  split at h
  · cases h
  · obtain ⟨⟨_, _⟩, taken, h⟩ := bind_eq_ok.mp h
    obtain ⟨_, _, h⟩ := bind_eq_ok.mp h
    cases h
    exact Nat.le_trans (length_of_expect taken) this

theorem length_of_register {ts rest : List Token} {b b' : Builder}
    (h : register ts b = .ok (rest, b')) : rest.length ≤ ts.length := by
  obtain ⟨⟨name, ts'⟩, taken, h⟩ := bind_eq_ok.mp h
  have := length_of_expect taken
  dsimp only at h
  split at h
  · cases h
  · cases h
    exact this

theorem length_of_function {ts rest : List Token} {b b' : Builder}
    (h : function ts b = .ok (rest, b')) : rest.length ≤ ts.length := by
  obtain ⟨⟨name, ts'⟩, taken, h⟩ := bind_eq_ok.mp h
  obtain ⟨_, _, h⟩ := bind_eq_ok.mp h
  obtain ⟨_, _, h⟩ := bind_eq_ok.mp h
  cases h
  exact length_of_expect taken

theorem length_of_labeled {name : Token} {ts rest : List Token} {b b' : Builder}
    (h : labeled name ts b = .ok (rest, b')) : rest.length ≤ ts.length := by
  obtain ⟨_, _, h⟩ := bind_eq_ok.mp h
  obtain ⟨⟨_, ts'⟩, taken, h⟩ := bind_eq_ok.mp h
  exact Nat.le_trans (length_of_instruction h) (length_of_expect taken)

theorem length_of_statement {ts rest : List Token} {b b' : Builder}
    (h : statement ts b = .ok (rest, b')) : rest.length ≤ ts.length := by
  have tail : ts.tail.length ≤ ts.length := by simp
  unfold statement at h
  split at h
  · exact Nat.le_trans (length_of_memory h) tail
  · exact Nat.le_trans (length_of_register h) tail
  · exact Nat.le_trans (length_of_function h) tail
  · exact Nat.le_trans (length_of_labeled h) tail
  · exact length_of_instruction h

/-- Reads statements, each with its semicolon, up to the end of the text. -/
def statements (ts : List Token) (b : Builder) : Except SourceError Builder :=
  match _read : statement ts b with
  | .error e => .error e
  | .ok (rest, b) =>
    match _ended : expect .semicolon rest with
    | .error e => .error e
    | .ok (_, rest) => if (current rest).kind = .eof then .ok b else statements rest b
termination_by ts.length
decreasing_by
  exact Nat.lt_of_lt_of_le (length_lt_of_expect _ended (by decide)) (length_of_statement _read)

theorem statements_eq_bind (ts : List Token) (b : Builder) :
    statements ts b = (statement ts b >>= fun r => expect .semicolon r.1 >>= fun r' =>
      if (current r'.2).kind = .eof then .ok r.2 else statements r'.2 r.2) := by
  rw [statements]
  split
  · rename_i hread
    rw [hread]
    rfl
  · rename_i hread
    rw [hread]
    split
    · rename_i hended
      simp only [bind, Except.bind, hended]
    · rename_i hended
      simp only [bind, Except.bind, hended]

/-! ### Programs -/

/-- The first label in order of creation that was used and never defined. -/
def undefinedLabel? (b : Builder) : Option VarId :=
  b.program.labels.find? fun label => !(b.var label).isDefinedLabel

/-- The program of a list of tokens, found without tables. -/
def scan (ts : List Token) : Except SourceError Program := do
  let b ← statements ts {}
  match undefinedLabel? b with
  | some label => .error (.parse (.labelNeverDefined (b.var label).name))
  | none =>
    match b.functionCount with
    | 0 => .error (.parse .noEntryFunction)
    | 1 => .ok b.program
    | count => .error (.parse (.tooManyFunctions count))

end Parser

end RegAlloc
