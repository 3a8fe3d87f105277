import RegAlloc.Program.Builder
import RegAlloc.Token.Lexer

/-!
# Parsing programs

A source text is one or more statements, each followed by a semicolon:

* `_mem m1 6` declares a memory variable, `_reg r1` a register variable;
* `_func main` opens the function;
* `add r1, r2, r3` is an instruction, `loop: add r1, r2, r3` one with a label.

`Opcode.form` says how the operands of each operation are written. Statements are read from left to
right into a `Builder`, and the first fault ends the reading: a token out of place, a number that
does not fit a word, a name that is declared twice or not at all. At the end every label must have
been defined, and exactly one function opened. A `Reader` has tables for the names that it has seen
so far, one for each kind of name.
-/

namespace RegAlloc

/-- Why a list of tokens is no program. -/
inductive ParseError where
  | unexpectedToken (expected : String) (found : Token)
  | invalidNumber (token : Token)
  | duplicateMemory (name : String)
  | duplicateRegister (name : String)
  | duplicateLabel (name : String)
  | undeclaredVariable (token : Token)
  | labelNeverDefined (name : String)
  | noEntryFunction
  | tooManyFunctions (count : Nat)
deriving DecidableEq, Repr

def ParseError.message : ParseError → String
  | unexpectedToken expected t =>
    s!"Expected {expected} but found {t.kind.describe} '{t.text}' at {t.pos.render}"
  | invalidNumber t => s!"Invalid number '{t.text}' at {t.pos.render}"
  | duplicateMemory name => s!"Memory variable {name} already exists"
  | duplicateRegister name => s!"Register variable {name} already exists"
  | duplicateLabel name => s!"Label {name} is already defined"
  | undeclaredVariable t => s!"Variable {t.text} is not declared ({t.pos.render})"
  | labelNeverDefined name => s!"Label {name} is used but never defined"
  | noEntryFunction => "Program does not start with a function"
  | tooManyFunctions count => s!"Program has {count} functions, only one is allowed"

/-- Why a text is no program. -/
inductive SourceError where
  | lex (error : LexError)
  | parse (error : ParseError)
  | build (error : BuildError)
deriving DecidableEq, Repr

def SourceError.message : SourceError → String
  | lex e => e.message
  | parse e => e.message
  | build e => e.message

/-- One token in the operand part of an instruction. -/
inductive Piece where
  | register
  | memory
  | constant
  | label
  | comma
  | leftParen
  | rightParen
deriving DecidableEq, Repr

/-- The kind of the token that stands for a piece. -/
def Piece.kind : Piece → Kind
  | register => .registerName
  | memory => .memoryName
  | constant => .number
  | label => .name
  | comma => .comma
  | leftParen => .leftParen
  | rightParen => .rightParen

/-- How the operands of an operation are written. -/
def Opcode.form : Opcode → List Piece
  | add | sub | and | or => [.register, .comma, .register, .comma, .register]
  | addi => [.register, .comma, .register, .comma, .constant]
  | not => [.register, .comma, .register]
  | la => [.register, .comma, .memory]
  | li => [.register, .comma, .constant]
  | lw | sw => [.register, .comma, .constant, .leftParen, .register, .rightParen]
  | b => [.label]
  | bltz => [.register, .comma, .label]
  | bne => [.register, .comma, .register, .comma, .label]
  | nop => []

namespace Parser

/-! ### Tokens -/

/-- The first of the remaining tokens. -/
def current (ts : List Token) : Token := ts.headD (Token.eof {})

/-- Takes a token of the given kind. -/
def expect (kind : Kind) (ts : List Token) : Except SourceError (Token × List Token) :=
  if (current ts).kind = kind then .ok (current ts, ts.tail)
  else .error (.parse (.unexpectedToken kind.describe (current ts)))

/-- The number that a token denotes, if it fits a word. -/
def number (t : Token) : Except SourceError Int :=
  let n := Text.Decimal.value t.text.toList
  if Text.Decimal.FitsWord n then .ok n else .error (.parse (.invalidNumber t))

theorem bind_eq_ok {ε α β : Type} {x : Except ε α} {f : α → Except ε β} {c : β} :
    (x >>= f) = .ok c ↔ ∃ a, x = .ok a ∧ f a = .ok c := by
  cases x <;> simp [bind, Except.bind]

theorem length_of_expect {kind : Kind} {ts rest : List Token} {t : Token}
    (h : expect kind ts = .ok (t, rest)) : rest.length ≤ ts.length := by
  grind [expect]

theorem length_lt_of_expect {kind : Kind} {ts rest : List Token} {t : Token}
    (h : expect kind ts = .ok (t, rest)) (hk : kind ≠ .eof) : rest.length < ts.length := by
  cases ts with
  | nil => exact absurd h (by simp [expect, current, Token.eof, hk.symm])
  | cons t ts => grind [expect]

end Parser

/-- A reader: the tokens that remain, the program so far, the variables by their names, the label
that waits for its instruction, and the number of functions opened. -/
structure Reader where
  tokens : List Token
  builder : Builder := {}
  registers : List (String × VarId) := []
  memory : List (String × VarId) := []
  labels : List (String × VarId) := []
  pending : Option VarId := none
  functions : Nat := 0

/-- A step of the reader. An error ends the reading. -/
abbrev Reading (α : Type) := StateT Reader (Except SourceError) α

namespace Reader

/-- The first of the remaining tokens. -/
def current (r : Reader) : Token := Parser.current r.tokens

/-- The variables of a kind by their names. -/
def table (r : Reader) : VarKind → List (String × VarId)
  | .register => r.registers
  | .memory => r.memory
  | .label => r.labels
  | .constant | .untyped => []

/-- Enters a new variable under its name. -/
def enter (r : Reader) (kind : VarKind) (name : String) (id : VarId) : Reader :=
  match kind with
  | .register => { r with registers := (name, id) :: r.registers }
  | .memory => { r with memory := (name, id) :: r.memory }
  | .label => { r with labels := (name, id) :: r.labels }
  | .constant | .untyped => r

/-! ### Tokens -/

/-- Takes the first token. -/
def advance : Reading Token := modifyGet fun r => (r.current, { r with tokens := r.tokens.tail })

/-- Takes a token of the given kind. -/
def expect (kind : Kind) : Reading Token := fun r =>
  (Parser.expect kind r.tokens).map fun (t, tokens) => (t, { r with tokens })

/-! ### Names -/

/-- Declares a variable and enters its name. -/
def declare (kind : VarKind) (name : String) (call : Builder → VarId × Builder) : Reading VarId :=
  modifyGet fun r =>
    let (id, builder) := call r.builder
    (id, { r with builder }.enter kind name id)

/-- The declared variable that a token names. -/
def declared (kind : VarKind) (t : Token) : Reading VarId := do
  match ((← get).table kind).lookup t.text with
  | some id => return id
  | none => throw (.parse (.undeclaredVariable t))

/-- The label that a token names, created when it is seen first. -/
def labelNamed (t : Token) : Reading VarId := do
  match (← get).labels.lookup t.text with
  | some id => return id
  | none => declare .label t.text fun b => b.label t.text

/-- The label that a token defines. -/
def labelDefined (t : Token) : Reading VarId := do
  let id ← labelNamed t
  if ((← get).builder.var id).isDefinedLabel then throw (.parse (.duplicateLabel t.text))
  else return id

/-! ### Instructions -/

/-- The constant that a token stands for. -/
def constant (t : Token) : Reading VarId := do
  let value ← Parser.number t
  modifyGet fun r =>
    let (id, builder) := r.builder.constant value
    (id, { r with builder })

/-- The operand that a token stands for; punctuation stands for none. -/
def operand (piece : Piece) (t : Token) : Reading (Option VarId) :=
  match piece with
  | .register => some <$> declared .register t
  | .memory => some <$> declared .memory t
  | .constant => some <$> constant t
  | .label => some <$> labelNamed t
  | .comma | .leftParen | .rightParen => return none

/-- Reads the operand part of an instruction. -/
def operands : List Piece → Reading (List VarId)
  | [] => return []
  | piece :: pieces => do
    let t ← expect piece.kind
    let id ← operand piece t
    let ids ← operands pieces
    return id.toList ++ ids

/-- A call of the builder. -/
def build {α : Type} (action : Builder.Action α) : Reading α := fun r =>
  match action r.builder with
  | .ok a builder => .ok (a, { r with builder })
  | .error e _ => .error (.build e)

/-- Appends an instruction and gives it the label that waits for it, if there is one. -/
def append (opcode : Opcode) (ids : List VarId) : Reading Unit := do
  let inst ← build (.instruction opcode (ids.take opcode.shape.dst.length)
    (ids.drop opcode.shape.dst.length))
  let label ← modifyGet fun r => (r.pending, { r with pending := none })
  match label with
  | some label => build (.attach inst label)
  | none => return

/-- Reads an instruction. -/
def instruction : Reading Unit := do
  if (← get).functions = 0 then throw (.parse .noEntryFunction)
  else
    match (← get).current.kind with
    | .mnemonic opcode => do
      discard advance
      append opcode (← operands opcode.form)
    | _ => throw (.parse (.unexpectedToken "an instruction" (← get).current))

/-! ### Statements -/

/-- Reads `m1 6`. -/
def memoryVariable : Reading Unit := do
  let name ← expect .memoryName
  if ((← get).memory.lookup name.text).isSome then throw (.parse (.duplicateMemory name.text))
  else do
    let value ← Parser.number (← expect .number)
    discard (declare .memory name.text fun b => b.memory name.text value)

/-- Reads `r1`. -/
def registerVariable : Reading Unit := do
  let name ← expect .registerName
  if ((← get).registers.lookup name.text).isSome then
    throw (.parse (.duplicateRegister name.text))
  else discard (declare .register name.text fun b => b.register name.text)

/-- Reads the name of a function. -/
def function : Reading Unit := do
  let label ← labelDefined (← expect .name)
  discard (build (.entry label))
  modify fun r => { r with functions := r.functions + 1 }

/-- Reads a colon and an instruction after the label `name`. -/
def labeled (name : Token) : Reading Unit := do
  let label ← labelDefined name
  discard (expect .colon)
  modify fun r => { r with pending := some label }
  instruction

/-- Reads a statement. -/
def statement : Reading Unit := do
  match (← get).current.kind with
  | .memoryDirective => discard advance; memoryVariable
  | .registerDirective => discard advance; registerVariable
  | .functionDirective => discard advance; function
  | .name => labeled (← advance)
  | _ => instruction

/-! ### Reading consumes tokens -/

/-- A step that gives no token back. -/
def Consumes {α : Type} (x : Reading α) : Prop :=
  ∀ r a r', x r = .ok (a, r') → r'.tokens.length ≤ r.tokens.length

section Consumes

variable {α β : Type}

theorem Consumes.bind {x : Reading α} {f : α → Reading β} (hx : Consumes x)
    (hf : ∀ a, Consumes (f a)) : Consumes (x >>= f) := by
  intro r b r'' h
  obtain ⟨⟨a, r'⟩, hread, hrest⟩ := Parser.bind_eq_ok.mp h
  exact Nat.le_trans (hf a _ _ _ hrest) (hx _ _ _ hread)

theorem consumes_modifyGet {f : Reader → α × Reader}
    (hf : ∀ r, (f r).2.tokens.length ≤ r.tokens.length) : Consumes (modifyGet f : Reading α) := by
  intro r a r' h
  have heq : (f r).2 = r' := congrArg Prod.snd (Except.ok.inj h)
  exact heq ▸ hf r

theorem consumes_get : Consumes get := by
  rintro r _ _ ⟨⟩
  exact Nat.le_refl _

theorem consumes_pure (a : α) : Consumes (pure a) := by
  rintro r _ _ ⟨⟩
  exact Nat.le_refl _

theorem consumes_throw (e : SourceError) : Consumes (throw e : Reading α) := nofun

theorem consumes_lift (x : Except SourceError α) : Consumes (liftM x : Reading α) := by
  intro r a r' h
  obtain ⟨_, _, h⟩ := Parser.bind_eq_ok.mp h
  cases h
  exact Nat.le_refl _

theorem Consumes.map {x : Reading α} (hx : Consumes x) (f : α → β) : Consumes (f <$> x) :=
  hx.bind fun a => consumes_pure (f a)

theorem Consumes.discard {x : Reading α} (hx : Consumes x) :
    Consumes (discard x : Reading PUnit) :=
  hx.map _

end Consumes

theorem consumes_advance : Consumes advance :=
  consumes_modifyGet fun r => by simp

theorem length_lt_of_expect {kind : Kind} {r r' : Reader} {t : Token} (hk : kind ≠ .eof)
    (h : expect kind r = .ok (t, r')) : r'.tokens.length < r.tokens.length := by
  unfold expect at h
  cases htoken : Parser.expect kind r.tokens with
  | error e =>
      rw [htoken] at h
      cases h
  | ok taken =>
      rw [htoken] at h
      cases h
      exact Parser.length_lt_of_expect htoken hk

theorem consumes_expect {kind : Kind} (hk : kind ≠ .eof) : Consumes (expect kind) :=
  fun _ _ _ h => Nat.le_of_lt (length_lt_of_expect hk h)

theorem tokens_enter (r : Reader) (kind : VarKind) (name : String) (id : VarId) :
    (r.enter kind name id).tokens = r.tokens := by
  cases kind <;> rfl

theorem consumes_declare (kind : VarKind) (name : String) (call : Builder → VarId × Builder) :
    Consumes (declare kind name call) :=
  consumes_modifyGet fun _ => Nat.le_of_eq (congrArg List.length (tokens_enter _ kind name _))

theorem consumes_build {α : Type} (action : Builder.Action α) : Consumes (build action) := by
  intro r a r' h
  unfold build at h
  split at h
  · cases h
    exact Nat.le_refl _
  · cases h

theorem consumes_labelNamed (t : Token) : Consumes (labelNamed t) := by
  refine consumes_get.bind fun r => ?_
  split
  · exact consumes_pure _
  · exact consumes_declare _ _ _

theorem consumes_labelDefined (t : Token) : Consumes (labelDefined t) := by
  refine (consumes_labelNamed t).bind fun id => consumes_get.bind fun r => ?_
  split
  · exact consumes_throw _
  · exact consumes_pure _

theorem consumes_declared (kind : VarKind) (t : Token) : Consumes (declared kind t) := by
  refine consumes_get.bind fun r => ?_
  split
  · exact consumes_pure _
  · exact consumes_throw _

theorem consumes_operand (piece : Piece) (t : Token) : Consumes (operand piece t) := by
  cases piece with
  | register => exact (consumes_declared _ t).map _
  | memory => exact (consumes_declared _ t).map _
  | constant =>
      refine Consumes.map ((consumes_lift _).bind fun value => ?_) _
      exact consumes_modifyGet fun r => Nat.le_refl _
  | label => exact (consumes_labelNamed t).map _
  | comma => exact consumes_pure _
  | leftParen => exact consumes_pure _
  | rightParen => exact consumes_pure _

theorem consumes_operands (pieces : List Piece) : Consumes (operands pieces) := by
  induction pieces with
  | nil => exact consumes_pure _
  | cons piece pieces ih =>
      refine (consumes_expect (by cases piece <;> decide)).bind fun t => ?_
      exact (consumes_operand piece t).bind fun id => ih.bind fun ids => consumes_pure _

theorem consumes_append (opcode : Opcode) (ids : List VarId) : Consumes (append opcode ids) := by
  refine (consumes_build _).bind fun inst => ?_
  refine (consumes_modifyGet fun r => Nat.le_refl _).bind fun label => ?_
  cases label with
  | some label => exact consumes_build _
  | none => exact consumes_pure _

theorem consumes_instruction : Consumes instruction := by
  refine consumes_get.bind fun r => ?_
  split
  · exact consumes_throw _
  · refine consumes_get.bind fun r => ?_
    split
    · refine consumes_advance.discard.bind fun _ => ?_
      exact (consumes_operands _).bind fun ids => consumes_append _ ids
    · exact consumes_get.bind fun r => consumes_throw _

theorem consumes_statement : Consumes statement := by
  refine consumes_get.bind fun r => ?_
  split
  · refine consumes_advance.discard.bind fun _ => (consumes_expect (by decide)).bind fun name => ?_
    refine consumes_get.bind fun r => ?_
    split
    · exact consumes_throw _
    · refine (consumes_expect (by decide)).bind fun t => (consumes_lift _).bind fun value => ?_
      exact (consumes_declare _ _ _).discard
  · refine consumes_advance.discard.bind fun _ => (consumes_expect (by decide)).bind fun name => ?_
    refine consumes_get.bind fun r => ?_
    split
    · exact consumes_throw _
    · exact (consumes_declare _ _ _).discard
  · refine consumes_advance.discard.bind fun _ => (consumes_expect (by decide)).bind fun name => ?_
    refine (consumes_labelDefined _).bind fun label => (consumes_build _).discard.bind fun _ => ?_
    exact consumes_modifyGet fun r => Nat.le_refl _
  · refine consumes_advance.bind fun name => (consumes_labelDefined _).bind fun label => ?_
    refine (consumes_expect (by decide)).discard.bind fun _ => ?_
    exact (consumes_modifyGet fun r => Nat.le_refl _).bind fun _ => consumes_instruction
  · exact consumes_instruction

/-- Reads statements, each with its semicolon, up to the end of the text. -/
def statements (r : Reader) : Except SourceError (Unit × Reader) :=
  match _read : statement r with
  | .error e => .error e
  | .ok (_, r) =>
    match _ended : expect .semicolon r with
    | .error e => .error e
    | .ok (_, r) => if r.current.kind = .eof then .ok ((), r) else statements r
termination_by r.tokens.length
decreasing_by
  exact Nat.lt_of_lt_of_le (length_lt_of_expect (by decide) _ended) (consumes_statement _ _ _ _read)

/-! ### Programs -/

/-- The first label in order of creation that was used and never defined. -/
def undefinedLabel? (r : Reader) : Option VarId :=
  ((r.labels.map Prod.snd).filter fun label => !(r.builder.var label).isDefinedLabel).min?

/-- The program that was read. -/
def finish (r : Reader) : Except SourceError Program :=
  match r.undefinedLabel? with
  | some label => .error (.parse (.labelNeverDefined (r.builder.var label).name))
  | none =>
    match r.functions with
    | 0 => .error (.parse .noEntryFunction)
    | 1 => .ok r.builder.program
    | count => .error (.parse (.tooManyFunctions count))

end Reader

/-- The program of a list of tokens. -/
def Parser.program (tokens : List Token) : Except SourceError Program := do
  let ((), r) ← Reader.statements { tokens }
  r.finish

/-- The program that a source text denotes. -/
def Program.parse (text : String) : Except SourceError Program := do
  let ts ← (tokenize text).mapError .lex
  Parser.program ts

end RegAlloc
