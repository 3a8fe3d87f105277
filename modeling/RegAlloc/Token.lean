import RegAlloc.Opcode

/-!
# Tokens

A token is a stretch of source text with its kind and the place where it starts. The text of a token
determines its kind: `Kind.ofText?`.
-/

namespace RegAlloc

/-- A place in a text. Lines and columns count from 1, and a newline ends a line. -/
structure Position where
  line : Nat := 1
  column : Nat := 1
deriving DecidableEq, Repr

namespace Position

/-- The place after the character `c`. -/
def next (p : Position) (c : Char) : Position :=
  if c = '\n' then ⟨p.line + 1, 1⟩ else ⟨p.line, p.column + 1⟩

/-- The place after the characters `cs`. -/
def advance (p : Position) (cs : List Char) : Position := cs.foldl next p

def render (p : Position) : String := s!"{p.line}:{p.column}"

end Position

/-- Kinds of tokens. -/
inductive Kind where
  | memoryDirective
  | registerDirective
  | functionDirective
  | mnemonic (opcode : Opcode)
  | name
  | memoryName
  | registerName
  | number
  | comma
  | leftParen
  | rightParen
  | colon
  | semicolon
  | eof
deriving DecidableEq, Repr

namespace Kind

/-- The kind as it is spelled in messages. -/
def describe : Kind → String
  | memoryDirective => "_mem"
  | registerDirective => "_reg"
  | functionDirective => "_func"
  | mnemonic opcode => opcode.name
  | name => "identifier"
  | memoryName => "memory variable"
  | registerName => "register variable"
  | number => "number"
  | comma => "','"
  | leftParen => "'('"
  | rightParen => "')'"
  | colon => "':'"
  | semicolon => "';'"
  | eof => "end of file"

/-- The kind of a punctuation mark. -/
def ofMark? : Char → Option Kind
  | ',' => some comma
  | '(' => some leftParen
  | ')' => some rightParen
  | ':' => some colon
  | ';' => some semicolon
  | _ => none

/-- The kind of a directive or a mnemonic. -/
def ofKeyword? : String → Option Kind
  | "_mem" => some memoryDirective
  | "_reg" => some registerDirective
  | "_func" => some functionDirective
  | word => (Opcode.ofName? word).map mnemonic

/-- Whether a word is `letter` and then one or more digits. -/
def isNumbered (letter : Char) : List Char → Bool
  | c :: d :: ds => c == letter && (d :: ds).all Char.isDigit
  | _ => false

/-- The kind of a word. A word that starts with an underscore is a directive or nothing. -/
def ofWord? (word : List Char) : Option Kind :=
  match ofKeyword? (String.ofList word) with
  | some kind => some kind
  | none =>
    if word.head? = some '_' then none
    else if isNumbered 'm' word then some memoryName
    else if isNumbered 'r' word then some registerName
    else some name

/-- The kind of a token with the given text. -/
def ofText? : List Char → Option Kind
  | [] => none
  | c :: cs =>
    match ofMark? c with
    | some kind => some kind
    | none => if c.isDigit || c == '-' then some number else ofWord? (c :: cs)

end Kind

/-- A token with the place of its first character. -/
structure Token where
  kind : Kind
  text : String
  pos : Position
deriving DecidableEq, Repr

/-- The end of the source text at `pos`. -/
def Token.eof (pos : Position) : Token := ⟨.eof, "", pos⟩

end RegAlloc
