/-!
# Control sequences

A text that goes to a terminal may hold control characters and the sequences that they open: an
escape with its final character, a control sequence `ESC [ … letter`, a device string `ESC P …`, a
command `ESC ] …`, or one of the strings `ESC X …`, `ESC ^ …` and `ESC _ …`. `strip` leaves them out
and keeps the text and its layout.
-/

namespace RegAlloc.Text.Control

/-- Tab, line feed, form feed and carriage return. -/
def isLayout (c : Char) : Bool := c == '\t' || c == '\n' || c == '\x0c' || c == '\r'

/-- The control characters of ASCII. -/
def isControl (c : Char) : Bool := decide (c.toNat < 0x20) || c == '\x7f'

/-- Whether `c` lies between two characters, both included. -/
def isBetween (first last c : Char) : Bool :=
  decide (first.toNat ≤ c.toNat) && decide (c.toNat ≤ last.toNat)

/-- Whether the byte that closes a string is among the bytes of `c`. -/
def holdsTerminator (c : Char) : Bool := (String.utf8EncodeChar c).contains 0x9C

/-- How far a sequence has been read. -/
inductive Sequence where
  /-- after the escape character -/
  | escape
  /-- before the final character of an escape -/
  | escapeIntermediate
  /-- before the final character of a control sequence -/
  | control
  /-- at the head of a device string -/
  | device
  /-- after a parameter of a device string -/
  | deviceParameter
  /-- after an intermediate character of a device string -/
  | deviceIntermediate
  /-- inside a string that a terminator closes -/
  | string
  /-- inside a command, which a bell closes -/
  | command
deriving DecidableEq, Repr

namespace Sequence

/-- The sequence after one more character, if that does not end it. -/
def next? : Sequence → Char → Option Sequence
  | escape, c =>
    if c == '[' then some control
    else if c == ']' then some command
    else if c == 'P' then some device
    else if c == 'X' || c == '^' || c == '_' then some string
    else if isBetween '0' '~' c then none
    else if isBetween ' ' '/' c then some escapeIntermediate
    else some escape
  | escapeIntermediate, c => if isBetween '0' '~' c then none else some escapeIntermediate
  | control, c => if isBetween '@' '~' c then none else some control
  | device, c =>
    if isBetween '@' '~' c then some string
    else if isBetween '0' '?' c then some deviceParameter
    else if isBetween ' ' '/' c then some deviceIntermediate
    else some device
  | deviceParameter, c =>
    if isBetween '<' '~' c then some string
    else if isBetween ' ' '/' c then some deviceIntermediate
    else some deviceParameter
  | deviceIntermediate, c => if isBetween '0' '~' c then some string else some deviceIntermediate
  | string, c => if holdsTerminator c then none else some string
  | command, c => if c == '\x07' then none else some command

/-- Whether layout inside the sequence is carried out rather than taken as a part of it. -/
def keepsLayout : Sequence → Bool
  | escape | escapeIntermediate | control => true
  | device | deviceParameter | deviceIntermediate | string | command => false

end Sequence

/-- Where a reader stands. Layout inside a sequence interrupts it: text follows, and the sequence
goes on at the next control character, unless a character beyond ASCII comes first. -/
inductive Reader where
  | text (interrupted : Option Sequence)
  | within (sequence : Sequence)
deriving DecidableEq, Repr

namespace Reader

/-- The start of a text. -/
def start : Reader := text none

/-- The reader in a sequence, or in the text behind it. -/
def ofSequence : Option Sequence → Reader
  | none => start
  | some s => within s

/-- The reader after a character, and whether the character is kept. An escape character opens a
sequence anywhere; the characters `CAN` and `SUB` end every sequence. -/
def step (r : Reader) (c : Char) : Reader × Bool :=
  if c == '\x1b' then (within .escape, false)
  else if c == '\x18' || c == '\x1a' then (start, false)
  else
    match r with
    | text interrupted =>
      if isLayout c then (text interrupted, true)
      else if isControl c then (ofSequence interrupted, false)
      else if c.toNat < 0x80 then (text interrupted, true)
      else (start, true)
    | within s =>
      if isLayout c && s.keepsLayout then (text (some s), true)
      else (ofSequence (s.next? c), false)

/-- The characters that are kept. -/
def keep (r : Reader) : List Char → List Char
  | [] => []
  | c :: cs =>
    match r.step c with
    | (r, true) => c :: r.keep cs
    | (r, false) => r.keep cs

end Reader

/-- A text without control sequences and without control characters other than layout. -/
def strip (text : String) : String := String.ofList (Reader.start.keep text.toList)

example : strip "\x1b[1;31mred\x1b[0m" = "red" := by decide +kernel
example : strip "a\x1b]0;title\x07b\x0bc\td" = "abc\td" := by decide +kernel
example : strip "a\x1b[3\n1mb" = "a\n1mb" := by decide +kernel

end RegAlloc.Text.Control
