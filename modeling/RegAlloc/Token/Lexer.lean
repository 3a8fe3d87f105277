import RegAlloc.Text.Blank
import RegAlloc.Token

/-!
# Tokens of a source text

`tokenize` cuts a text into tokens. Between tokens it skips gaps: blank characters, comments from
`//` to the end of the line, and comments from `/*` to the next `*/`. A token is the longest one
that starts where a gap ends.
-/

namespace RegAlloc

/-- Why a text has no tokens. -/
inductive LexError where
  | unexpectedChar (char : Char) (pos : Position)
  | unknownDirective (word : String) (pos : Position)
  | unterminatedComment (start : Position)
deriving DecidableEq, Repr

def LexError.message : LexError → String
  | unexpectedChar char pos => s!"Unexpected character '{char}' at {pos.render}"
  | unknownDirective word pos => s!"Unknown directive '{word}' at {pos.render}"
  | unterminatedComment start => s!"Unterminated block comment starting at {start.render}"

namespace Lexer

/-! ### Gaps -/

/-- Where in a gap the reader stands. -/
inductive Gap where
  | between
  | line
  | block (start : Position)
deriving DecidableEq, Repr

/-- Skips the rest of a gap. Gives the place and the text where a token or the end follows. -/
def skip : Gap → Position → List Char → Except LexError (Position × List Char)
  | .between, p, [] => .ok (p, [])
  | .between, p, '/' :: '/' :: cs => skip .line (p.advance ['/', '/']) cs
  | .between, p, '/' :: '*' :: cs => skip (.block p) (p.advance ['/', '*']) cs
  | .between, p, c :: cs =>
    if Text.isBlank c then skip .between (p.next c) cs else .ok (p, c :: cs)
  | .line, p, [] => .ok (p, [])
  | .line, p, c :: cs => skip (if c = '\n' then .between else .line) (p.next c) cs
  | .block start, _, [] => .error (.unterminatedComment start)
  | .block _, p, '*' :: '/' :: cs => skip .between (p.advance ['*', '/']) cs
  | .block start, p, c :: cs => skip (.block start) (p.next c) cs

/-- What follows a gap is part of the text. -/
theorem length_of_skip {gap : Gap} {p q : Position} {cs ds : List Char}
    (h : skip gap p cs = .ok (q, ds)) : ds.length ≤ cs.length := by
  fun_induction skip gap p cs <;> grind

/-- One character of a comment. -/
theorem skip_block_cons {c : Char} {cs : List Char} (h : ¬ (c = '*' ∧ cs.head? = some '/'))
    (start p : Position) : skip (.block start) p (c :: cs) = skip (.block start) (p.next c) cs := by
  rw [skip]
  intro rest hc hcs
  exact h ⟨hc, by simp [hcs]⟩

/-! ### Words -/

/-- Characters that start a word. -/
def startsWord (c : Char) : Bool := c.isAlpha || c == '_'

/-- Characters that continue a word. -/
def continuesWord (c : Char) : Bool := c.isAlphanum || c == '_'

/-- The longest token text at the start of `cs`, empty if no token starts there. -/
def longest : List Char → List Char
  | [] => []
  | c :: cs =>
    if (Kind.ofMark? c).isSome then [c]
    else if c.isDigit then c :: cs.takeWhile Char.isDigit
    else if c = '-' then
      match cs.takeWhile Char.isDigit with
      | [] => []
      | digits => c :: digits
    else if startsWord c then c :: cs.takeWhile continuesWord
    else []

/-- The token that starts a text without a leading gap, and its text. -/
def first (p : Position) (c : Char) (cs : List Char) : Except LexError (Token × List Char) :=
  match longest (c :: cs) with
  | [] => .error (.unexpectedChar c p)
  | text =>
    match Kind.ofText? text with
    | none => .error (.unknownDirective (String.ofList text) p)
    | some kind => .ok (⟨kind, String.ofList text, p⟩, text)

theorem ne_nil_of_first {p : Position} {c : Char} {cs text : List Char} {t : Token}
    (h : first p c cs = .ok (t, text)) : text ≠ [] := by
  unfold first at h
  split at h
  · cases h
  · split at h
    · cases h
    · simp_all

/-! ### Texts -/

/-- The tokens of a text that starts at `p`. The last one marks the end of the text. -/
def tokens (p : Position) (cs : List Char) : Except LexError (List Token) :=
  match _skipped : skip .between p cs with
  | .error e => .error e
  | .ok (p, []) => .ok [Token.eof p]
  | .ok (p, c :: rest) =>
    match _read : first p c rest with
    | .error e => .error e
    | .ok (token, text) =>
      (tokens (p.advance text) ((c :: rest).drop text.length)).map (token :: ·)
termination_by cs.length
decreasing_by
  have := length_of_skip _skipped
  have := List.length_pos_iff.mpr (ne_nil_of_first _read)
  grind

end Lexer

/-- The tokens of a source text. -/
def tokenize (text : String) : Except LexError (List Token) := Lexer.tokens {} text.toList

end RegAlloc
