import RegAlloc.Proofs.Safety.Access
import RegAlloc.Proofs.Token.Partition
import Mathlib.Algebra.GroupWithZero.Nat

/-!
# Slices of a source text

The text of a token is cut out of the source text between two byte offsets. Both are boundaries of
characters, and the second is not before the first.
-/

namespace RegAlloc

/-! ## Slices -/

namespace Text

/-- Number of bytes of some characters. -/
def byteCount (cs : List Char) : Nat := (cs.map Char.utf8Size).sum

/-- Cuts a text after `n` bytes, if they end with a character. -/
def splitBytes? : Nat → List Char → Option (List Char × List Char)
  | 0, cs => some ([], cs)
  | _ + 1, [] => none
  | n + 1, c :: cs =>
    if c.utf8Size ≤ n + 1 then
      (splitBytes? (n + 1 - c.utf8Size) cs).map fun (front, rest) => (c :: front, rest)
    else none

/-- The characters from byte `start` to byte `stop`. There are none if one of the two lies inside a
character or behind the text, or if they are in the wrong order. -/
def slice? (cs : List Char) (start stop : Nat) : Option (List Char) :=
  if start ≤ stop then do
    let (_, rest) ← splitBytes? start cs
    let (word, _) ← splitBytes? (stop - start) rest
    return word
  else none

theorem byteCount_cons (c : Char) (cs : List Char) :
    byteCount (c :: cs) = c.utf8Size + byteCount cs := rfl

theorem byteCount_append (cs ds : List Char) :
    byteCount (cs ++ ds) = byteCount cs + byteCount ds := by
  simp [byteCount]

theorem splitBytes?_append (cs ds : List Char) :
    splitBytes? (byteCount cs) (cs ++ ds) = some (cs, ds) := by
  induction cs with
  | nil => cases ds <;> rfl
  | cons c cs ih =>
      cases hcount : byteCount (c :: cs) with
      | zero => exact absurd hcount (Nat.ne_of_gt (Nat.add_pos_left c.utf8Size_pos _))
      | succ n =>
          have hle : c.utf8Size ≤ n + 1 := hcount ▸ Nat.le_add_right _ _
          have hrest : n + 1 - c.utf8Size = byteCount cs := by
            rw [← hcount, byteCount_cons, Nat.add_sub_cancel_left]
          rw [List.cons_append, splitBytes?, if_pos hle, hrest, ih]
          rfl

theorem slice?_append (front word rest : List Char) :
    slice? (front ++ (word ++ rest)) (byteCount front) (byteCount front + byteCount word) =
      some word := by
  simp [slice?, splitBytes?_append]

end Text

/-! ## Tokens -/

namespace Checked

/-- The byte at which the rest `cs` of a text begins. -/
def offset (text cs : List Char) : Nat := Text.byteCount text - Text.byteCount cs

/-- The token at the start of `c :: cs`, with its text cut out of the whole text. -/
def firstToken (text : List Char) (p : Position) (c : Char) (cs : List Char) :
    Checked LexError (Token × List Char) :=
  let start := offset text (c :: cs)
  match Kind.ofMark? c with
  | some kind => do
    let word ← Text.slice? text start (start + 1)
    return (⟨kind, String.ofList word, p⟩, [c])
  | none =>
    match Lexer.longest (c :: cs) with
    | [] => throw (.unexpectedChar c p)
    | taken => do
      let word ← Text.slice? text start (offset text ((c :: cs).drop taken.length))
      match Kind.ofText? word with
      | none => throw (.unknownDirective (String.ofList word) p)
      | some kind => return (⟨kind, String.ofList word, p⟩, taken)

/-- The tokens of the rest `cs` of a text. -/
def tokens (text : List Char) (p : Position) (cs : List Char) : Checked LexError (List Token) :=
  match _skipped : Lexer.skip .between p cs with
  | .error e => throw e
  | .ok (p, []) => return [Token.eof p]
  | .ok (p, c :: rest) => do
    let (token, taken) ← firstToken text p c rest
    let ts ← tokens text (p.advance taken) (rest.drop (taken.length - 1))
    return token :: ts
termination_by cs.length
decreasing_by
  have := Lexer.length_of_skip _skipped
  grind

/-- The tokens of a source text. -/
def tokenize (text : String) : Checked LexError (List Token) := tokens text.toList {} text.toList

theorem offset_append (front rest : List Char) :
    offset (front ++ rest) rest = Text.byteCount front := by
  rw [offset, Text.byteCount_append, Nat.add_sub_cancel]

/-- The bytes between two places of a text are the characters between them. -/
theorem slice?_offset (front word rest : List Char) :
    Text.slice? (front ++ (word ++ rest)) (offset (front ++ (word ++ rest)) (word ++ rest))
      (offset (front ++ (word ++ rest)) rest) = some word := by
  rw [offset_append, ← List.append_assoc, offset_append, Text.byteCount_append, List.append_assoc]
  exact Text.slice?_append front word rest

theorem longest_prefix (cs : List Char) : Lexer.longest cs <+: cs := by
  unfold Lexer.longest
  split
  · exact List.prefix_rfl
  · rename_i c cs
    split
    · exact ⟨cs, rfl⟩
    · split
      · exact (List.prefix_cons_inj c).mpr (List.takeWhile_prefix _)
      · split
        · split
          · exact List.nil_prefix
          · rename_i digits _
            exact (List.prefix_cons_inj c).mpr (List.takeWhile_prefix _)
        · split
          · exact (List.prefix_cons_inj c).mpr (List.takeWhile_prefix _)
          · exact List.nil_prefix

theorem utf8Size_of_mark {c : Char} {kind : Kind} (h : Kind.ofMark? c = some kind) :
    c.utf8Size = 1 := by
  unfold Kind.ofMark? at h
  split at h <;> first | rfl | cases h

theorem firstToken_follows {text front : List Char} (p : Position) {c : Char} {cs : List Char}
    (htext : text = front ++ c :: cs) :
    Follows Eq (firstToken text p c cs) (Lexer.first p c cs) := by
  subst htext
  cases hmark : Kind.ofMark? c with
  | some kind =>
      have hfirst : Lexer.first p c cs = .ok (⟨kind, String.ofList [c], p⟩, [c]) := by
        simp [Lexer.first, Lexer.longest, hmark, Kind.ofText?]
      have hslice : Text.slice? (front ++ c :: cs) (offset (front ++ c :: cs) (c :: cs))
          (offset (front ++ c :: cs) (c :: cs) + 1) = some [c] := by
        have hword := Text.slice?_append front [c] cs
        rwa [Text.byteCount_cons, utf8Size_of_mark hmark, ← offset_append front (c :: cs)] at hword
      rw [hfirst]
      simp only [firstToken, hmark]
      exact .access hslice (.ok rfl)
  | none =>
      simp only [firstToken, hmark, Lexer.first]
      obtain ⟨rest, hrest⟩ := longest_prefix (c :: cs)
      cases hlongest : Lexer.longest (c :: cs) with
      | nil => exact .error
      | cons d ds =>
          rw [hlongest] at hrest
          have hslice := slice?_offset front (d :: ds) rest
          rw [hrest] at hslice
          have hdrop : (c :: cs).drop (d :: ds).length = rest := by
            rw [← hrest, List.drop_left]
          rw [← hdrop] at hslice
          refine .access hslice ?_
          dsimp only
          cases Kind.ofText? (d :: ds) with
          | none => exact .error
          | some kind => exact .ok rfl

theorem suffix_of_skip {gap : Lexer.Gap} {p q : Position} {cs ds : List Char}
    (h : Lexer.skip gap p cs = .ok (q, ds)) : ds <:+ cs := by
  have hpair : ∀ (c d : Char) (cs : List Char), cs <:+ c :: d :: cs := fun c d _ => ⟨[c, d], rfl⟩
  fun_induction Lexer.skip gap p cs <;> grind

theorem tokens_eq_bind {p q : Position} {c : Char} {cs rest : List Char}
    (h : Lexer.skip .between p cs = .ok (q, c :: rest)) :
    Lexer.tokens p cs = do
      let (token, taken) ← Lexer.first q c rest
      let ts ← Lexer.tokens (q.advance taken) ((c :: rest).drop taken.length)
      return token :: ts := by
  cases hfirst : Lexer.first q c rest with
  | error e => exact Lexer.tokens_of_first_error h hfirst
  | ok read =>
      rw [Lexer.tokens_of_first h hfirst]
      cases hrest : Lexer.tokens (q.advance read.2) ((c :: rest).drop read.2.length) <;>
        simp [hrest, bind, Except.bind, Except.map, pure, Except.pure]

/-- Every token is cut out of the text, whatever characters stand around it. -/
theorem tokens_follows {text : List Char} {p : Position} {cs : List Char} (hcs : cs <:+ text) :
    Follows Eq (tokens text p cs) (Lexer.tokens p cs) := by
  induction hlength : cs.length using Nat.strongRecOn generalizing p cs with
  | ind n ih =>
      rw [tokens]
      split
      · rename_i e hskip
        rw [Lexer.tokens_of_skip_error hskip]
        exact .error
      · rename_i q hskip
        rw [Lexer.tokens_of_skip_nil hskip]
        exact .ok rfl
      · rename_i q c rest hskip
        have hsuffix := (suffix_of_skip hskip).trans hcs
        obtain ⟨front, hfront⟩ := hsuffix
        rw [tokens_eq_bind hskip]
        refine (firstToken_follows q hfront.symm).bind ?_
        rintro ⟨token, taken⟩ _ hfirst rfl
        obtain ⟨d, ds, rfl⟩ := List.exists_cons_of_ne_nil (Lexer.ne_nil_of_first hfirst)
        have hrest : rest.drop ds.length <:+ text :=
          (List.drop_suffix _ _).trans ((List.suffix_cons c rest).trans ⟨front, hfront⟩)
        have hlt : (rest.drop ds.length).length < n := by
          have hle := Lexer.length_of_skip hskip
          rw [List.length_cons] at hle
          rw [List.length_drop]
          omega
        refine (ih _ hlt hrest rfl).bind ?_
        rintro ts _ _ rfl
        exact .ok rfl

theorem tokenize_follows (text : String) : Follows Eq (tokenize text) (RegAlloc.tokenize text) :=
  tokens_follows (List.suffix_refl _)

end Checked

end RegAlloc
