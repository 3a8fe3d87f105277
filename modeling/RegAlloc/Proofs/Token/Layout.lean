import Mathlib.Data.List.Induction
import RegAlloc.Token.Lexer

/-!
# Layout

What may stand between the tokens of a text: blanks, comments from `//` through the end of their
line, and comments from `/*` through the next `*/`. Every text is layout and then something else,
and `Lexer.skip` skips just the layout.
-/

namespace RegAlloc

/-! ## Places -/

namespace Position

/-- The place after `cs` in a text that starts with `cs`. -/
def after (cs : List Char) : Position :=
  ⟨1 + cs.count '\n', 1 + (cs.reverse.takeWhile (· != '\n')).length⟩

theorem advance_append (p : Position) (cs ds : List Char) :
    p.advance (cs ++ ds) = (p.advance cs).advance ds :=
  List.foldl_append

theorem after_append_singleton (cs : List Char) (c : Char) :
    after (cs ++ [c]) = (after cs).next c := by
  by_cases hc : c = '\n'
  · subst hc
    simp [after, next, Nat.add_assoc]
  · simp [after, next, hc, Nat.add_comm]

theorem after_append (cs ds : List Char) : after (cs ++ ds) = (after cs).advance ds := by
  induction ds generalizing cs with
  | nil => rw [List.append_nil]; rfl
  | cons d ds ih =>
      rw [List.append_cons, ih, after_append_singleton]
      rfl

end Position

namespace Lexer

/-! ## The grammar of layout -/

/-- A comment that starts with `/*` does not end in `cs`. -/
def Unclosed (cs : List Char) : Prop := ¬ ['*', '/'] <:+: cs

instance : DecidablePred Unclosed := fun cs => inferInstanceAs (Decidable (¬ ['*', '/'] <:+: cs))

/-- Blanks and comments that end. -/
inductive Layout : List Char → Prop where
  | nil : Layout []
  | blank {c : Char} {cs : List Char} : Text.isBlank c = true → Layout cs → Layout (c :: cs)
  | line {body cs : List Char} : '\n' ∉ body → Layout cs →
      Layout ('/' :: '/' :: (body ++ '\n' :: cs))
  | block {body cs : List Char} : Unclosed body → Layout cs →
      Layout ('/' :: '*' :: (body ++ '*' :: '/' :: cs))

/-- Layout up to the end of a text, where a line may end as well. -/
def FinalLayout (cs : List Char) : Prop :=
  Layout cs ∨ ∃ front body, cs = front ++ '/' :: '/' :: body ∧ Layout front ∧ '\n' ∉ body

/-- No layout starts here. -/
def Bare : List Char → Prop
  | [] => True
  | c :: cs => Text.isBlank c = false ∧
    ¬ (c = '/' ∧ (cs.head? = some '/' ∨ cs.head? = some '*'))

theorem unclosed_cons {c : Char} {cs : List Char} :
    Unclosed (c :: cs) ↔ ¬ (c = '*' ∧ cs.head? = some '/') ∧ Unclosed cs := by
  have hclose : ['*', '/'] <+: c :: cs ↔ c = '*' ∧ cs.head? = some '/' := by
    cases cs with
    | nil => simp
    | cons d cs => simp [List.cons_prefix_cons, eq_comm]
  rw [Unclosed, Unclosed, List.infix_cons_iff, hclose, not_or]

/-- The first end of a comment. -/
theorem exists_close {cs : List Char} (h : ¬ Unclosed cs) :
    ∃ body rest, cs = body ++ '*' :: '/' :: rest ∧ Unclosed body := by
  induction cs with
  | nil => exact absurd (by simp [Unclosed]) h
  | cons c cs ih =>
      by_cases hclose : c = '*' ∧ cs.head? = some '/'
      · obtain ⟨rfl, hhead⟩ := hclose
        obtain ⟨rest, rfl⟩ := List.head?_eq_some_iff.mp hhead
        exact ⟨[], rest, rfl, by simp [Unclosed]⟩
      · rw [unclosed_cons, not_and_or, not_not] at h
        obtain ⟨body, rest, rfl, hbody⟩ := ih (h.resolve_left hclose)
        refine ⟨c :: body, rest, rfl, unclosed_cons.mpr ⟨fun ⟨hc, hhead⟩ => hclose ⟨hc, ?_⟩, hbody⟩⟩
        obtain ⟨tail, rfl⟩ := List.head?_eq_some_iff.mp hhead
        rfl

/-- What follows layout: a bare text, a line comment up to the end of the text, or a comment that
does not end. -/
def AfterLayout (cs : List Char) : Prop :=
  Bare cs ∨ (∃ body, cs = '/' :: '/' :: body ∧ '\n' ∉ body) ∨
    ∃ body, cs = '/' :: '*' :: body ∧ Unclosed body

theorem exists_layout (cs : List Char) :
    ∃ gap rest, cs = gap ++ rest ∧ Layout gap ∧ AfterLayout rest := by
  induction hlength : cs.length using Nat.strongRecOn generalizing cs with
  | ind n ih =>
      -- layout before the rest of the text, or no layout at all
      have hmore : ∀ {front rest}, cs = front ++ rest → front ≠ [] →
          (∀ gap, Layout gap → Layout (front ++ gap)) →
          ∃ gap rest, cs = gap ++ rest ∧ Layout gap ∧ AfterLayout rest := by
        intro front rest heq hfront hlayout
        have hpos := List.length_pos_iff.mpr hfront
        have hlt : rest.length < n := by
          rw [← hlength, heq, List.length_append]
          omega
        obtain ⟨gap, rest', rfl, hgap, hrest'⟩ := ih _ hlt rest rfl
        exact ⟨front ++ gap, rest', by rw [heq, List.append_assoc], hlayout gap hgap, hrest'⟩
      have hnone : AfterLayout cs → ∃ gap rest, cs = gap ++ rest ∧ Layout gap ∧ AfterLayout rest :=
        fun hcs => ⟨[], cs, rfl, .nil, hcs⟩
      cases cs with
      | nil => exact hnone (Or.inl trivial)
      | cons c cs =>
          by_cases hline : c = '/' ∧ cs.head? = some '/'
          · obtain ⟨rfl, hhead⟩ := hline
            obtain ⟨cs, rfl⟩ := List.head?_eq_some_iff.mp hhead
            by_cases hnewline : '\n' ∈ cs
            · obtain ⟨body, rest, rfl, hbody⟩ := List.eq_append_cons_of_mem hnewline
              refine @hmore ('/' :: '/' :: (body ++ ['\n'])) rest (by simp) (by simp) ?_
              intro gap hgap
              simpa using Layout.line hbody hgap
            · exact hnone (Or.inr (Or.inl ⟨cs, rfl, hnewline⟩))
          · by_cases hblock : c = '/' ∧ cs.head? = some '*'
            · obtain ⟨rfl, hhead⟩ := hblock
              obtain ⟨cs, rfl⟩ := List.head?_eq_some_iff.mp hhead
              by_cases hclosed : Unclosed cs
              · exact hnone (Or.inr (Or.inr ⟨cs, rfl, hclosed⟩))
              · obtain ⟨body, rest, rfl, hbody⟩ := exists_close hclosed
                refine @hmore ('/' :: '*' :: (body ++ ['*', '/'])) rest (by simp) (by simp) ?_
                intro gap hgap
                simpa using Layout.block hbody hgap
            · cases hblank : Text.isBlank c with
              | true =>
                  exact @hmore [c] cs rfl (by simp) fun gap hgap => .blank hblank hgap
              | false =>
                  refine hnone (Or.inl ⟨hblank, ?_⟩)
                  rintro ⟨hc, hhead | hhead⟩
                  · exact hline ⟨hc, hhead⟩
                  · exact hblock ⟨hc, hhead⟩

/-! ## Skipping -/

theorem skip_line {body : List Char} (h : '\n' ∉ body) (p : Position) (cs : List Char) :
    skip .line p (body ++ '\n' :: cs) = skip .between (p.advance (body ++ ['\n'])) cs := by
  induction body generalizing p with
  | nil => simp [skip, Position.advance]
  | cons c body ih =>
      rw [List.mem_cons, not_or] at h
      rw [List.cons_append, skip, if_neg (Ne.symm h.1), ih h.2]
      rfl

theorem skip_line_end {body : List Char} (h : '\n' ∉ body) (p : Position) :
    skip .line p body = .ok (p.advance body, []) := by
  induction body generalizing p with
  | nil => simp [skip, Position.advance]
  | cons c body ih =>
      rw [List.mem_cons, not_or] at h
      rw [skip, if_neg (Ne.symm h.1), ih h.2]
      rfl

theorem skip_block {body : List Char} (h : Unclosed body) (start p : Position) (cs : List Char) :
    skip (.block start) p (body ++ '*' :: '/' :: cs) =
      skip .between (p.advance (body ++ ['*', '/'])) cs := by
  induction body generalizing p with
  | nil => simp [skip, Position.advance]
  | cons c body ih =>
      obtain ⟨hclose, hbody⟩ := unclosed_cons.mp h
      rw [List.cons_append, skip_block_cons, ih hbody]
      · rfl
      · rintro ⟨hc, hhead⟩
        cases body with
        | nil => simp at hhead
        | cons d body => exact hclose ⟨hc, hhead⟩

theorem skip_unclosed {body : List Char} (h : Unclosed body) (start p : Position) :
    skip (.block start) p body = .error (.unterminatedComment start) := by
  induction body generalizing p with
  | nil => simp [skip]
  | cons c body ih =>
      obtain ⟨hclose, hbody⟩ := unclosed_cons.mp h
      rw [skip_block_cons hclose, ih hbody]

theorem ne_slash_of_isBlank {c : Char} (h : Text.isBlank c = true) : c ≠ '/' := by
  rintro rfl
  revert h
  decide

theorem skip_blank {c : Char} (h : Text.isBlank c = true) (p : Position) (cs : List Char) :
    skip .between p (c :: cs) = skip .between (p.next c) cs := by
  have hc := ne_slash_of_isBlank h
  rw [skip]
  · rw [if_pos h]
  · intro rest heq _
    exact hc heq
  · intro rest heq _
    exact hc heq

theorem skip_layout {gap : List Char} (h : Layout gap) (p : Position) (cs : List Char) :
    skip .between p (gap ++ cs) = skip .between (p.advance gap) cs := by
  induction h generalizing p with
  | nil => rfl
  | blank hblank _ ih =>
      rw [List.cons_append, skip_blank hblank, ih]
      rfl
  | @line body gap hbody _ ih =>
      have heq : '/' :: '/' :: (body ++ '\n' :: gap) ++ cs =
          '/' :: '/' :: (body ++ '\n' :: (gap ++ cs)) := by simp
      rw [heq, skip, skip_line hbody, ih]
      simp [Position.advance]
  | @block body gap hbody _ ih =>
      have heq : '/' :: '*' :: (body ++ '*' :: '/' :: gap) ++ cs =
          '/' :: '*' :: (body ++ '*' :: '/' :: (gap ++ cs)) := by simp
      rw [heq, skip, skip_block hbody, ih]
      simp [Position.advance]

theorem skip_bare {cs : List Char} (h : Bare cs) (p : Position) :
    skip .between p cs = .ok (p, cs) := by
  cases cs with
  | nil => rfl
  | cons c cs =>
      obtain ⟨hblank, hcomment⟩ := h
      rw [skip]
      · simp [hblank]
      · intro rest hc hcs
        exact hcomment ⟨hc, Or.inl (by simp [hcs])⟩
      · intro rest hc hcs
        exact hcomment ⟨hc, Or.inr (by simp [hcs])⟩

theorem skip_finalLayout {cs : List Char} (h : FinalLayout cs) (p : Position) :
    skip .between p cs = .ok (p.advance cs, []) := by
  rcases h with h | ⟨front, body, rfl, hfront, hbody⟩
  · have hskip := skip_layout h p []
    rwa [List.append_nil] at hskip
  · rw [skip_layout hfront, skip, skip_line_end hbody, Position.advance_append]
    rfl

end Lexer

end RegAlloc
