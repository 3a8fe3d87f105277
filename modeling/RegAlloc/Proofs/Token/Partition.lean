import RegAlloc.Proofs.Token.Lexeme

/-!
# The parts of a text

`Cut` says how a text is cut from its start: layout, a token, layout, a token, and so on, each token
as long as it can be and with the place where it stands. A text has tokens just if it can be cut up
to its last layout; otherwise it can be cut up to the `Fault` that is reported.
-/

namespace RegAlloc

namespace Lexer

/-! ## Steps of the lexer -/

theorem tokens_of_skip_error {p : Position} {cs : List Char} {e : LexError}
    (h : skip .between p cs = .error e) : tokens p cs = .error e := by
  rw [tokens]
  split <;> simp_all

theorem tokens_of_skip_nil {p q : Position} {cs : List Char}
    (h : skip .between p cs = .ok (q, [])) : tokens p cs = .ok [Token.eof q] := by
  rw [tokens]
  split <;> simp_all

theorem tokens_of_first_error {p q : Position} {c : Char} {cs rest : List Char} {e : LexError}
    (h : skip .between p cs = .ok (q, c :: rest)) (hfirst : first q c rest = .error e) :
    tokens p cs = .error e := by
  rw [tokens]
  split <;> simp_all
  split <;> simp_all

theorem tokens_of_first {p q : Position} {c : Char} {cs rest text : List Char} {t : Token}
    (h : skip .between p cs = .ok (q, c :: rest)) (hfirst : first q c rest = .ok (t, text)) :
    tokens p cs =
      (tokens (q.advance text) ((c :: rest).drop text.length)).map (t :: ·) := by
  rw [tokens]
  split <;> simp_all
  split <;> simp_all

/-- Layout and a token, and then the rest of the text. -/
theorem tokens_token {kind : Kind} {gap text rest : List Char} (hgap : Layout gap)
    (hkind : Lexeme kind text) (hmaximal : Maximal text rest) (p : Position) :
    tokens p (gap ++ (text ++ rest)) =
      (tokens (p.advance (gap ++ text)) rest).map
        (⟨kind, String.ofList text, p.advance gap⟩ :: ·) := by
  have hbare := hkind.lexical.bare rest
  obtain ⟨c, cs, rfl⟩ := List.exists_cons_of_ne_nil hkind.lexical.ne_nil
  have hskip : skip .between p (gap ++ (c :: cs ++ rest)) =
      .ok (p.advance gap, c :: (cs ++ rest)) := by
    rw [skip_layout hgap, skip_bare hbare]
    rfl
  rw [tokens_of_first hskip (first_of_lexeme hkind hmaximal _), Position.advance_append]
  simp

theorem tokens_end {gap : List Char} (hgap : FinalLayout gap) (p : Position) :
    tokens p gap = .ok [Token.eof (p.advance gap)] :=
  tokens_of_skip_nil (skip_finalLayout hgap p)

/-- Why no token starts at `p`: a comment that does not end, a word that starts with an underscore
and is no directive, or a character that starts neither a token nor layout. -/
inductive Fault (p : Position) : List Char → LexError → Prop where
  | comment {body : List Char} : Unclosed body →
      Fault p ('/' :: '*' :: body) (.unterminatedComment p)
  | directive {word rest : List Char} : word.head? = some '_' → word ∉ directives →
      Maximal word rest → Fault p (word ++ rest) (.unknownDirective (String.ofList word) p)
  | char {c : Char} {rest : List Char} : Bare (c :: rest) →
      (∀ text, text <+: c :: rest → ¬ Lexical text) → Fault p (c :: rest) (.unexpectedChar c p)

theorem tokens_fault {gap rest : List Char} {p : Position} {e : LexError} (hgap : Layout gap)
    (h : Fault (p.advance gap) rest e) : tokens p (gap ++ rest) = .error e := by
  cases h with
  | comment hbody =>
      apply tokens_of_skip_error
      rw [skip_layout hgap, skip, skip_unclosed hbody]
  | @directive word rest hhead hdirective hmaximal =>
      have hbare := hmaximal.1.bare rest
      obtain ⟨cs, rfl⟩ := List.head?_eq_some_iff.mp hhead
      have hskip : skip .between p (gap ++ ('_' :: cs ++ rest)) =
          .ok (p.advance gap, '_' :: (cs ++ rest)) := by
        rw [skip_layout hgap, skip_bare hbare]
        rfl
      exact tokens_of_first_error hskip (first_of_underscore hmaximal rfl hdirective _)
  | @char c rest hbare hnone =>
      have hskip := skip_layout hgap p (c :: rest)
      rw [skip_bare hbare] at hskip
      exact tokens_of_first_error hskip (first_of_stray hnone _)

/-! ## Whole texts -/

/-- The text `before ++ rest` is cut up to `before` into layout and the tokens `ts`. -/
inductive Cut : List Char → List Token → List Char → Prop where
  | start (text : List Char) : Cut [] [] text
  | token {before gap text rest : List Char} {ts : List Token} {kind : Kind} :
      Cut before ts (gap ++ (text ++ rest)) → Layout gap → Lexeme kind text → Maximal text rest →
      Cut (before ++ gap ++ text)
        (ts ++ [⟨kind, String.ofList text, .after (before ++ gap)⟩]) rest

theorem Cut.tokens_eq {before rest : List Char} {ts : List Token} (h : Cut before ts rest) :
    tokens {} (before ++ rest) = (tokens (.after before) rest).map (ts ++ ·) := by
  induction h with
  | start text =>
      rw [List.nil_append]
      change tokens {} text = (tokens {} text).map id
      cases tokens {} text <;> rfl
  | @token before gap text rest ts kind _ hgap hkind hmaximal ih =>
      have heq : before ++ gap ++ text ++ rest = before ++ (gap ++ (text ++ rest)) := by simp
      rw [heq, ih, tokens_token hgap hkind hmaximal, ← Position.after_append,
        ← Position.after_append, ← List.append_assoc]
      cases tokens (.after (before ++ gap ++ text)) rest <;> simp [Except.map]

/-- A text that is cut up to some place can be cut further, up to its end or to a fault. -/
theorem Cut.exists_end {before rest : List Char} {ts : List Token} (h : Cut before ts rest) :
    ∃ before' us rest', before ++ rest = before' ++ rest' ∧ Cut before' us rest' ∧
      (FinalLayout rest' ∨ ∃ gap stop e, rest' = gap ++ stop ∧ Layout gap ∧
        Fault (.after (before' ++ gap)) stop e) := by
  induction hlength : rest.length using Nat.strongRecOn generalizing before ts rest with
  | ind n ih =>
      obtain ⟨gap, stop, rfl, hgap, hbare | ⟨body, rfl, hbody⟩ | ⟨body, rfl, hbody⟩⟩ :=
        exists_layout rest
      · cases stop with
        | nil =>
            rw [List.append_nil] at h ⊢
            exact ⟨before, ts, gap, rfl, h, Or.inl (Or.inl hgap)⟩
        | cons c cs =>
            rcases first_cases c cs with
              ⟨kind, text, after, heq, hkind, hmaximal⟩ |
              ⟨word, after, heq, hhead, hdirective, hmaximal⟩ | hnone
            · rw [heq] at h hlength ⊢
              have hpos := List.length_pos_iff.mpr hkind.lexical.ne_nil
              have hlt : after.length < n := by
                simp only [List.length_append] at hlength
                omega
              obtain ⟨before', us, rest', hsplit, hcut, hend⟩ :=
                ih _ hlt (h.token hgap hkind hmaximal) rfl
              exact ⟨before', us, rest', by simpa using hsplit, hcut, hend⟩
            · rw [heq] at h ⊢
              exact ⟨before, ts, _, rfl, h,
                Or.inr ⟨gap, _, _, rfl, hgap, .directive hhead hdirective hmaximal⟩⟩
            · exact ⟨before, ts, _, rfl, h, Or.inr ⟨gap, _, _, rfl, hgap, .char hbare hnone⟩⟩
      · exact ⟨before, ts, _, rfl, h, Or.inl (Or.inr ⟨gap, body, rfl, hgap, hbody⟩)⟩
      · exact ⟨before, ts, _, rfl, h, Or.inr ⟨gap, _, _, rfl, hgap, .comment hbody⟩⟩

theorem Lexeme.ne_eof {kind : Kind} {text : List Char} (h : Lexeme kind text) : kind ≠ .eof := by
  cases h <;> simp

theorem Cut.lexeme {before rest : List Char} {ts : List Token} (h : Cut before ts rest) :
    ∀ t ∈ ts, Lexeme t.kind t.text.toList := by
  induction h with
  | start _ => simp
  | @token before gap text rest ts kind _ _ hkind _ ih =>
      intro t ht
      rcases List.mem_append.mp ht with ht | ht
      · exact ih t ht
      · rw [List.mem_singleton.mp ht, String.toList_ofList]
        exact hkind

theorem Cut.tokenize_end {text : String} {before gap : List Char} {ts : List Token}
    (h : Cut before ts gap) (htext : text.toList = before ++ gap) (hgap : FinalLayout gap) :
    tokenize text = .ok (ts ++ [Token.eof (.after text.toList)]) := by
  rw [tokenize, htext, h.tokens_eq, tokens_end hgap, ← Position.after_append]
  rfl

theorem Cut.tokenize_fault {text : String} {before gap stop : List Char} {ts : List Token}
    {e : LexError} (h : Cut before ts (gap ++ stop)) (htext : text.toList = before ++ gap ++ stop)
    (hgap : Layout gap) (hfault : Fault (.after (before ++ gap)) stop e) :
    tokenize text = .error e := by
  rw [Position.after_append] at hfault
  rw [tokenize, htext, List.append_assoc, h.tokens_eq, tokens_fault hgap hfault]
  rfl

theorem exists_cut_of_tokenize {text : String} {ts : List Token} (h : tokenize text = .ok ts) :
    ∃ before us gap, text.toList = before ++ gap ∧ Cut before us gap ∧ FinalLayout gap ∧
      ts = us ++ [Token.eof (.after text.toList)] := by
  obtain ⟨before, us, rest, htext, hcut, hgap | ⟨gap, stop, e, rfl, hgap, hfault⟩⟩ :=
    (Cut.start text.toList).exists_end
  · rw [hcut.tokenize_end htext hgap] at h
    exact ⟨before, us, rest, htext, hcut, hgap, (Except.ok.inj h).symm⟩
  · rw [← List.append_assoc] at htext
    rw [hcut.tokenize_fault htext hgap hfault] at h
    cases h

theorem exists_fault_of_tokenize {text : String} {e : LexError} (h : tokenize text = .error e) :
    ∃ before us gap stop, text.toList = before ++ gap ++ stop ∧ Cut before us (gap ++ stop) ∧
      Layout gap ∧ Fault (.after (before ++ gap)) stop e := by
  obtain ⟨before, us, rest, htext, hcut, hgap | ⟨gap, stop, e', rfl, hgap, hfault⟩⟩ :=
    (Cut.start text.toList).exists_end
  · rw [hcut.tokenize_end htext hgap] at h
    cases h
  · rw [← List.append_assoc] at htext
    rw [hcut.tokenize_fault htext hgap hfault] at h
    cases h
    exact ⟨before, us, gap, stop, htext, hcut, hgap, hfault⟩

end Lexer

/-- A text has tokens just if it can be cut up to its last layout, with the end of the text after
the tokens. It is refused just if it can be cut up to a fault, which is reported with its place. -/
theorem tokenize_cuts_text (text : String) :
    (∀ ts, tokenize text = .ok ts ↔
      ∃ before us gap, text.toList = before ++ gap ∧ Lexer.Cut before us gap ∧
        Lexer.FinalLayout gap ∧
        (∀ t ∈ us, t.kind ≠ .eof ∧ ∀ kind, Lexer.Lexeme kind t.text.toList ↔ kind = t.kind) ∧
        ts = us ++ [Token.eof (.after text.toList)]) ∧
    (∀ e, tokenize text = .error e ↔
      ∃ before us gap stop, text.toList = before ++ gap ++ stop ∧
        Lexer.Cut before us (gap ++ stop) ∧ Lexer.Layout gap ∧
        Lexer.Fault (.after (before ++ gap)) stop e) := by
  refine ⟨fun ts => ⟨fun hts => ?_, ?_⟩, fun e => ⟨Lexer.exists_fault_of_tokenize, ?_⟩⟩
  · obtain ⟨before, us, gap, htext, hcut, hgap, heq⟩ := Lexer.exists_cut_of_tokenize hts
    refine ⟨before, us, gap, htext, hcut, hgap, fun t ht => ?_, heq⟩
    have hkind := hcut.lexeme t ht
    exact ⟨hkind.ne_eof, fun kind => ⟨fun h => h.unique hkind, fun h => h ▸ hkind⟩⟩
  · rintro ⟨before, us, gap, htext, hcut, hgap, _, rfl⟩
    exact hcut.tokenize_end htext hgap
  · rintro ⟨before, us, gap, stop, htext, hcut, hgap, hfault⟩
    exact hcut.tokenize_fault htext hgap hfault

/-- The slash of `/*/` ends no comment, so one text has a comment between its tokens and the other
does not end its comment. -/
theorem cuts_of_slash_in_comment :
    (∃ before us gap, "add/*/\n*/-4//".toList = before ++ gap ∧ Lexer.Cut before us gap ∧
      Lexer.FinalLayout gap ∧ us = [⟨.mnemonic .add, "add", ⟨1, 1⟩⟩, ⟨.number, "-4", ⟨2, 3⟩⟩]) ∧
    ∃ before us gap stop, "add\n /*/".toList = before ++ gap ++ stop ∧
      Lexer.Cut before us (gap ++ stop) ∧ Lexer.Layout gap ∧
      Lexer.Fault (.after (before ++ gap)) stop (.unterminatedComment ⟨2, 2⟩) := by
  constructor
  · have hts : tokenize "add/*/\n*/-4//" = .ok ([⟨.mnemonic .add, "add", ⟨1, 1⟩⟩,
        ⟨.number, "-4", ⟨2, 3⟩⟩] ++ [Token.eof ⟨2, 7⟩]) := by decide +kernel
    obtain ⟨before, us, gap, htext, hcut, hgap, _, heq⟩ := ((tokenize_cuts_text _).1 _).mp hts
    exact ⟨before, us, gap, htext, hcut, hgap, (List.append_inj_left' heq rfl).symm⟩
  · have he : tokenize "add\n /*/" = .error (.unterminatedComment ⟨2, 2⟩) := by decide +kernel
    exact ((tokenize_cuts_text _).2 _).mp he

end RegAlloc
