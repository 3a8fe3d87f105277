import RegAlloc.Proofs.Program.Parsing
import RegAlloc.Proofs.Token.Partition

/-!
# Spacing

The tokens of a text may be set with any layout between them. The new text has the same tokens at
other places, and the reader looks at the places of tokens only to report them.
-/

namespace RegAlloc

/-! ## What is left without places -/

/-- The token as if it stood at the start of a text. -/
def Token.unplaced (t : Token) : Token := { t with pos := {} }

def LexError.unplaced : LexError → LexError
  | unexpectedChar char _ => unexpectedChar char {}
  | unknownDirective word _ => unknownDirective word {}
  | unterminatedComment _ => unterminatedComment {}

def ParseError.unplaced : ParseError → ParseError
  | unexpectedToken expected found => unexpectedToken expected found.unplaced
  | invalidNumber t => invalidNumber t.unplaced
  | undeclaredVariable t => undeclaredVariable t.unplaced
  | e => e

/-- The fault as if it stood at the start of a text. -/
def SourceError.unplaced : SourceError → SourceError
  | lex e => lex e.unplaced
  | parse e => parse e.unplaced
  | build e => build e

/-- The same tokens, possibly at other places. -/
def SameTokens (ts us : List Token) : Prop := ts.map Token.unplaced = us.map Token.unplaced

/-! ## Tokens of spaced texts -/

namespace Lexer

/-- The tokens `ts`, each with layout after it, and with some layout where a token follows. -/
inductive Spaced : List Token → List Char → Prop where
  | nil : Spaced [] []
  | last {t : Token} {gap : List Char} : Layout gap → Spaced [t] (t.text.toList ++ gap)
  | cons {t : Token} {ts : List Token} {gap rest : List Char} : Layout gap → gap ≠ [] →
      Spaced ts rest → Spaced (t :: ts) (t.text.toList ++ (gap ++ rest))

theorem lexeme_of_tokenize {text : String} {ts : List Token} {p : Position}
    (h : tokenize text = .ok (ts ++ [Token.eof p])) : ∀ t ∈ ts, Lexeme t.kind t.text.toList := by
  obtain ⟨before, us, gap, _, hcut, _, heq⟩ := exists_cut_of_tokenize h
  rw [List.append_inj_left' heq rfl]
  exact hcut.lexeme

theorem maximal_of_last {text gap : List Char} (h : Lexical text) (hgap : Layout gap) :
    Maximal text gap := by
  cases gap with
  | nil => exact maximal_nil h
  | cons c gap =>
      have hmaximal := maximal_of_layout h hgap (by simp) []
      rwa [List.append_nil] at hmaximal

theorem exists_tokens_of_spaced {ts : List Token} {cs lead : List Char} (h : Spaced ts cs)
    (hlexeme : ∀ t ∈ ts, Lexeme t.kind t.text.toList) (hlead : Layout lead) (p : Position) :
    ∃ us q, tokens p (lead ++ cs) = .ok (us ++ [Token.eof q]) ∧ SameTokens us ts := by
  induction h generalizing lead p with
  | nil =>
      rw [List.append_nil, tokens_end (Or.inl hlead)]
      exact ⟨[], _, rfl, rfl⟩
  | @last t gap hgap =>
      have hkind := hlexeme t List.mem_cons_self
      rw [tokens_token hlead hkind (maximal_of_last hkind.lexical hgap), tokens_end (Or.inl hgap)]
      exact ⟨[_], _, rfl, by simp [SameTokens, Token.unplaced]⟩
  | @cons t ts gap rest hgap hne _ ih =>
      have hkind := hlexeme t List.mem_cons_self
      obtain ⟨us, q, hus, hsame⟩ := ih (fun u hu => hlexeme u (List.mem_cons_of_mem t hu)) hgap
        (p.advance (lead ++ t.text.toList))
      rw [tokens_token hlead hkind (maximal_of_layout hkind.lexical hgap hne rest), hus]
      refine ⟨_ :: us, q, rfl, ?_⟩
      rw [SameTokens, List.map_cons, List.map_cons, hsame]
      simp [Token.unplaced]

end Lexer

/-! ## Reading without places -/

namespace Parser

variable {ts us : List Token} {t u : Token}

/-- Both readings have related results, or both report the same fault, possibly at other places. -/
inductive Alike {α : Type} (R : α → α → Prop) :
    Except SourceError α → Except SourceError α → Prop where
  | ok {a a' : α} : R a a' → Alike R (.ok a) (.ok a')
  | error {e e' : SourceError} : e.unplaced = e'.unplaced → Alike R (.error e) (.error e')

section Alike

variable {α β : Type} {R : α → α → Prop} {S : β → β → Prop} {x x' : Except SourceError α}

theorem Alike.refl (x : Except SourceError α) : Alike Eq x x := by
  cases x with
  | error e => exact .error rfl
  | ok a => exact .ok rfl

theorem Alike.bind {f f' : α → Except SourceError β} (hx : Alike R x x')
    (hf : ∀ a a', x = .ok a → R a a' → Alike S (f a) (f' a')) : Alike S (x >>= f) (x' >>= f') := by
  cases hx with
  | error he => exact .error he
  | ok ha => exact hf _ _ rfl ha

theorem Alike.map {f f' : α → β} (hx : Alike R x x') (hf : ∀ a a', R a a' → S (f a) (f' a')) :
    Alike S (x.map f) (x'.map f') := by
  cases hx with
  | error he => exact .error he
  | ok ha => exact .ok (hf _ _ ha)

theorem Alike.mapError_unplaced (h : Alike Eq x x') :
    x.mapError SourceError.unplaced = x'.mapError SourceError.unplaced := by
  cases h with
  | error he => exact congrArg Except.error he
  | ok ha => exact congrArg Except.ok ha

end Alike

/-- The same tokens are left to read, with the same builder. -/
def SameRest (r r' : List Token × Builder) : Prop := SameTokens r.1 r'.1 ∧ r.2 = r'.2

theorem kind_of_unplaced (h : t.unplaced = u.unplaced) : t.kind = u.kind :=
  (Token.mk.inj h).1

theorem text_of_unplaced (h : t.unplaced = u.unplaced) : t.text = u.text :=
  (Token.mk.inj h).2.1

theorem unplaced_current (h : SameTokens ts us) : (current ts).unplaced = (current us).unplaced := by
  cases ts with
  | nil => rw [List.map_eq_nil_iff.mp h.symm]
  | cons t ts =>
      cases us with
      | nil => cases h
      | cons u us => exact (List.cons.inj h).1

theorem sameTokens_tail (h : SameTokens ts us) : SameTokens ts.tail us.tail := by
  rw [SameTokens, List.map_tail, List.map_tail, h]

theorem kind_current (h : SameTokens ts us) : (current ts).kind = (current us).kind :=
  kind_of_unplaced (unplaced_current h)

theorem alike_expect (kind : Kind) (h : SameTokens ts us) :
    Alike (fun r r' => r.1.unplaced = r'.1.unplaced ∧ SameTokens r.2 r'.2)
      (expect kind ts) (expect kind us) := by
  have hcurrent := unplaced_current h
  unfold expect
  rw [kind_current h]
  split
  · exact .ok ⟨hcurrent, sameTokens_tail h⟩
  · exact .error (by simp only [SourceError.unplaced, ParseError.unplaced, hcurrent])

theorem alike_number (h : t.unplaced = u.unplaced) : Alike Eq (number t) (number u) := by
  unfold number
  rw [text_of_unplaced h]
  dsimp only
  split
  · exact .ok rfl
  · exact .error (by simp only [SourceError.unplaced, ParseError.unplaced, h])

theorem alike_declared (kind : VarKind) (h : t.unplaced = u.unplaced) (b : Builder) :
    Alike Eq (declared kind t b) (declared kind u b) := by
  unfold declared
  rw [text_of_unplaced h]
  split
  · exact .ok rfl
  · exact .error (by simp only [SourceError.unplaced, ParseError.unplaced, h])

theorem labelNamed_of_unplaced (h : t.unplaced = u.unplaced) (b : Builder) :
    labelNamed t b = labelNamed u b := by
  rw [labelNamed, labelNamed, text_of_unplaced h]

theorem labelDefined_of_unplaced (h : t.unplaced = u.unplaced) (b : Builder) :
    labelDefined t b = labelDefined u b := by
  rw [labelDefined, labelDefined, labelNamed_of_unplaced h, text_of_unplaced h]

theorem alike_operand (piece : Piece) (h : t.unplaced = u.unplaced) (b : Builder) :
    Alike Eq (operand piece t b) (operand piece u b) := by
  cases piece with
  | register => exact (alike_declared .register h b).map fun _ _ ha => by rw [ha]
  | memory => exact (alike_declared .memory h b).map fun _ _ ha => by rw [ha]
  | constant => exact (alike_number h).map fun _ _ ha => by rw [ha]
  | label =>
      rw [operand, operand, labelNamed_of_unplaced h]
      exact .refl _
  | comma | leftParen | rightParen => exact .refl _

theorem alike_operands (pieces : List Piece) (h : SameTokens ts us) (b : Builder) :
    Alike (fun r r' => r.1 = r'.1 ∧ SameRest r.2 r'.2) (operands pieces ts b)
      (operands pieces us b) := by
  induction pieces generalizing ts us b with
  | nil => exact .ok ⟨rfl, h, rfl⟩
  | cons piece pieces ih =>
      refine (alike_expect piece.kind h).bind fun (t, ts') (u, us') _ ⟨ht, hts⟩ => ?_
      refine (alike_operand piece ht b).bind fun (id, b₁) _ _ heq => ?_
      subst heq
      refine (ih hts b₁).bind fun (ids, ts'', b₂) (ids', us'', b₂') _ ⟨hids, hrest⟩ => ?_
      exact .ok ⟨congrArg (id.toList ++ ·) hids, hrest⟩

theorem alike_instruction (label : Option VarId) (h : SameTokens ts us) (b : Builder) :
    Alike SameRest (instruction label ts b) (instruction label us b) := by
  unfold instruction
  rw [kind_current h]
  split
  · exact .error rfl
  · split
    · rename_i opcode _
      refine (alike_operands opcode.form (sameTokens_tail h) b).bind
        fun (ids, ts', b₁) (ids', us', b₁') _ ⟨hids, hts, hb⟩ => ?_
      cases hids
      cases hb
      refine (Alike.refl ((append opcode ids label b₁).mapError .build)).bind fun b₂ _ _ heq => ?_
      cases heq
      exact .ok ⟨hts, rfl⟩
    · exact .error (by
        simp only [SourceError.unplaced, ParseError.unplaced, unplaced_current h])

theorem alike_memory (h : SameTokens ts us) (b : Builder) :
    Alike SameRest (memory ts b) (memory us b) := by
  refine (alike_expect .memoryName h).bind fun (name, ts') (name', us') _ ⟨hname, hts⟩ => ?_
  dsimp only
  rw [text_of_unplaced hname]
  split
  · exact .error rfl
  · refine (alike_expect .number hts).bind fun (t, ts'') (u, us'') _ ⟨ht, hts'⟩ => ?_
    refine (alike_number ht).bind fun value _ _ heq => ?_
    cases heq
    exact .ok ⟨hts', rfl⟩

theorem alike_register (h : SameTokens ts us) (b : Builder) :
    Alike SameRest (register ts b) (register us b) := by
  refine (alike_expect .registerName h).bind fun (name, ts') (name', us') _ ⟨hname, hts⟩ => ?_
  dsimp only
  rw [text_of_unplaced hname]
  split
  · exact .error rfl
  · exact .ok ⟨hts, rfl⟩

theorem alike_function (h : SameTokens ts us) (b : Builder) :
    Alike SameRest (function ts b) (function us b) := by
  refine (alike_expect .name h).bind fun (name, ts') (name', us') _ ⟨hname, hts⟩ => ?_
  dsimp only
  rw [labelDefined_of_unplaced hname]
  refine (Alike.refl (labelDefined name' b)).bind fun (label, b₁) _ _ heq => ?_
  cases heq
  refine (Alike.refl ((b₁.entry label).mapError .build)).bind fun (_, b₂) _ _ heq => ?_
  cases heq
  exact .ok ⟨hts, rfl⟩

theorem alike_labeled (ht : t.unplaced = u.unplaced) (h : SameTokens ts us) (b : Builder) :
    Alike SameRest (labeled t ts b) (labeled u us b) := by
  unfold labeled
  rw [labelDefined_of_unplaced ht]
  refine (Alike.refl (labelDefined u b)).bind fun (label, b₁) _ _ heq => ?_
  cases heq
  refine (alike_expect .colon h).bind fun (_, ts') (_, us') _ ⟨_, hts⟩ => ?_
  exact alike_instruction (some label) hts b₁

theorem alike_statement (h : SameTokens ts us) (b : Builder) :
    Alike SameRest (statement ts b) (statement us b) := by
  unfold statement
  rw [kind_current h]
  split
  · exact alike_memory (sameTokens_tail h) b
  · exact alike_register (sameTokens_tail h) b
  · exact alike_function (sameTokens_tail h) b
  · exact alike_labeled (unplaced_current h) (sameTokens_tail h) b
  · exact alike_instruction none h b

theorem alike_statements (h : SameTokens ts us) (b : Builder) :
    Alike Eq (statements ts b) (statements us b) := by
  -- on the number of tokens: a statement and its semicolon leave fewer
  induction hlength : ts.length using Nat.strongRecOn generalizing ts us b with
  | ind n ih =>
      rw [statements_eq_bind, statements_eq_bind us]
      refine (alike_statement h b).bind fun (rest, b₁) (rest', b₁') hread ⟨hrest, hb⟩ => ?_
      cases hb
      refine (alike_expect .semicolon hrest).bind fun (_, more) (_, more') hended ⟨_, hmore⟩ => ?_
      dsimp only
      rw [kind_current hmore]
      split
      · exact .ok rfl
      · have hlt : more.length < rest.length := length_lt_of_expect hended (by decide)
        have hle := length_of_statement hread
        exact ih more.length (by omega) hmore b₁ rfl

theorem alike_program (h : SameTokens ts us) : Alike Eq (program ts) (program us) := by
  rw [program_eq_scan, program_eq_scan]
  refine (alike_statements h {}).bind fun b _ _ heq => ?_
  cases heq
  exact .refl _

end Parser

/-- The tokens of a text may be set with other layout before, between and after them. The text that
comes out has the same tokens and denotes the same program, or is refused for the same fault. -/
theorem Program.parse_of_spaced {text spaced : String} {ts : List Token} {p : Position}
    {lead cs : List Char} (hts : tokenize text = .ok (ts ++ [Token.eof p]))
    (hlead : Lexer.Layout lead) (hcs : Lexer.Spaced ts cs) (hspaced : spaced.toList = lead ++ cs) :
    (∃ us q, tokenize spaced = .ok (us ++ [Token.eof q]) ∧ SameTokens us ts) ∧
    (Program.parse spaced).mapError SourceError.unplaced =
      (Program.parse text).mapError SourceError.unplaced := by
  obtain ⟨us, q, hus, hsame⟩ :=
    Lexer.exists_tokens_of_spaced hcs (Lexer.lexeme_of_tokenize hts) hlead {}
  rw [← hspaced] at hus
  refine ⟨⟨us, q, hus, hsame⟩, ?_⟩
  have hall : SameTokens (us ++ [Token.eof q]) (ts ++ [Token.eof p]) := by
    rw [SameTokens, List.map_append, List.map_append, hsame]
    rfl
  rw [Program.parse, Program.parse, tokenize, hus, hts]
  exact (Parser.alike_program hall).mapError_unplaced

/-- A comment in place of a blank, and layout where there was none. -/
theorem Program.parse_of_spaced_branch :
    ∃ p, Program.parse "_func f;b f;" = .ok p ∧
      Program.parse "//\n_func/*/ */f ; b\nf ;//\n" = .ok p := by
  have hts : tokenize "_func f;b f;" = .ok ([⟨.functionDirective, "_func", ⟨1, 1⟩⟩,
      ⟨.name, "f", ⟨1, 7⟩⟩, ⟨.semicolon, ";", ⟨1, 8⟩⟩, ⟨.mnemonic .b, "b", ⟨1, 9⟩⟩,
      ⟨.name, "f", ⟨1, 11⟩⟩, ⟨.semicolon, ";", ⟨1, 12⟩⟩] ++ [Token.eof ⟨1, 13⟩]) := by
    decide +kernel
  have hblank : Lexer.Layout [' '] := .blank (by decide) .nil
  have hnewline : Lexer.Layout ['\n'] := .blank (by decide) .nil
  have hline : Lexer.Layout ['/', '/', '\n'] := @Lexer.Layout.line [] [] (by decide) .nil
  have hblock : Lexer.Layout ['/', '*', '/', ' ', '*', '/'] :=
    @Lexer.Layout.block ['/', ' '] [] (by decide) .nil
  obtain ⟨p, hp, _⟩ : ∃ p, Program.parse "_func f;b f;" = .ok p ∧ p.size = 2 :=
    exists_ok_of_decide (by decide +kernel)
  have hsame := (@Program.parse_of_spaced _ "//\n_func/*/ */f ; b\nf ;//\n" _ _ _ _ hts hline
    (.cons hblock (by decide) (.cons hblank (by decide) (.cons hblank (by decide)
      (.cons hnewline (by decide) (.cons hblank (by decide) (.last hline)))))) (by decide)).2
  rw [hp] at hsame
  exact ⟨p, hp, Parser.mapError_eq_ok.mp hsame⟩

end RegAlloc
