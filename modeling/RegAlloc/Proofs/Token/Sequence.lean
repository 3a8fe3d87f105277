import RegAlloc.Proofs.Token.Partition

/-!
# The tokens of a text

The end of the text is the last token and no other, and names are words: letters, digits and
underscores.
-/

namespace RegAlloc

/-- Letters, digits and underscores only. -/
def IsWord (s : String) : Prop := ∀ c ∈ s.toList, Lexer.continuesWord c = true

/-- The names of labels, memory variables and registers. -/
def Kind.isIdentifier : Kind → Bool
  | name | memoryName | registerName => true
  | _ => false

/-- A token that stands for a part of the text. -/
structure Token.Regular (t : Token) : Prop where
  kind_ne : t.kind ≠ .eof
  isWord : t.kind.isIdentifier = true → IsWord t.text

/-- Regular tokens, and the end of the text after them. -/
inductive Closed : List Token → Prop where
  | eof {t : Token} : t.kind = .eof → Closed [t]
  | cons {t : Token} {ts : List Token} : t.Regular → Closed ts → Closed (t :: ts)

namespace Closed

theorem ne_nil {ts : List Token} (h : Closed ts) : ts ≠ [] := by
  cases h <;> simp

theorem regular_of_ne {t : Token} {ts : List Token} (h : Closed (t :: ts)) (hkind : t.kind ≠ .eof) :
    t.Regular ∧ Closed ts := by
  cases h with
  | eof heof => exact absurd heof hkind
  | cons ht hts => exact ⟨ht, hts⟩

theorem eq_singleton {t : Token} {ts : List Token} (h : Closed (t :: ts)) (hkind : t.kind = .eof) :
    ts = [] := by
  cases h with
  | eof _ => rfl
  | cons ht _ => exact absurd hkind ht.kind_ne

/-- Tokens that come before others are regular. -/
theorem regular_of_append {front rest : List Token} (h : Closed (front ++ rest)) (hne : rest ≠ []) :
    (∀ t ∈ front, t.Regular) ∧ Closed rest := by
  induction front with
  | nil => exact ⟨by simp, h⟩
  | cons t front ih =>
      have hkind : t.kind ≠ .eof := fun heof => hne (List.append_eq_nil_iff.mp (h.eq_singleton heof)).2
      obtain ⟨ht, hts⟩ := h.regular_of_ne hkind
      obtain ⟨hfront, hrest⟩ := ih hts
      exact ⟨by simpa using ⟨ht, hfront⟩, hrest⟩

end Closed

/-! ## Reading a text -/

namespace Lexer

theorem Numbered.isWord {letter : Char} {text : List Char} (hletter : startsWord letter = true)
    (h : Numbered letter text) : ∀ c ∈ text, continuesWord c = true := by
  obtain ⟨ds, _, hds, rfl⟩ := h
  intro c hc
  rcases List.mem_cons.mp hc with rfl | hc
  · exact continuesWord_iff.mpr (Or.inl hletter)
  · exact continuesWord_iff.mpr (Or.inr (hds c hc))

/-- Only words are identifiers. -/
theorem Lexeme.isWord {kind : Kind} {text : List Char} (h : Lexeme kind text)
    (hkind : kind.isIdentifier = true) : ∀ c ∈ text, continuesWord c = true := by
  cases h with
  | memoryName hnumbered => exact hnumbered.isWord (by decide)
  | registerName hnumbered => exact hnumbered.isWord (by decide)
  | @name c cs hc hcs _ _ _ =>
      intro x hx
      rcases List.mem_cons.mp hx with rfl | hx
      · exact continuesWord_iff.mpr (Or.inl (by simp [startsWord, hc]))
      · simpa [continuesWord] using hcs x hx
  | _ => cases hkind

theorem Lexeme.regular {t : Token} (h : Lexeme t.kind t.text.toList) : t.Regular :=
  ⟨h.ne_eof, h.isWord⟩

end Lexer

theorem closed_append_eof {ts : List Token} (h : ∀ t ∈ ts, t.Regular) (p : Position) :
    Closed (ts ++ [Token.eof p]) := by
  induction ts with
  | nil => exact .eof rfl
  | cons t ts ih =>
      obtain ⟨ht, hts⟩ := List.forall_mem_cons.mp h
      exact .cons ht (ih hts)

theorem closed_of_tokenize {text : String} {ts : List Token} (h : tokenize text = .ok ts) :
    Closed ts := by
  obtain ⟨before, us, gap, _, hcut, _, rfl⟩ := Lexer.exists_cut_of_tokenize h
  exact closed_append_eof (fun t ht => (hcut.lexeme t ht).regular) _

end RegAlloc
