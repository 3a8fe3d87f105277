import RegAlloc.Proofs.Token.Layout

/-!
# Texts of tokens

`Lexical` says which texts have the shape of a token: punctuation, numbers and words. `Lexeme` says
which of them are tokens, and of what kind. `Lexer.longest` finds the longest prefix that has the
shape of a token, and `Lexer.first` gives it its kind.
-/

namespace RegAlloc

namespace Lexer

/-! ## Shapes -/

/-- Punctuation, an optional minus sign and digits, or a letter or underscore and further letters,
underscores and digits. -/
inductive Lexical : List Char → Prop where
  | mark {c : Char} : c ∈ [',', '(', ')', ':', ';'] → Lexical [c]
  | number {ds : List Char} : ds ≠ [] → (∀ d ∈ ds, d.isDigit = true) → Lexical ds
  | negative {ds : List Char} : ds ≠ [] → (∀ d ∈ ds, d.isDigit = true) → Lexical ('-' :: ds)
  | word {c : Char} {cs : List Char} : (c.isAlpha = true ∨ c = '_') →
      (∀ x ∈ cs, x.isAlphanum = true ∨ x = '_') → Lexical (c :: cs)

/-- A text that has the shape of a token and, before `rest`, is no part of a longer one. -/
def Maximal (text rest : List Char) : Prop :=
  Lexical text ∧ ∀ more, more ≠ [] → more <+: rest → ¬ Lexical (text ++ more)

theorem Lexical.ne_nil {text : List Char} (h : Lexical text) : text ≠ [] := by
  cases h with
  | number hne _ => exact hne
  | _ => simp

/-! ### Characters -/

theorem isDigit_iff {c : Char} : c.isDigit = true ↔ 48 ≤ c.toNat ∧ c.toNat ≤ 57 := by
  simp only [Char.isDigit, Bool.and_eq_true, decide_eq_true_eq, ge_iff_le, UInt32.le_iff_toNat_le]
  rfl

theorem startsWord_iff {c : Char} : startsWord c = true ↔
    65 ≤ c.toNat ∧ c.toNat ≤ 90 ∨ 97 ≤ c.toNat ∧ c.toNat ≤ 122 ∨ c.toNat = 95 := by
  have hunderscore : c = '_' ↔ c.toNat = 95 := by
    rw [← Char.toNat_inj]
    rfl
  delta startsWord Char.isAlpha Char.isUpper Char.isLower
  simp only [Bool.or_eq_true, Bool.and_eq_true, decide_eq_true_eq, beq_iff_eq, ge_iff_le,
    UInt32.le_iff_toNat_le, hunderscore, or_assoc]
  rfl

theorem continuesWord_iff {c : Char} :
    continuesWord c = true ↔ startsWord c = true ∨ c.isDigit = true := by
  simp only [continuesWord, startsWord, Char.isAlphanum, Bool.or_eq_true, beq_iff_eq]
  tauto

theorem mark_iff {c : Char} : c ∈ [',', '(', ')', ':', ';'] ↔
    c.toNat = 44 ∨ c.toNat = 40 ∨ c.toNat = 41 ∨ c.toNat = 58 ∨ c.toNat = 59 := by
  simp only [List.mem_cons, List.not_mem_nil, or_false, ← Char.toNat_inj]
  rfl

theorem ofMark?_isSome_iff {c : Char} :
    (Kind.ofMark? c).isSome = true ↔ c ∈ [',', '(', ')', ':', ';'] := by
  constructor
  · intro h
    unfold Kind.ofMark? at h
    split at h
    case h_6 => cases h
    all_goals decide
  · intro h
    simp only [List.mem_cons, List.not_mem_nil, or_false] at h
    rcases h with rfl | rfl | rfl | rfl | rfl <;> rfl

theorem minus_iff {c : Char} : c = '-' ↔ c.toNat = 45 := by
  rw [← Char.toNat_inj]
  rfl

/-! ### Shapes by the first character -/

theorem lexical_cons_iff {c : Char} {cs : List Char} : Lexical (c :: cs) ↔
    c ∈ [',', '(', ')', ':', ';'] ∧ cs = [] ∨
      c.isDigit = true ∧ (∀ x ∈ cs, x.isDigit = true) ∨
      c = '-' ∧ cs ≠ [] ∧ (∀ x ∈ cs, x.isDigit = true) ∨
      startsWord c = true ∧ ∀ x ∈ cs, continuesWord x = true := by
  have hstart : startsWord c = true ↔ c.isAlpha = true ∨ c = '_' := by simp [startsWord]
  have hword : ∀ x, continuesWord x = true ↔ x.isAlphanum = true ∨ x = '_' := fun x => by
    simp [continuesWord]
  simp only [hstart, hword]
  constructor
  · intro h
    cases h with
    | mark hc => exact Or.inl ⟨hc, rfl⟩
    | number _ hds => exact Or.inr (Or.inl (List.forall_mem_cons.mp hds))
    | negative hne hds => exact Or.inr (Or.inr (Or.inl ⟨rfl, hne, hds⟩))
    | word hc hcs => exact Or.inr (Or.inr (Or.inr ⟨hc, hcs⟩))
  · rintro (⟨hc, rfl⟩ | hds | ⟨rfl, hne, hds⟩ | ⟨hc, hcs⟩)
    · exact .mark hc
    · exact .number (by simp) (List.forall_mem_cons.mpr hds)
    · exact .negative hne hds
    · exact .word hc hcs

theorem lexical_mark {c : Char} {cs : List Char} (h : c ∈ [',', '(', ')', ':', ';']) :
    Lexical (c :: cs) ↔ cs = [] := by
  have hcode := mark_iff.mp h
  have hdigit : ¬ c.isDigit = true := by rw [isDigit_iff]; omega
  have hminus : c ≠ '-' := by rw [Ne, minus_iff]; omega
  have hstart : ¬ startsWord c = true := by rw [startsWord_iff]; omega
  rw [lexical_cons_iff]
  simp [h, hdigit, hminus, hstart]

theorem lexical_digit {c : Char} {cs : List Char} (h : c.isDigit = true) :
    Lexical (c :: cs) ↔ ∀ x ∈ cs, x.isDigit = true := by
  have hcode := isDigit_iff.mp h
  have hmark : c ∉ [',', '(', ')', ':', ';'] := by rw [mark_iff]; omega
  have hminus : c ≠ '-' := by rw [Ne, minus_iff]; omega
  have hstart : ¬ startsWord c = true := by rw [startsWord_iff]; omega
  rw [lexical_cons_iff]
  simp [h, hmark, hminus, hstart]

theorem lexical_minus {cs : List Char} :
    Lexical ('-' :: cs) ↔ cs ≠ [] ∧ ∀ x ∈ cs, x.isDigit = true := by
  rw [lexical_cons_iff]
  simp [show startsWord '-' = false by decide]

theorem lexical_start {c : Char} {cs : List Char} (h : startsWord c = true) :
    Lexical (c :: cs) ↔ ∀ x ∈ cs, continuesWord x = true := by
  have hcode := startsWord_iff.mp h
  have hmark : c ∉ [',', '(', ')', ':', ';'] := by rw [mark_iff]; omega
  have hminus : c ≠ '-' := by rw [Ne, minus_iff]; omega
  have hdigit : ¬ c.isDigit = true := by rw [isDigit_iff]; omega
  rw [lexical_cons_iff]
  simp [h, hmark, hminus, hdigit]

/-! ## The longest shape -/

/-- Characters of one class, up to the first that is not of it. -/
theorem maximal_takeWhile {p : Char → Bool} {c : Char} {cs : List Char}
    (h : Lexical (c :: cs.takeWhile p))
    (hclass : ∀ {ds}, Lexical (c :: ds) → ∀ x ∈ ds, p x = true) :
    Maximal (c :: cs.takeWhile p) (cs.dropWhile p) := by
  refine ⟨h, ?_⟩
  rintro more hne hpre hlexical
  obtain ⟨x, more, rfl⟩ := List.exists_cons_of_ne_nil hne
  obtain ⟨rest, hrest⟩ := hpre
  have hin : p x = true := hclass hlexical x (by simp)
  have hout : p x = false := by
    have hhead := List.head?_dropWhile_not p cs
    rw [← hrest] at hhead
    simpa using hhead
  rw [hin] at hout
  cases hout

theorem exists_maximal_minus {cs : List Char} (h : cs.takeWhile Char.isDigit ≠ []) :
    ∃ rest, '-' :: cs = longest ('-' :: cs) ++ rest ∧ Maximal (longest ('-' :: cs)) rest := by
  have hlongest : longest ('-' :: cs) = '-' :: cs.takeWhile Char.isDigit := by
    cases hdigits : cs.takeWhile Char.isDigit with
    | nil => exact absurd hdigits h
    | cons d ds => simp [longest, hdigits, Kind.ofMark?]
  rw [hlongest]
  refine ⟨cs.dropWhile Char.isDigit, by simp, maximal_takeWhile ?_ ?_⟩
  · exact lexical_minus.mpr ⟨h, fun x hx => List.all_eq_true.mp List.all_takeWhile x hx⟩
  · exact fun hlexical => (lexical_minus.mp hlexical).2

theorem not_lexical_minus {cs ds : List Char} (h : cs.takeWhile Char.isDigit = [])
    (hpre : ds <+: cs) : ¬ Lexical ('-' :: ds) := by
  intro hlexical
  obtain ⟨hne, hdigits⟩ := lexical_minus.mp hlexical
  obtain ⟨d, ds, rfl⟩ := List.exists_cons_of_ne_nil hne
  obtain ⟨rest, rfl⟩ := hpre
  simp [hdigits d List.mem_cons_self] at h

/-- The longest prefix of the shape of a token is maximal; where there is none, no prefix has the
shape of a token. -/
theorem longest_spec (c : Char) (cs : List Char) :
    (∃ rest, c :: cs = longest (c :: cs) ++ rest ∧ Maximal (longest (c :: cs)) rest) ∨
      longest (c :: cs) = [] ∧ ∀ text, text <+: c :: cs → ¬ Lexical text := by
  have hnone : (∀ ds, ds <+: cs → ¬ Lexical (c :: ds)) → ∀ text, text <+: c :: cs →
      ¬ Lexical text := by
    intro h text hpre hlexical
    obtain ⟨d, ds, rfl⟩ := List.exists_cons_of_ne_nil hlexical.ne_nil
    obtain ⟨rfl, hds⟩ := List.cons_prefix_cons.mp hpre
    exact h ds hds hlexical
  by_cases hmark : c ∈ [',', '(', ')', ':', ';']
  · have hlongest : longest (c :: cs) = [c] := by rw [longest, if_pos (ofMark?_isSome_iff.mpr hmark)]
    rw [hlongest]
    refine Or.inl ⟨cs, rfl, .mark hmark, fun more hne _ hlexical => ?_⟩
    exact hne ((lexical_mark hmark).mp hlexical)
  have hmark' : ¬ (Kind.ofMark? c).isSome = true := mt ofMark?_isSome_iff.mp hmark
  by_cases hdigit : c.isDigit = true
  · have hlongest : longest (c :: cs) = c :: cs.takeWhile Char.isDigit := by
      rw [longest, if_neg hmark', if_pos hdigit]
    rw [hlongest]
    refine Or.inl ⟨cs.dropWhile Char.isDigit, by simp, maximal_takeWhile ?_ ?_⟩
    · exact (lexical_digit hdigit).mpr fun x hx => List.all_eq_true.mp List.all_takeWhile x hx
    · exact fun hlexical => (lexical_digit hdigit).mp hlexical
  by_cases hminus : c = '-'
  · subst hminus
    by_cases hdigits : cs.takeWhile Char.isDigit = []
    · refine Or.inr ⟨by simp [longest, hdigits, Kind.ofMark?], hnone fun ds => ?_⟩
      exact not_lexical_minus hdigits
    · exact Or.inl (exists_maximal_minus hdigits)
  by_cases hstart : startsWord c = true
  · have hlongest : longest (c :: cs) = c :: cs.takeWhile continuesWord := by
      rw [longest, if_neg hmark', if_neg hdigit, if_neg hminus, if_pos hstart]
    rw [hlongest]
    refine Or.inl ⟨cs.dropWhile continuesWord, by simp, maximal_takeWhile ?_ ?_⟩
    · exact (lexical_start hstart).mpr fun x hx => List.all_eq_true.mp List.all_takeWhile x hx
    · exact fun hlexical => (lexical_start hstart).mp hlexical
  · have hlongest : longest (c :: cs) = [] := by
      rw [longest, if_neg hmark', if_neg hdigit, if_neg hminus, if_neg hstart]
    refine Or.inr ⟨hlongest, hnone fun ds _ hlexical => ?_⟩
    rw [lexical_cons_iff] at hlexical
    simp [hmark, hdigit, hminus, hstart] at hlexical

/-- A text starts with at most one maximal text. -/
theorem Maximal.unique {text text' rest rest' : List Char} (h : Maximal text rest)
    (h' : Maximal text' rest') (heq : text ++ rest = text' ++ rest') : text = text' := by
  rcases List.append_eq_append_iff.mp heq with ⟨more, rfl, rfl⟩ | ⟨more, rfl, rfl⟩
  · by_cases hmore : more = []
    · simp [hmore]
    · exact absurd h'.1 (h.2 more hmore (List.prefix_append more rest'))
  · by_cases hmore : more = []
    · simp [hmore]
    · exact absurd h.1 (h'.2 more hmore (List.prefix_append more rest))

theorem longest_of_maximal {text rest : List Char} (h : Maximal text rest) :
    longest (text ++ rest) = text := by
  obtain ⟨c, cs, rfl⟩ := List.exists_cons_of_ne_nil h.1.ne_nil
  rw [List.cons_append]
  rcases longest_spec c (cs ++ rest) with ⟨rest', heq, hmaximal⟩ | ⟨_, hnone⟩
  · exact hmaximal.unique h (by rw [← heq]; rfl)
  · exact absurd h.1 (hnone _ (List.prefix_append (c :: cs) rest))

/-! ## Kinds -/

/-- A letter and one or more digits. -/
def Numbered (letter : Char) (text : List Char) : Prop :=
  ∃ ds, ds ≠ [] ∧ (∀ d ∈ ds, d.isDigit = true) ∧ text = letter :: ds

def directives : List (List Char) := ["_mem".toList, "_reg".toList, "_func".toList]

/-- The texts of the tokens of each kind. -/
inductive Lexeme : Kind → List Char → Prop where
  | comma : Lexeme .comma [',']
  | leftParen : Lexeme .leftParen ['(']
  | rightParen : Lexeme .rightParen [')']
  | colon : Lexeme .colon [':']
  | semicolon : Lexeme .semicolon [';']
  | memoryDirective : Lexeme .memoryDirective "_mem".toList
  | registerDirective : Lexeme .registerDirective "_reg".toList
  | functionDirective : Lexeme .functionDirective "_func".toList
  | mnemonic (opcode : Opcode) : Lexeme (.mnemonic opcode) opcode.name.toList
  | memoryName {text : List Char} : Numbered 'm' text → Lexeme .memoryName text
  | registerName {text : List Char} : Numbered 'r' text → Lexeme .registerName text
  | name {c : Char} {cs : List Char} : c.isAlpha = true →
      (∀ x ∈ cs, x.isAlphanum = true ∨ x = '_') → (∀ opcode : Opcode, c :: cs ≠ opcode.name.toList) →
      ¬ Numbered 'm' (c :: cs) → ¬ Numbered 'r' (c :: cs) → Lexeme .name (c :: cs)
  | number {ds : List Char} : ds ≠ [] → (∀ d ∈ ds, d.isDigit = true) → Lexeme .number ds
  | negative {ds : List Char} : ds ≠ [] → (∀ d ∈ ds, d.isDigit = true) →
      Lexeme .number ('-' :: ds)

theorem isNumbered_iff {letter : Char} {text : List Char} :
    Kind.isNumbered letter text = true ↔ Numbered letter text := by
  unfold Kind.isNumbered
  split
  · rename_i c d ds
    simp only [Bool.and_eq_true, beq_iff_eq, List.all_eq_true]
    constructor
    · rintro ⟨rfl, hds⟩
      exact ⟨d :: ds, by simp, hds, rfl⟩
    · rintro ⟨ds', _, hds, heq⟩
      cases heq
      exact ⟨rfl, hds⟩
  · rename_i hshort
    refine iff_of_false Bool.false_ne_true ?_
    rintro ⟨ds, hne, _, rfl⟩
    obtain ⟨d, ds, rfl⟩ := List.exists_cons_of_ne_nil hne
    exact hshort letter d ds rfl

theorem ofKeyword?_eq_some_iff {word : String} {kind : Kind} :
    Kind.ofKeyword? word = some kind ↔
      word = "_mem" ∧ kind = .memoryDirective ∨ word = "_reg" ∧ kind = .registerDirective ∨
        word = "_func" ∧ kind = .functionDirective ∨
        ∃ opcode : Opcode, word = opcode.name ∧ kind = .mnemonic opcode := by
  constructor
  · intro h
    unfold Kind.ofKeyword? at h
    split at h
    · cases h; exact Or.inl ⟨rfl, rfl⟩
    · cases h; exact Or.inr (Or.inl ⟨rfl, rfl⟩)
    · cases h; exact Or.inr (Or.inr (Or.inl ⟨rfl, rfl⟩))
    · obtain ⟨opcode, hopcode, rfl⟩ := Option.map_eq_some_iff.mp h
      exact Or.inr (Or.inr (Or.inr ⟨opcode, (Opcode.name_of_ofName? hopcode).symm, rfl⟩))
  · rintro (⟨rfl, rfl⟩ | ⟨rfl, rfl⟩ | ⟨rfl, rfl⟩ | ⟨opcode, rfl, rfl⟩)
    · rfl
    · rfl
    · rfl
    · cases opcode <;> decide

/-- A text that is no directive and no mnemonic is no keyword. -/
theorem ofKeyword?_eq_none {text : List Char} (hdirective : text ∉ directives)
    (hmnemonic : ∀ opcode : Opcode, text ≠ opcode.name.toList) :
    Kind.ofKeyword? (String.ofList text) = none := by
  rw [Option.eq_none_iff_forall_ne_some]
  intro kind h
  rw [ofKeyword?_eq_some_iff] at h
  simp only [← String.toList_inj, String.toList_ofList] at h
  rcases h with ⟨heq, _⟩ | ⟨heq, _⟩ | ⟨heq, _⟩ | ⟨opcode, heq, _⟩
  · exact hdirective (by simp [directives, heq])
  · exact hdirective (by simp [directives, heq])
  · exact hdirective (by simp [directives, heq])
  · exact hmnemonic opcode heq

/-- No keyword is numbered. -/
theorem ofKeyword?_numbered {letter : Char} (hletter : letter = 'm' ∨ letter = 'r')
    {ds : List Char} : Kind.ofKeyword? (String.ofList (letter :: ds)) = none := by
  apply ofKeyword?_eq_none
  · rcases hletter with rfl | rfl <;> simp [directives]
  · intro opcode heq
    have hhead : opcode.name.toList.head? = some letter := by rw [← heq]; rfl
    rcases hletter with rfl | rfl
    · revert hhead
      cases opcode <;> decide
    · revert hhead
      cases opcode <;> decide

theorem ofText?_of_start {c : Char} (h : startsWord c = true) (cs : List Char) :
    Kind.ofText? (c :: cs) = Kind.ofWord? (c :: cs) := by
  have hcode := startsWord_iff.mp h
  have hmark : Kind.ofMark? c = none := by
    rw [← Option.not_isSome_iff_eq_none, ofMark?_isSome_iff, mark_iff]
    omega
  have hdigit : ¬ c.isDigit = true := by rw [isDigit_iff]; omega
  have hminus : c ≠ '-' := by rw [Ne, minus_iff]; omega
  simp [Kind.ofText?, hmark, hdigit, hminus]

theorem ofText?_of_digit {c : Char} (h : c.isDigit = true) (cs : List Char) :
    Kind.ofText? (c :: cs) = some .number := by
  have hcode := isDigit_iff.mp h
  have hmark : Kind.ofMark? c = none := by
    rw [← Option.not_isSome_iff_eq_none, ofMark?_isSome_iff, mark_iff]
    omega
  simp [Kind.ofText?, hmark, h]

theorem ofText?_minus (cs : List Char) : Kind.ofText? ('-' :: cs) = some .number := by
  simp [Kind.ofText?, Kind.ofMark?]

theorem Lexeme.ofText? {kind : Kind} {text : List Char} (h : Lexeme kind text) :
    Kind.ofText? text = some kind := by
  cases h with
  | comma | leftParen | rightParen | colon | semicolon => rfl
  | memoryDirective | registerDirective | functionDirective => decide
  | mnemonic opcode => cases opcode <;> decide
  | memoryName hnumbered =>
      have hnumbered' := isNumbered_iff.mpr hnumbered
      obtain ⟨ds, _, _, rfl⟩ := hnumbered
      rw [ofText?_of_start (by decide), Kind.ofWord?, ofKeyword?_numbered (Or.inl rfl)]
      simp [hnumbered']
  | registerName hnumbered =>
      have hnumbered' := isNumbered_iff.mpr hnumbered
      obtain ⟨ds, _, _, rfl⟩ := hnumbered
      have hmemory : ¬ Kind.isNumbered 'm' ('r' :: ds) = true := by
        rw [isNumbered_iff]
        rintro ⟨_, _, _, heq⟩
        cases heq
      rw [ofText?_of_start (by decide), Kind.ofWord?, ofKeyword?_numbered (Or.inr rfl)]
      simp [hnumbered', hmemory]
  | @name c cs hc hcs hmnemonic hmemory hregister =>
      have hstart : startsWord c = true := by simp [startsWord, hc]
      have hunderscore : c ≠ '_' := by
        rintro rfl
        revert hc
        decide
      have hdirective : c :: cs ∉ directives := by simp [directives, hunderscore]
      rw [ofText?_of_start hstart, Kind.ofWord?, ofKeyword?_eq_none hdirective hmnemonic]
      simp [hunderscore, mt isNumbered_iff.mp hmemory, mt isNumbered_iff.mp hregister]
  | number hne hds =>
      obtain ⟨d, ds, rfl⟩ := List.exists_cons_of_ne_nil hne
      exact ofText?_of_digit (hds d List.mem_cons_self) ds
  | negative _ _ => exact ofText?_minus _

/-- The kind of a token is determined by its text. -/
theorem Lexeme.unique {kind kind' : Kind} {text : List Char} (h : Lexeme kind text)
    (h' : Lexeme kind' text) : kind = kind' :=
  Option.some.inj (h.ofText?.symm.trans h'.ofText?)

theorem lexeme_of_ofKeyword? {text : List Char} {kind : Kind}
    (h : Kind.ofKeyword? (String.ofList text) = some kind) : Lexeme kind text := by
  rw [ofKeyword?_eq_some_iff] at h
  simp only [← String.toList_inj, String.toList_ofList] at h
  rcases h with ⟨rfl, rfl⟩ | ⟨rfl, rfl⟩ | ⟨rfl, rfl⟩ | ⟨opcode, rfl, rfl⟩
  · exact .memoryDirective
  · exact .registerDirective
  · exact .functionDirective
  · exact .mnemonic opcode

theorem lexeme_of_ofWord? {c : Char} {cs : List Char} {kind : Kind}
    (hc : c.isAlpha = true ∨ c = '_') (hcs : ∀ x ∈ cs, x.isAlphanum = true ∨ x = '_')
    (h : Kind.ofWord? (c :: cs) = some kind) : Lexeme kind (c :: cs) := by
  unfold Kind.ofWord? at h
  split at h
  · rename_i hkeyword
    cases h
    exact lexeme_of_ofKeyword? hkeyword
  · rename_i hkeyword
    split at h
    · cases h
    · rename_i hunderscore
      split at h
      · rename_i hmemory
        cases h
        exact .memoryName (isNumbered_iff.mp hmemory)
      · rename_i hmemory
        split at h
        · rename_i hregister
          cases h
          exact .registerName (isNumbered_iff.mp hregister)
        · rename_i hregister
          cases h
          refine .name (hc.resolve_right (by simpa using hunderscore)) hcs ?_
            (mt isNumbered_iff.mpr hmemory) (mt isNumbered_iff.mpr hregister)
          intro opcode heq
          rw [heq, String.ofList_toList] at hkeyword
          have hsome := ofKeyword?_eq_some_iff.mpr
            (Or.inr (Or.inr (Or.inr ⟨opcode, rfl, rfl⟩)))
          rw [hsome] at hkeyword
          cases hkeyword

theorem lexeme_iff {kind : Kind} {text : List Char} (h : Lexical text) :
    Lexeme kind text ↔ Kind.ofText? text = some kind := by
  refine ⟨Lexeme.ofText?, fun hkind => ?_⟩
  cases h with
  | mark hc =>
      simp only [List.mem_cons, List.not_mem_nil, or_false] at hc
      rcases hc with rfl | rfl | rfl | rfl | rfl <;> cases hkind <;> constructor
  | number hne hds =>
      obtain ⟨d, ds, rfl⟩ := List.exists_cons_of_ne_nil hne
      rw [ofText?_of_digit (hds d List.mem_cons_self)] at hkind
      cases hkind
      exact .number hne hds
  | negative hne hds =>
      rw [ofText?_minus] at hkind
      cases hkind
      exact .negative hne hds
  | @word c cs hc hcs =>
      rw [ofText?_of_start (by simpa [startsWord] using hc)] at hkind
      exact lexeme_of_ofWord? hc hcs hkind

theorem lexical_of_word {c : Char} {cs : List Char}
    (h : (startsWord c && cs.all continuesWord) = true) : Lexical (c :: cs) := by
  obtain ⟨hc, hcs⟩ := Bool.and_eq_true_iff.mp h
  exact (lexical_start hc).mpr (List.all_eq_true.mp hcs)

theorem Lexeme.lexical {kind : Kind} {text : List Char} (h : Lexeme kind text) :
    Lexical text := by
  have hnumbered : ∀ {letter}, startsWord letter = true → Numbered letter text → Lexical text := by
    rintro letter hletter ⟨ds, _, hds, rfl⟩
    exact (lexical_start hletter).mpr fun x hx => continuesWord_iff.mpr (Or.inr (hds x hx))
  cases h with
  | comma | leftParen | rightParen | colon | semicolon => exact .mark (by decide)
  | memoryDirective | registerDirective | functionDirective => exact lexical_of_word (by decide)
  | mnemonic opcode => cases opcode <;> exact lexical_of_word (by decide)
  | memoryName h => exact hnumbered (by decide) h
  | registerName h => exact hnumbered (by decide) h
  | name hc hcs _ _ _ => exact .word (Or.inl hc) hcs
  | number hne hds => exact .number hne hds
  | negative hne hds => exact .negative hne hds

theorem head?_of_ofWord?_eq_none {word : List Char} (h : Kind.ofWord? word = none) :
    word.head? = some '_' := by
  by_contra hhead
  unfold Kind.ofWord? at h
  split at h
  · cases h
  · rw [if_neg hhead] at h
    split at h
    · cases h
    · split at h <;> cases h

/-- A text of the shape of a token is no token just if it starts with an underscore and is no
directive. -/
theorem ofText?_eq_none_iff {text : List Char} (h : Lexical text) :
    Kind.ofText? text = none ↔ text.head? = some '_' ∧ text ∉ directives := by
  constructor
  · intro hnone
    refine ⟨?_, fun hdirective => ?_⟩
    · cases h with
      | mark hc =>
          simp only [List.mem_cons, List.not_mem_nil, or_false] at hc
          rcases hc with rfl | rfl | rfl | rfl | rfl <;> cases hnone
      | number hne hds =>
          obtain ⟨d, ds, rfl⟩ := List.exists_cons_of_ne_nil hne
          rw [ofText?_of_digit (hds d List.mem_cons_self)] at hnone
          cases hnone
      | negative _ _ =>
          rw [ofText?_minus] at hnone
          cases hnone
      | word hc _ =>
          rw [ofText?_of_start (by simpa [startsWord] using hc)] at hnone
          exact head?_of_ofWord?_eq_none hnone
    · revert hnone
      simp only [directives, List.mem_cons, List.not_mem_nil, or_false] at hdirective
      rcases hdirective with rfl | rfl | rfl <;> decide
  · rintro ⟨hhead, hdirective⟩
    obtain ⟨cs, rfl⟩ := List.head?_eq_some_iff.mp hhead
    have hmnemonic : ∀ opcode : Opcode, '_' :: cs ≠ opcode.name.toList := by
      intro opcode heq
      have hhead : opcode.name.toList.head? = some '_' := by rw [← heq]; rfl
      revert hhead
      cases opcode <;> decide
    rw [ofText?_of_start (by decide), Kind.ofWord?, ofKeyword?_eq_none hdirective hmnemonic]
    rfl

/-! ## Reading one token -/

theorem first_of_lexeme {kind : Kind} {c : Char} {cs rest : List Char}
    (h : Lexeme kind (c :: cs)) (hmaximal : Maximal (c :: cs) rest) (p : Position) :
    first p c (cs ++ rest) = .ok (⟨kind, String.ofList (c :: cs), p⟩, c :: cs) := by
  have hlongest := longest_of_maximal hmaximal
  rw [List.cons_append] at hlongest
  simp only [first, hlongest, h.ofText?]

theorem first_of_underscore {c : Char} {cs rest : List Char} (hmaximal : Maximal (c :: cs) rest)
    (hc : c = '_') (hdirective : c :: cs ∉ directives) (p : Position) :
    first p c (cs ++ rest) = .error (.unknownDirective (String.ofList (c :: cs)) p) := by
  have hlongest := longest_of_maximal hmaximal
  rw [List.cons_append] at hlongest
  have hnone := (ofText?_eq_none_iff hmaximal.1).mpr ⟨by simp [hc], hdirective⟩
  simp only [first, hlongest, hnone]

theorem first_of_stray {c : Char} {cs : List Char}
    (h : ∀ text, text <+: c :: cs → ¬ Lexical text) (p : Position) :
    first p c cs = .error (.unexpectedChar c p) := by
  rcases longest_spec c cs with ⟨rest, heq, hmaximal⟩ | ⟨hlongest, _⟩
  · exact absurd hmaximal.1 (h _ ⟨rest, heq.symm⟩)
  · simp only [first, hlongest]

/-- A text starts with a token, with a word that is no directive, or with a character that starts
no token. -/
theorem first_cases (c : Char) (cs : List Char) :
    (∃ kind text rest, c :: cs = text ++ rest ∧ Lexeme kind text ∧ Maximal text rest) ∨
      (∃ word rest, c :: cs = word ++ rest ∧ word.head? = some '_' ∧ word ∉ directives ∧
        Maximal word rest) ∨
      ∀ text, text <+: c :: cs → ¬ Lexical text := by
  rcases longest_spec c cs with ⟨rest, heq, hmaximal⟩ | ⟨_, hnone⟩
  · cases hkind : Kind.ofText? (longest (c :: cs)) with
    | some kind => exact Or.inl ⟨kind, _, rest, heq, (lexeme_iff hmaximal.1).mpr hkind, hmaximal⟩
    | none =>
        obtain ⟨hhead, hdirective⟩ := (ofText?_eq_none_iff hmaximal.1).mp hkind
        exact Or.inr (Or.inl ⟨_, rest, heq, hhead, hdirective, hmaximal⟩)
  · exact Or.inr (Or.inr hnone)

/-! ## Tokens and layout -/

/-- The characters of tokens are visible, and none is a slash. -/
theorem Lexical.code {text : List Char} (h : Lexical text) {c : Char} (hc : c ∈ text) :
    33 ≤ c.toNat ∧ c.toNat ≤ 126 ∧ c.toNat ≠ 47 := by
  have hdigit : ∀ {x : Char}, x.isDigit = true → 33 ≤ x.toNat ∧ x.toNat ≤ 126 ∧ x.toNat ≠ 47 := by
    intro x hx
    have := isDigit_iff.mp hx
    omega
  have hstart : ∀ {x : Char}, startsWord x = true →
      33 ≤ x.toNat ∧ x.toNat ≤ 126 ∧ x.toNat ≠ 47 := by
    intro x hx
    have := startsWord_iff.mp hx
    omega
  cases h with
  | mark hmark =>
      rw [List.mem_singleton.mp hc]
      have := mark_iff.mp hmark
      omega
  | number _ hds => exact hdigit (hds c hc)
  | negative _ hds =>
      rcases List.mem_cons.mp hc with rfl | hc
      · decide
      · exact hdigit (hds c hc)
  | word hfirst hcs =>
      rcases List.mem_cons.mp hc with rfl | hc
      · exact hstart (by simpa [startsWord] using hfirst)
      · have hword : continuesWord c = true := by simpa [continuesWord] using hcs c hc
        exact (continuesWord_iff.mp hword).elim hstart hdigit

theorem isBlank_eq_false {c : Char} (h : 33 ≤ c.toNat ∧ c.toNat ≤ 126) :
    Text.isBlank c = false := by
  simp only [Text.isBlank, Text.blankRanges, List.any_cons, List.any_nil, Bool.or_false,
    Bool.or_eq_false_iff, Bool.and_eq_false_imp, decide_eq_true_eq, decide_eq_false_iff_not]
  omega

/-- No layout starts where a token does. -/
theorem Lexical.bare {text : List Char} (h : Lexical text) (rest : List Char) :
    Bare (text ++ rest) := by
  obtain ⟨c, cs, rfl⟩ := List.exists_cons_of_ne_nil h.ne_nil
  obtain ⟨hle, hge, hslash⟩ := h.code List.mem_cons_self
  refine ⟨isBlank_eq_false ⟨hle, hge⟩, ?_⟩
  rintro ⟨rfl, _⟩
  exact hslash rfl

/-- Layout ends a token. -/
theorem maximal_of_layout {text gap : List Char} (h : Lexical text) (hgap : Layout gap)
    (hne : gap ≠ []) (rest : List Char) : Maximal text (gap ++ rest) := by
  refine ⟨h, ?_⟩
  rintro more hmore hpre hlexical
  obtain ⟨c, more, rfl⟩ := List.exists_cons_of_ne_nil hmore
  obtain ⟨hle, hge, hslash⟩ := hlexical.code (c := c) (by simp)
  have hc : ∀ {d ds}, gap = d :: ds → c = d := by
    rintro d ds rfl
    exact (List.cons_prefix_cons.mp hpre).1
  cases hgap with
  | nil => exact hne rfl
  | blank hblank _ =>
      rw [← hc rfl, isBlank_eq_false ⟨hle, hge⟩] at hblank
      cases hblank
  | line _ _ =>
      rw [hc rfl] at hslash
      exact hslash rfl
  | block _ _ =>
      rw [hc rfl] at hslash
      exact hslash rfl

theorem maximal_nil {text : List Char} (h : Lexical text) : Maximal text [] := by
  refine ⟨h, fun more hmore hpre => ?_⟩
  exact absurd (List.prefix_nil.mp hpre) hmore

end Lexer

end RegAlloc
