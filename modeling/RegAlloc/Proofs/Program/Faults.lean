import RegAlloc.Proofs.Program.Acceptance

/-!
# Faults of a text

A text that is no program is refused by the reader before the builder could refuse it: the calls
that the reader makes are always in order.
-/

namespace RegAlloc

/-- Faults that a reader finds itself. -/
def SourceError.IsParse (e : SourceError) : Prop := ∃ fault, e = .parse fault

namespace Parser

variable {b : Builder} {ss : List Statement} {names : List String} {ts : List Token}

/-- The computation fails with faults of the reader only. -/
def Guarded {α : Type} (x : Except SourceError α) : Prop := ∀ e, x = .error e → e.IsParse

section Guarded

variable {α β : Type}

theorem guarded_ok (a : α) : Guarded (.ok a) := by
  intro e h
  cases h

theorem guarded_parse (fault : ParseError) : Guarded (.error (.parse fault) : Except _ α) := by
  intro e h
  cases h
  exact ⟨fault, rfl⟩

theorem Guarded.bind {x : Except SourceError α} {f : α → Except SourceError β} (hx : Guarded x)
    (hf : ∀ a, x = .ok a → Guarded (f a)) : Guarded (x >>= f) := by
  cases x with
  | error e =>
      intro e' h
      cases h
      exact hx e rfl
  | ok a => exact hf a rfl

theorem Guarded.map {x : Except SourceError α} (hx : Guarded x) (f : α → β) : Guarded (x.map f) := by
  cases x with
  | error e =>
      intro e' h
      cases h
      exact hx e rfl
  | ok a => exact guarded_ok (f a)

/-- A call of the builder that is in order. -/
theorem guarded_mapError {x : Except BuildError α} (h : ∃ a, x = .ok a) :
    Guarded (x.mapError .build) := by
  obtain ⟨a, rfl⟩ := h
  exact guarded_ok a

end Guarded

theorem guarded_expect (kind : Kind) (ts : List Token) : Guarded (expect kind ts) := by
  unfold expect
  split
  · exact guarded_ok _
  · exact guarded_parse _

theorem guarded_number (t : Token) : Guarded (number t) := by
  unfold number
  dsimp only
  split
  · exact guarded_ok _
  · exact guarded_parse _

theorem guarded_declared (kind : VarKind) (t : Token) (b : Builder) :
    Guarded (declared kind t b) := by
  unfold declared
  split
  · exact guarded_ok _
  · exact guarded_parse _

theorem guarded_labelDefined (t : Token) (b : Builder) : Guarded (labelDefined t b) := by
  unfold labelDefined
  dsimp only
  split
  · exact guarded_parse _
  · exact guarded_ok _

theorem guarded_operand (piece : Piece) (t : Token) (b : Builder) :
    Guarded (operand piece t b) := by
  cases piece with
  | register => exact (guarded_declared .register t b).map _
  | memory => exact (guarded_declared .memory t b).map _
  | constant => exact (guarded_number t).map _
  | label | comma | leftParen | rightParen => exact guarded_ok _

theorem guarded_operands (pieces : List Piece) (ts : List Token) (b : Builder) :
    Guarded (operands pieces ts b) := by
  induction pieces generalizing ts b with
  | nil => exact guarded_ok _
  | cons piece pieces ih =>
      refine (guarded_expect _ _).bind fun (t, ts') _ => ?_
      refine (guarded_operand piece t b).bind fun (id, b') _ => ?_
      exact (ih ts' b').bind fun _ _ => guarded_ok _

theorem guarded_instruction (h : b.Reads ss names) {label : Option VarId}
    (hlabel : ∀ v, label = some v → b.checkFree v = .ok ()) (ts : List Token) :
    Guarded (instruction label ts b) := by
  unfold instruction
  split
  · exact guarded_parse _
  · split
    · refine (guarded_operands _ _ _).bind fun (ids, ts', b') hread => ?_
      refine (guarded_mapError ?_).bind fun _ _ => guarded_ok _
      exact exists_append_of_operands h hlabel hread
    · exact guarded_parse _

theorem guarded_memory (ts : List Token) (b : Builder) : Guarded (memory ts b) := by
  refine (guarded_expect _ _).bind fun (name, ts') _ => ?_
  dsimp only
  split
  · exact guarded_parse _
  · refine (guarded_expect _ _).bind fun (t, _) _ => ?_
    exact (guarded_number t).bind fun _ _ => guarded_ok _

theorem guarded_register (ts : List Token) (b : Builder) : Guarded (register ts b) := by
  refine (guarded_expect _ _).bind fun (name, ts') _ => ?_
  dsimp only
  split
  · exact guarded_parse _
  · exact guarded_ok _

theorem guarded_function (h : b.Reads ss []) (ts : List Token) : Guarded (function ts b) := by
  refine (guarded_expect _ _).bind fun (name, ts') _ => ?_
  refine (guarded_labelDefined name b).bind fun (label, b') hread => ?_
  have hfree := (reads_labelDefined h hread).2.1
  exact (guarded_mapError (Builder.exists_entry hfree)).bind fun _ _ => guarded_ok _

theorem guarded_labeled (h : b.Reads ss []) (name : Token) (ts : List Token) :
    Guarded (labeled name ts b) := by
  refine (guarded_labelDefined name b).bind fun (label, b') hread => ?_
  obtain ⟨hreads, hfree, _⟩ := reads_labelDefined h hread
  refine (guarded_expect _ _).bind fun (_, ts') _ => ?_
  refine guarded_instruction hreads (fun v hv => ?_) ts'
  cases hv
  exact hfree

theorem guarded_statement (h : b.Reads ss []) (ts : List Token) : Guarded (statement ts b) := by
  unfold statement
  split
  · exact guarded_memory _ b
  · exact guarded_register _ b
  · exact guarded_function h _
  · exact guarded_labeled h _ _
  · exact guarded_instruction h (by simp) ts

theorem guarded_statements (h : b.Reads ss []) (ts : List Token) : Guarded (statements ts b) := by
  fun_induction statements ts b generalizing ss with
  | case1 ts b e hread =>
      intro e' heq
      cases heq
      exact guarded_statement h ts e hread
  | case2 ts b rest b' hread e hended =>
      intro e' heq
      cases heq
      exact guarded_expect _ _ e hended
  | case3 => exact guarded_ok _
  | case4 ts b rest b' hread _ rest' _ _ ih =>
      obtain ⟨_, s, _, _, _, hreads⟩ := reads_statement h hread
      exact ih hreads

theorem guarded_program (ts : List Token) : Guarded (program ts) := by
  rw [program_eq_scan]
  refine (guarded_statements Builder.reads_new ts).bind fun b _ => ?_
  split
  · exact guarded_parse _
  · split
    · exact guarded_parse _
    · exact guarded_ok _
    · exact guarded_parse _

/-! ## The fault of each step -/

section Faults

variable {e : SourceError} {t : Token}

theorem bind_eq_error {ε α β : Type} {x : Except ε α} {f : α → Except ε β} {e : ε} :
    (x >>= f) = .error e ↔ x = .error e ∨ ∃ a, x = .ok a ∧ f a = .error e := by
  cases x <;> simp [bind, Except.bind]

theorem map_eq_error {ε α β : Type} {x : Except ε α} {f : α → β} {e : ε} :
    x.map f = .error e ↔ x = .error e := by
  cases x <;> simp [Except.map]

theorem mapError_eq_error {ε ε' α : Type} {x : Except ε α} {f : ε → ε'} {e : ε'}
    (h : x.mapError f = .error e) : ∃ fault, e = f fault := by
  cases x with
  | error fault =>
      cases h
      exact ⟨fault, rfl⟩
  | ok a => cases h

theorem expect_eq_error {kind : Kind} (h : expect kind ts = .error e) :
    e = .parse (.unexpectedToken kind.describe (current ts)) := by
  unfold expect at h
  split at h <;> cases h
  rfl

theorem number_eq_error (h : number t = .error e) :
    e = .parse (.invalidNumber t) ∧
      ¬ Text.Decimal.FitsWord (Text.Decimal.value t.text.toList) := by
  simp only [number] at h
  split at h
  · cases h
  · rename_i hfits
    cases h
    exact ⟨rfl, hfits⟩

theorem declared_eq_error {kind : VarKind} (h : declared kind t b = .error e) :
    e = .parse (.undeclaredVariable t) := by
  unfold declared at h
  split at h <;> cases h
  rfl

theorem labelDefined_eq_error (h : labelDefined t b = .error e) :
    e = .parse (.duplicateLabel t.text) := by
  simp only [labelDefined] at h
  split at h <;> cases h
  rfl

theorem operand_eq_error {piece : Piece} (h : operand piece t b = .error e) :
    e = .parse (.undeclaredVariable t) ∨
      piece = .constant ∧ e = .parse (.invalidNumber t) ∧
        ¬ Text.Decimal.FitsWord (Text.Decimal.value t.text.toList) := by
  cases piece with
  | register | memory => exact Or.inl (declared_eq_error (map_eq_error.mp h))
  | constant => exact Or.inr ⟨rfl, number_eq_error (map_eq_error.mp h)⟩
  | label | comma | leftParen | rightParen => cases h

end Faults

end Parser

/-- A text is refused for its tokens or for its statements. -/
theorem Program.fault_of_parse {text : String} {e : SourceError}
    (h : Program.parse text = .error e) : (∃ fault, e = .lex fault) ∨ e.IsParse := by
  unfold Program.parse at h
  cases htokens : tokenize text with
  | error fault =>
      rw [htokens] at h
      cases h
      exact Or.inl ⟨fault, rfl⟩
  | ok ts =>
      rw [htokens] at h
      exact Or.inr (Parser.guarded_program ts e h)

end RegAlloc
