import Mathlib.Logic.Relation
import RegAlloc.Proofs.Program.Tables

/-!
# Parsed programs are built by calls

Reading changes its builder through the calls of the builder only: `Parser.Move` says what calls
these are. A parsed program has every property that they establish.
-/

namespace RegAlloc

/-- Whether a computation succeeds with a result that passes a test. -/
def succeedsWith {ε α : Type} (test : α → Bool) : Except ε α → Bool
  | .ok a => test a
  | .error _ => false

/-- A computation that succeeds with a result of which `P` can be decided. -/
theorem exists_ok_of_decide {ε α : Type} {x : Except ε α} {P : α → Prop} [DecidablePred P]
    (h : succeedsWith (fun a => decide (P a)) x = true) : ∃ a, x = .ok a ∧ P a := by
  cases x with
  | error e => cases h
  | ok a => exact ⟨a, rfl, of_decide_eq_true h⟩

namespace Parser

theorem map_eq_ok {ε α β : Type} {x : Except ε α} {f : α → β} {c : β} :
    x.map f = .ok c ↔ ∃ a, x = .ok a ∧ f a = c := by
  cases x <;> simp [Except.map]

theorem mapError_eq_ok {ε ε' α : Type} {x : Except ε α} {f : ε → ε'} {a : α} :
    x.mapError f = .ok a ↔ x = .ok a := by
  cases x with
  | error e => exact ⟨nofun, nofun⟩
  | ok b =>
      change Except.ok b = Except.ok a ↔ _
      simp

end Parser

/-- The kind of variable that tokens of a kind stand for. -/
def Kind.varKind? : Kind → Option VarKind
  | .registerName => some .register
  | .memoryName => some .memory
  | .name => some .label
  | .number => some .constant
  | _ => none

namespace Parser

variable {T : VarKind → String → Prop} {b b' : Builder} {ts rest : List Token}

/-- One call of the builder as the reader makes it. The name of a new variable is one that `T` has
for its kind, and no variable of that kind has it. -/
inductive Move (T : VarKind → String → Prop) : Builder → Builder → Prop where
  | memory {b : Builder} {name : String} (value : Int) (hname : T .memory name)
      (hnew : b.find? .memory name = none) : Move T b (b.memory name value).2
  | register {b : Builder} {name : String} (hname : T .register name)
      (hnew : b.find? .register name = none) : Move T b (b.register name).2
  | label {b : Builder} {name : String} (hname : T .label name)
      (hnew : b.find? .label name = none) : Move T b (b.label name).2
  | constant (b : Builder) (value : Int) : Move T b (b.constant value).2
  | entry {b b' : Builder} {label : VarId} {inst : InstId}
      (hentry : b.entry label = .ok (inst, b')) : Move T b b'
  | instruction {b b' : Builder} {opcode : Opcode} {dst src : List VarId} {inst : InstId}
      (hinstruction : b.instruction opcode dst src = .ok (inst, b')) : Move T b b'
  | attach {b b' : Builder} {inst : InstId} {label : VarId} (hinst : inst < b.instructionCount)
      (hattach : b.attach inst label = .ok b') : Move T b b'

/-- Some calls of the reader. -/
def Moves (T : VarKind → String → Prop) : Builder → Builder → Prop := Relation.ReflTransGen (Move T)

theorem Moves.refl (b : Builder) : Moves T b b := Relation.ReflTransGen.refl

theorem Move.moves (h : Move T b b') : Moves T b b' := Relation.ReflTransGen.single h

theorem Moves.trans {b'' : Builder} (h : Moves T b b') (h' : Moves T b' b'') : Moves T b b'' :=
  Relation.ReflTransGen.trans h h'

/-- What each call keeps, all calls keep. -/
theorem Moves.keep {P : Builder → Prop} (h : Moves T b b')
    (hmove : ∀ {b b'}, P b → Move T b b' → P b') (hb : P b) : P b' := by
  induction h with
  | refl => exact hb
  | tail _ hlast ih => exact hmove ih hlast

/-- The tokens that stand for variables have texts that `T` has for them. -/
def Names (T : VarKind → String → Prop) (ts : List Token) : Prop :=
  ∀ t ∈ ts, ∀ kind, t.kind.varKind? = some kind → T kind t.text

theorem Names.tail (h : Names T ts) : Names T ts.tail := fun t ht =>
  h t (List.mem_of_mem_tail ht)

theorem Names.current (h : Names T ts) {kind : VarKind}
    (hkind : (current ts).kind.varKind? = some kind) : T kind (current ts).text := by
  cases ts with
  | nil => cases hkind
  | cons t ts => exact h t List.mem_cons_self kind hkind

theorem Names.expect (h : Names T ts) {kind : Kind} {t : Token}
    (hread : expect kind ts = .ok (t, rest)) :
    Names T rest ∧ ∀ k, kind.varKind? = some k → T k t.text := by
  unfold Parser.expect at hread
  split at hread
  · rename_i hkind
    cases hread
    exact ⟨h.tail, fun k hk => h.current (hkind ▸ hk)⟩
  · cases hread

theorem moves_labelNamed {t : Token} (ht : T .label t.text) (b : Builder) :
    Moves T b (labelNamed t b).2 := by
  unfold labelNamed
  split
  · exact .refl b
  · rename_i hnew
    exact (Move.label ht hnew).moves

theorem moves_labelDefined {t : Token} {id : VarId} (ht : T .label t.text)
    (hread : labelDefined t b = .ok (id, b')) : Moves T b b' := by
  unfold labelDefined at hread
  dsimp only at hread
  split at hread
  · cases hread
  · cases hread
    exact moves_labelNamed ht b

theorem moves_declared {kind : VarKind} {t : Token} {id : VarId}
    (hread : declared kind t b = .ok (id, b')) : Moves T b b' := by
  unfold declared at hread
  split at hread
  · cases hread
    exact .refl b
  · cases hread

theorem moves_operand {piece : Piece} {t : Token} {id : Option VarId}
    (ht : ∀ k, piece.kind.varKind? = some k → T k t.text)
    (hread : operand piece t b = .ok (id, b')) : Moves T b b' := by
  cases piece with
  | register =>
      obtain ⟨⟨v, _⟩, hdeclared, heq⟩ := map_eq_ok.mp hread
      cases heq
      exact moves_declared hdeclared
  | memory =>
      obtain ⟨⟨v, _⟩, hdeclared, heq⟩ := map_eq_ok.mp hread
      cases heq
      exact moves_declared hdeclared
  | constant =>
      obtain ⟨n, _, heq⟩ := map_eq_ok.mp hread
      cases heq
      exact (Move.constant b n).moves
  | label =>
      cases hread
      exact moves_labelNamed (ht .label rfl) b
  | comma => cases hread; exact .refl b
  | leftParen => cases hread; exact .refl b
  | rightParen => cases hread; exact .refl b

theorem moves_operands {pieces : List Piece} {ids : List VarId} (hts : Names T ts)
    (hread : operands pieces ts b = .ok (ids, rest, b')) : Names T rest ∧ Moves T b b' := by
  induction pieces generalizing ts b ids with
  | nil =>
      cases hread
      exact ⟨hts, .refl _⟩
  | cons piece pieces ih =>
      obtain ⟨⟨t, ts'⟩, hexpect, hread⟩ := bind_eq_ok.mp hread
      obtain ⟨⟨id, b₁⟩, hoperand, hread⟩ := bind_eq_ok.mp hread
      obtain ⟨⟨ids', rest', b₂⟩, hoperands, hread⟩ := bind_eq_ok.mp hread
      cases hread
      obtain ⟨hts', ht⟩ := hts.expect hexpect
      obtain ⟨hrest, hmoves⟩ := ih hts' hoperands
      exact ⟨hrest, (moves_operand ht hoperand).trans hmoves⟩

/-- An appended instruction takes the next index. -/
theorem inst_lt_of_instruction {opcode : Opcode} {dst src : List VarId} {inst : InstId}
    (h : b.instruction opcode dst src = .ok (inst, b')) : inst < b'.instructionCount := by
  rw [Builder.instruction_eq] at h
  obtain ⟨_, _, heq⟩ := map_eq_ok.mp h
  cases heq
  simp [Builder.instructionCount, Program.size]

theorem moves_append {opcode : Opcode} {ids : List VarId} {label : Option VarId}
    (hread : append opcode ids label b = .ok b') : Moves T b b' := by
  obtain ⟨⟨inst, b₁⟩, hinstruction, hread⟩ := bind_eq_ok.mp hread
  have hb₁ : Moves T b b₁ := (Move.instruction hinstruction).moves
  cases label with
  | none =>
      cases hread
      exact hb₁
  | some label => exact hb₁.trans (Move.attach (inst_lt_of_instruction hinstruction) hread).moves

theorem moves_instruction {label : Option VarId} (hts : Names T ts)
    (hread : instruction label ts b = .ok (rest, b')) : Names T rest ∧ Moves T b b' := by
  unfold instruction at hread
  split at hread
  · cases hread
  · split at hread
    · obtain ⟨⟨ids, ts', b₁⟩, hoperands, hread⟩ := bind_eq_ok.mp hread
      obtain ⟨b₂, happend, hread⟩ := bind_eq_ok.mp hread
      cases hread
      obtain ⟨hrest, hmoves⟩ := moves_operands hts.tail hoperands
      exact ⟨hrest, hmoves.trans (moves_append (mapError_eq_ok.mp happend))⟩
    · cases hread

theorem moves_memory (hts : Names T ts) (hread : memory ts b = .ok (rest, b')) :
    Names T rest ∧ Moves T b b' := by
  obtain ⟨⟨name, ts'⟩, hexpect, hread⟩ := bind_eq_ok.mp hread
  dsimp only at hread
  split at hread
  · cases hread
  · rename_i hnew
    obtain ⟨⟨t, ts''⟩, hexpect', hread⟩ := bind_eq_ok.mp hread
    obtain ⟨value, _, hread⟩ := bind_eq_ok.mp hread
    cases hread
    obtain ⟨hts', hname⟩ := hts.expect hexpect
    obtain ⟨hrest, _⟩ := hts'.expect hexpect'
    exact ⟨hrest, (Move.memory value (hname .memory rfl) (by simpa using hnew)).moves⟩

theorem moves_register (hts : Names T ts) (hread : register ts b = .ok (rest, b')) :
    Names T rest ∧ Moves T b b' := by
  obtain ⟨⟨name, ts'⟩, hexpect, hread⟩ := bind_eq_ok.mp hread
  dsimp only at hread
  split at hread
  · cases hread
  · rename_i hnew
    cases hread
    obtain ⟨hrest, hname⟩ := hts.expect hexpect
    exact ⟨hrest, (Move.register (hname .register rfl) (by simpa using hnew)).moves⟩

theorem moves_function (hts : Names T ts) (hread : function ts b = .ok (rest, b')) :
    Names T rest ∧ Moves T b b' := by
  obtain ⟨⟨name, ts'⟩, hexpect, hread⟩ := bind_eq_ok.mp hread
  obtain ⟨⟨label, b₁⟩, hlabel, hread⟩ := bind_eq_ok.mp hread
  obtain ⟨⟨inst, b₂⟩, hentry, hread⟩ := bind_eq_ok.mp hread
  cases hread
  obtain ⟨hrest, hname⟩ := hts.expect hexpect
  have hmoves := moves_labelDefined (hname .label rfl) hlabel
  exact ⟨hrest, hmoves.trans (Move.entry (mapError_eq_ok.mp hentry)).moves⟩

theorem moves_labeled {name : Token} (hname : T .label name.text) (hts : Names T ts)
    (hread : labeled name ts b = .ok (rest, b')) : Names T rest ∧ Moves T b b' := by
  obtain ⟨⟨label, b₁⟩, hlabel, hread⟩ := bind_eq_ok.mp hread
  obtain ⟨⟨_, ts'⟩, hexpect, hread⟩ := bind_eq_ok.mp hread
  obtain ⟨hrest, hmoves⟩ := moves_instruction (hts.expect hexpect).1 hread
  exact ⟨hrest, (moves_labelDefined hname hlabel).trans hmoves⟩

theorem moves_statement (hts : Names T ts) (hread : statement ts b = .ok (rest, b')) :
    Names T rest ∧ Moves T b b' := by
  unfold statement at hread
  split at hread
  · exact moves_memory hts.tail hread
  · exact moves_register hts.tail hread
  · exact moves_function hts.tail hread
  · rename_i hkind
    exact moves_labeled (hts.current (by rw [hkind]; rfl)) hts.tail hread
  · exact moves_instruction hts hread

theorem moves_statements (hts : Names T ts) (hread : statements ts b = .ok b') :
    Moves T b b' := by
  fun_induction statements ts b with
  | case1 => cases hread
  | case2 => cases hread
  | case3 ts b rest b₁ hstatement _ rest' _ _ =>
      cases hread
      exact (moves_statement hts hstatement).2
  | case4 ts b rest b₁ hstatement _ rest' hexpect _ ih =>
      obtain ⟨hrest, hmoves⟩ := moves_statement hts hstatement
      exact hmoves.trans (ih (hrest.expect hexpect).1 hread)

/-! ## Builders that are reached -/

theorem Moves.reachable (h : Moves T b b') (hb : b.Reachable) : b'.Reachable := by
  refine h.keep (fun hb hmove => ?_) hb
  cases hmove with
  | memory value _ _ => exact hb.memory _ value
  | register _ _ => exact hb.register _
  | label _ _ => exact hb.label _
  | constant value => exact hb.constant value
  | entry hentry => exact hb.entry hentry
  | instruction hinstruction => exact hb.instruction hinstruction
  | attach hinst hattach => exact hb.attach hinst hattach

theorem names_true (ts : List Token) : Names (fun _ _ => True) ts := fun _ _ _ _ => trivial

theorem reachable_labelDefined {t : Token} {id : VarId} (h : b.Reachable)
    (hread : labelDefined t b = .ok (id, b')) : b'.Reachable :=
  (moves_labelDefined (T := fun _ _ => True) trivial hread).reachable h

theorem reachable_operand {piece : Piece} {t : Token} {id : Option VarId} (h : b.Reachable)
    (hread : operand piece t b = .ok (id, b')) : b'.Reachable :=
  (moves_operand (T := fun _ _ => True) (fun _ _ => trivial) hread).reachable h

theorem reachable_append {opcode : Opcode} {ids : List VarId} {label : Option VarId}
    (h : b.Reachable) (hread : append opcode ids label b = .ok b') : b'.Reachable :=
  (moves_append (T := fun _ _ => True) hread).reachable h

theorem reachable_statement (h : b.Reachable) (hread : statement ts b = .ok (rest, b')) :
    b'.Reachable :=
  (moves_statement (names_true ts) hread).2.reachable h

theorem reachable_statements (h : b.Reachable) (hread : statements ts b = .ok b') : b'.Reachable :=
  (moves_statements (names_true ts) hread).reachable h

theorem statements_of_program {p : Program} (h : program ts = .ok p) :
    ∃ b, statements ts {} = .ok b ∧ b.program = p := by
  rw [program_eq_scan] at h
  obtain ⟨b, hread, h⟩ := bind_eq_ok.mp h
  refine ⟨b, hread, ?_⟩
  split at h
  · cases h
  · split at h
    · cases h
    · cases h
      rfl
    · cases h

end Parser

theorem Program.finished_of_parse {text : String} {p : Program} (h : Program.parse text = .ok p) :
    p.Finished := by
  obtain ⟨ts, _, h⟩ := Parser.bind_eq_ok.mp h
  obtain ⟨b, hread, rfl⟩ := Parser.statements_of_program h
  exact ⟨b, Parser.reachable_statements .new hread, rfl⟩

end RegAlloc
