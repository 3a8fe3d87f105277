import RegAlloc.Proofs.Program.Operands
import RegAlloc.Proofs.Program.Spacing
import Mathlib.Data.List.Find
import Mathlib.Logic.Embedding.Basic

/-!
# Renaming registers

The tokens of a text with other names for its registers, different ones for different registers.
The reader looks names up and does nothing else with them, so it finds the same variables and makes
the same program, with the other names in it.
-/

namespace RegAlloc

variable (f : String ↪ String)

/-! ## Other names -/

def Token.renamed (t : Token) : Token :=
  { t with text := if t.kind = .registerName then f t.text else t.text }

def Variable.renamed (v : Variable) : Variable :=
  { v with name := if v.kind = .register then f v.name else v.name }

def Program.renamed (p : Program) : Program := { p with vars := p.vars.map (Variable.renamed f) }

def Builder.renamed (b : Builder) : Builder := { b with program := b.program.renamed f }

theorem Token.text_renamed_of_ne {t : Token} (h : t.kind ≠ .registerName) :
    (t.renamed f).text = t.text :=
  if_neg h

theorem Token.text_renamed {t : Token} (h : t.kind = .registerName) :
    (t.renamed f).text = f t.text :=
  if_pos h

theorem Variable.isDefinedLabel_renamed (v : Variable) :
    (v.renamed f).isDefinedLabel = v.isDefinedLabel :=
  rfl

theorem Program.var_renamed (p : Program) (v : VarId) :
    (p.renamed f).var v = (p.var v).renamed f := by
  simp only [Program.var, Program.renamed, Array.getD_eq_getD_getElem?, Array.getElem?_map]
  cases p.vars[v]? <;> rfl

theorem Program.ofKind_renamed (p : Program) (kind : VarKind) :
    (p.renamed f).ofKind kind = p.ofKind kind := by
  cases kind <;> rfl

namespace Builder

variable {f} {b : Builder}

theorem var_renamed (b : Builder) (v : VarId) : (b.renamed f).var v = (b.var v).renamed f :=
  b.program.var_renamed f v

/-- A look-up finds the same variable, as the variables of a list are all of its kind. -/
theorem find?_renamed (h : b.Kinded) {kind : VarKind} {name : String} :
    (b.renamed f).find? kind (if kind = .register then f name else name) = b.find? kind name := by
  unfold find?
  rw [renamed, Program.ofKind_renamed]
  refine List.find?_congr fun v hv => ?_
  have hkind : (b.var v).kind = kind := h.kind_of_mem hv
  rw [← renamed, var_renamed, Variable.renamed, hkind]
  split
  · simp
  · rfl

theorem constant?_renamed (b : Builder) (value : Int) :
    (b.renamed f).constant? value = b.constant? value := rfl

theorem renamed_new : ({} : Builder).renamed f = {} := by simp [renamed, Program.renamed]

theorem functionCount_renamed (b : Builder) : (b.renamed f).functionCount = b.functionCount := rfl

/-! ## Calls -/

theorem memory_renamed (b : Builder) (name : String) (value : Int) :
    (b.renamed f).memory name value = Prod.map id (renamed f) (b.memory name value) := by
  simp [memory, push, renamed, Program.renamed, Variable.renamed]

theorem register_renamed (b : Builder) (name : String) :
    (b.renamed f).register (f name) = Prod.map id (renamed f) (b.register name) := by
  simp [register, push, renamed, Program.renamed, Variable.renamed]

theorem label_renamed (b : Builder) (name : String) :
    (b.renamed f).label name = Prod.map id (renamed f) (b.label name) := by
  simp [label, push, renamed, Program.renamed, Variable.renamed]

theorem constant_renamed (b : Builder) (value : Int) :
    (b.renamed f).constant value = Prod.map id (renamed f) (b.constant value) := by
  rw [constant, constant, constant?_renamed]
  split
  · rfl
  · simp [push, renamed, Program.renamed, Variable.renamed]

theorem define_renamed (b : Builder) (label : VarId) :
    (b.renamed f).define label = (b.define label).renamed f := by
  have hvars : (b.program.vars.map (Variable.renamed f)).modify label
      (fun v => { v with value := 1 }) =
      (b.program.vars.modify label fun v => { v with value := 1 }).map (Variable.renamed f) := by
    apply Array.ext_getElem?
    intro v
    simp only [Array.getElem?_modify, Array.getElem?_map]
    split
    · cases b.program.vars[v]? <;> rfl
    · rfl
  simp only [define, renamed, Program.renamed, hvars]

theorem checkFree_renamed (b : Builder) (label : VarId) :
    (b.renamed f).checkFree label = .ok () ↔ b.checkFree label = .ok () := by
  rw [checkFree_eq_ok_iff, checkFree_eq_ok_iff, renamed, Program.var_renamed]
  rfl

theorem checkOperands_renamed (b : Builder) (opcode : Opcode) (dst src : List VarId) :
    (b.renamed f).checkOperands opcode dst src = .ok () ↔
      b.checkOperands opcode dst src = .ok () := by
  simp only [checkOperands_eq_ok_iff, renamed, Program.var_renamed]
  rfl

end Builder

/-! ## Readings that mirror each other -/

/-- Both computations fail, or the second has the result of the first after `ρ`. -/
inductive Mirrors {ε α : Type} (ρ : α → α) : Except ε α → Except ε α → Prop where
  | ok (a : α) : Mirrors ρ (.ok a) (.ok (ρ a))
  | error (e e' : ε) : Mirrors ρ (.error e) (.error e')

namespace Mirrors

variable {ε ε' α β : Type} {ρ : α → α} {σ : β → β} {x x' : Except ε α}

theorem of_eq_ok_iff {x x' : Except ε Unit} (h : x' = .ok () ↔ x = .ok ()) : Mirrors id x x' := by
  cases x with
  | ok a =>
      rw [h.mpr rfl]
      exact .ok ()
  | error e =>
      cases x' with
      | ok a => cases h.mp rfl
      | error e' => exact .error e e'

theorem exists_ok_iff (h : Mirrors ρ x x') : (∃ a, x = .ok a) ↔ ∃ a, x' = .ok a := by
  cases h with
  | ok a => exact iff_of_true ⟨a, rfl⟩ ⟨ρ a, rfl⟩
  | error e e' => simp

theorem bind {g g' : α → Except ε β} (hx : Mirrors ρ x x')
    (hg : ∀ a, x = .ok a → Mirrors σ (g a) (g' (ρ a))) : Mirrors σ (x >>= g) (x' >>= g') := by
  cases hx with
  | ok a => exact hg a rfl
  | error e e' => exact .error e e'

theorem map {g g' : α → β} (hx : Mirrors ρ x x') (hg : ∀ a, g' (ρ a) = σ (g a)) :
    Mirrors σ (x.map g) (x'.map g') := by
  cases hx with
  | ok a =>
      rw [Except.map, Except.map, hg]
      exact .ok (g a)
  | error e e' => exact .error e e'

theorem mapError {make : ε → ε'} (hx : Mirrors ρ x x') :
    Mirrors ρ (x.mapError make) (x'.mapError make) := by
  cases hx with
  | ok a => exact .ok a
  | error e e' => exact .error _ _

theorem of_alike {x x' x'' : Except SourceError α} (hx : Mirrors ρ x x')
    (h : Parser.Alike Eq x'' x') : Mirrors ρ x x'' := by
  cases h with
  | ok heq =>
      rw [heq]
      exact hx
  | error _ =>
      cases hx
      exact .error _ _

end Mirrors

namespace Builder

variable {f} (b : Builder)

theorem mirrors_entry (label : VarId) :
    Mirrors (Prod.map id (renamed f)) (b.entry label) ((b.renamed f).entry label) := by
  rw [entry_eq, entry_eq]
  refine (Mirrors.of_eq_ok_iff (b.checkFree_renamed label)).map fun _ => ?_
  rw [define_renamed]
  rfl

theorem mirrors_instruction (opcode : Opcode) (dst src : List VarId) :
    Mirrors (Prod.map id (renamed f)) (b.instruction opcode dst src)
      ((b.renamed f).instruction opcode dst src) := by
  rw [instruction_eq, instruction_eq]
  exact (Mirrors.of_eq_ok_iff (b.checkOperands_renamed opcode dst src)).map fun _ => rfl

theorem mirrors_attach (inst : InstId) (label : VarId) :
    Mirrors (renamed f) (b.attach inst label) ((b.renamed f).attach inst label) := by
  rw [attach_eq, attach_eq]
  refine (Mirrors.of_eq_ok_iff (b.checkFree_renamed label)).map fun _ => ?_
  rw [define_renamed]
  rfl

end Builder

/-! ## Reading -/

namespace Parser

variable {f} {b : Builder} {t : Token}

/-- What is left to read and the builder, under other names. -/
abbrev restRenamed (f : String ↪ String) : List Token × Builder → List Token × Builder :=
  Prod.map (List.map (Token.renamed f)) (Builder.renamed f)

theorem current_map_renamed (ts : List Token) :
    current (ts.map (Token.renamed f)) = (current ts).renamed f := by
  cases ts <;> rfl

theorem kind_current_renamed (ts : List Token) :
    (current (ts.map (Token.renamed f))).kind = (current ts).kind := by
  rw [current_map_renamed]
  rfl

theorem mirrors_expect (kind : Kind) (ts : List Token) :
    Mirrors (Prod.map (Token.renamed f) (List.map (Token.renamed f))) (expect kind ts)
      (expect kind (ts.map (Token.renamed f))) := by
  unfold expect
  rw [kind_current_renamed, current_map_renamed, ← List.map_tail]
  split
  · exact .ok (current ts, ts.tail)
  · exact .error _ _

theorem kind_of_expect {kind : Kind} {ts rest : List Token} (h : expect kind ts = .ok (t, rest)) :
    t.kind = kind := by
  unfold expect at h
  split at h
  · rename_i hkind
    cases h
    exact hkind
  · cases h

theorem mirrors_number (h : t.kind ≠ .registerName) :
    Mirrors id (number t) (number (t.renamed f)) := by
  unfold number
  rw [Token.text_renamed_of_ne f h]
  dsimp only
  split
  · exact .ok _
  · exact .error _ _

/-- The token names a variable of the kind under its new name. -/
theorem find?_token_renamed (h : b.Reachable) {kind : VarKind}
    (hkind : t.kind = .registerName ↔ kind = .register) :
    (b.renamed f).find? kind (t.renamed f).text = b.find? kind t.text := by
  have htext : (t.renamed f).text = if kind = .register then f t.text else t.text := by
    simp only [Token.renamed, hkind]
  rw [htext, Builder.find?_renamed h.kinded]

theorem mirrors_declared (h : b.Reachable) {kind : VarKind}
    (hkind : t.kind = .registerName ↔ kind = .register) :
    Mirrors (Prod.map id (Builder.renamed f)) (declared kind t b)
      (declared kind (t.renamed f) (b.renamed f)) := by
  unfold declared
  rw [find?_token_renamed h hkind]
  split
  · exact .ok _
  · exact .error _ _

theorem labelNamed_renamed (h : b.Reachable) (hkind : t.kind = .name) :
    labelNamed (t.renamed f) (b.renamed f) = Prod.map id (Builder.renamed f) (labelNamed t b) := by
  unfold labelNamed
  rw [find?_token_renamed h (by simp [hkind]), Token.text_renamed_of_ne f (by simp [hkind])]
  split
  · rfl
  · exact b.label_renamed t.text

theorem mirrors_labelDefined (h : b.Reachable) (hkind : t.kind = .name) :
    Mirrors (Prod.map id (Builder.renamed f)) (labelDefined t b)
      (labelDefined (t.renamed f) (b.renamed f)) := by
  unfold labelDefined
  rw [labelNamed_renamed h hkind]
  simp only [Prod.map_fst, Prod.map_snd, id, Builder.var_renamed, Variable.isDefinedLabel_renamed]
  split
  · exact .error _ _
  · exact .ok _

theorem mirrors_operand (h : b.Reachable) (piece : Piece) (hkind : t.kind = piece.kind) :
    Mirrors (Prod.map id (Builder.renamed f)) (operand piece t b)
      (operand piece (t.renamed f) (b.renamed f)) := by
  cases piece with
  | register => exact (mirrors_declared h (by simp [hkind, Piece.kind])).map fun _ => rfl
  | memory => exact (mirrors_declared h (by simp [hkind, Piece.kind])).map fun _ => rfl
  | constant =>
      refine (mirrors_number (by simp [hkind, Piece.kind])).map fun n => ?_
      simp only [id, Builder.constant_renamed]
      rfl
  | label =>
      rw [operand, operand, labelNamed_renamed h hkind]
      exact .ok _
  | comma | leftParen | rightParen => exact .ok _

theorem mirrors_operands (h : b.Reachable) (pieces : List Piece) (ts : List Token) :
    Mirrors (Prod.map id (restRenamed f)) (operands pieces ts b)
      (operands pieces (ts.map (Token.renamed f)) (b.renamed f)) := by
  induction pieces generalizing ts b with
  | nil => exact .ok _
  | cons piece pieces ih =>
      refine (mirrors_expect piece.kind ts).bind fun (t, ts') htaken => ?_
      refine (mirrors_operand h piece (kind_of_expect htaken)).bind fun (id, b₁) hoperand => ?_
      refine (ih (reachable_operand h hoperand) ts').bind fun (ids, ts'', b₂) _ => ?_
      exact .ok (id.toList ++ ids, ts'', b₂)

theorem mirrors_append (opcode : Opcode) (ids : List VarId) (label : Option VarId) (b : Builder) :
    Mirrors (Builder.renamed f) (append opcode ids label b)
      (append opcode ids label (b.renamed f)) := by
  refine (b.mirrors_instruction opcode _ _).bind fun (inst, b₁) _ => ?_
  cases label with
  | none => exact .ok b₁
  | some label => exact b₁.mirrors_attach inst label

theorem mirrors_instruction (h : b.Reachable) (label : Option VarId) (ts : List Token) :
    Mirrors (restRenamed f) (instruction label ts b)
      (instruction label (ts.map (Token.renamed f)) (b.renamed f)) := by
  unfold instruction
  rw [Builder.functionCount_renamed, kind_current_renamed, ← List.map_tail]
  split
  · exact .error _ _
  · split
    · rename_i opcode _
      refine (mirrors_operands h opcode.form ts.tail).bind fun (ids, ts', b₁) _ => ?_
      refine (mirrors_append opcode ids label b₁).mapError.bind fun b₂ _ => ?_
      exact .ok (ts', b₂)
    · exact .error _ _

theorem mirrors_memory (h : b.Reachable) (ts : List Token) :
    Mirrors (restRenamed f) (memory ts b)
      (memory (ts.map (Token.renamed f)) (b.renamed f)) := by
  refine (mirrors_expect .memoryName ts).bind fun (name, ts') hname => ?_
  have hkind : name.kind = .memoryName := kind_of_expect hname
  dsimp only [Prod.map]
  rw [find?_token_renamed h (by simp [hkind]), Token.text_renamed_of_ne f (by simp [hkind])]
  split
  · exact .error _ _
  · refine (mirrors_expect .number ts').bind fun (t, ts'') htaken => ?_
    refine (mirrors_number (by simp [kind_of_expect htaken])).bind fun value _ => ?_
    dsimp only [id]
    rw [Builder.memory_renamed]
    exact .ok (ts'', (b.memory name.text value).2)

theorem mirrors_register (h : b.Reachable) (ts : List Token) :
    Mirrors (restRenamed f) (register ts b)
      (register (ts.map (Token.renamed f)) (b.renamed f)) := by
  refine (mirrors_expect .registerName ts).bind fun (name, ts') hname => ?_
  have hkind : name.kind = .registerName := kind_of_expect hname
  dsimp only [Prod.map]
  rw [find?_token_renamed h (by simp [hkind])]
  split
  · exact .error _ _
  · rw [Token.text_renamed f hkind, Builder.register_renamed]
    exact .ok (ts', (b.register name.text).2)

theorem mirrors_function (h : b.Reachable) (ts : List Token) :
    Mirrors (restRenamed f) (function ts b)
      (function (ts.map (Token.renamed f)) (b.renamed f)) := by
  refine (mirrors_expect .name ts).bind fun (name, ts') hname => ?_
  refine (mirrors_labelDefined h (kind_of_expect hname)).bind fun (label, b₁) _ => ?_
  refine (b₁.mirrors_entry label).mapError.bind fun (_, b₂) _ => ?_
  exact .ok (ts', b₂)

theorem mirrors_labeled (h : b.Reachable) (hkind : t.kind = .name) (ts : List Token) :
    Mirrors (restRenamed f) (labeled t ts b)
      (labeled (t.renamed f) (ts.map (Token.renamed f)) (b.renamed f)) := by
  refine (mirrors_labelDefined h hkind).bind fun (label, b₁) hlabel => ?_
  refine (mirrors_expect .colon ts).bind fun (_, ts') _ => ?_
  exact mirrors_instruction (reachable_labelDefined h hlabel) (some label) ts'

theorem mirrors_statement (h : b.Reachable) (ts : List Token) :
    Mirrors (restRenamed f) (statement ts b)
      (statement (ts.map (Token.renamed f)) (b.renamed f)) := by
  unfold statement
  rw [kind_current_renamed, current_map_renamed, ← List.map_tail]
  split
  · exact mirrors_memory h ts.tail
  · exact mirrors_register h ts.tail
  · exact mirrors_function h ts.tail
  · rename_i hkind
    exact mirrors_labeled h hkind ts.tail
  · exact mirrors_instruction h none ts

theorem mirrors_statements (h : b.Reachable) (ts : List Token) :
    Mirrors (Builder.renamed f) (statements ts b)
      (statements (ts.map (Token.renamed f)) (b.renamed f)) := by
  -- on the number of tokens: a statement and its semicolon leave fewer
  induction hlength : ts.length using Nat.strongRecOn generalizing ts b with
  | ind n ih =>
      rw [statements_eq_bind, statements_eq_bind (ts.map _)]
      refine (mirrors_statement h ts).bind fun (rest, b₁) hread => ?_
      refine (mirrors_expect .semicolon rest).bind fun (_, more) hended => ?_
      simp only [Prod.map, kind_current_renamed]
      split
      · exact .ok b₁
      · have hlt : more.length < rest.length := length_lt_of_expect hended (by decide)
        have hle := length_of_statement hread
        exact ih more.length (by omega) (reachable_statement h hread) more rfl

theorem undefinedLabel?_renamed (b : Builder) :
    undefinedLabel? (b.renamed f) = undefinedLabel? b := by
  simp only [undefinedLabel?, Builder.var_renamed]
  rfl

theorem mirrors_program (ts : List Token) :
    Mirrors (Program.renamed f) (program ts) (program (ts.map (Token.renamed f))) := by
  rw [program_eq_scan, program_eq_scan]
  have hread := mirrors_statements (f := f) .new ts
  rw [Builder.renamed_new] at hread
  refine hread.bind fun b _ => ?_
  rw [undefinedLabel?_renamed, Builder.functionCount_renamed]
  split
  · exact .error _ _
  · split
    · exact .error _ _
    · exact .ok b.program
    · exact .error _ _

end Parser

/-! ## Texts with other names for their registers -/

/-- The names of registers: `r` and a number. -/
def IsRegisterName (x : String) : Prop := Kind.ofText? x.toList = some .registerName

instance : DecidablePred IsRegisterName := fun x =>
  inferInstanceAs (Decidable (Kind.ofText? x.toList = some .registerName))

abbrev RegisterName := { x : String // IsRegisterName x }

/-- The second token is the first one, under its new name where it is a register. -/
def Token.Renames (f : RegisterName → RegisterName) (t u : Token) : Prop :=
  u.kind = t.kind ∧
    if t.kind = .registerName then ∃ h : IsRegisterName t.text, u.text = f ⟨t.text, h⟩
    else u.text = t.text

instance (f : RegisterName → RegisterName) (t u : Token) : Decidable (t.Renames f u) :=
  inferInstanceAs (Decidable (_ ∧ ite _ _ _))

namespace RegisterName

/-- A map of the names of registers, as one that leaves all other names alone. -/
def onNames (f : RegisterName ↪ RegisterName) : String ↪ String where
  toFun x := if h : IsRegisterName x then f ⟨x, h⟩ else x
  inj' x y heq := by
    dsimp only at heq
    split at heq
    · split at heq
      · exact congrArg Subtype.val (f.injective (Subtype.ext heq))
      · rename_i hy
        exact absurd (heq ▸ (f _).property) hy
    · split at heq
      · rename_i hx _
        exact absurd (heq ▸ (f _).property) hx
      · exact heq

theorem onNames_apply (f : RegisterName ↪ RegisterName) {x : String} (h : IsRegisterName x) :
    onNames f x = f ⟨x, h⟩ :=
  dif_pos h

end RegisterName

theorem Token.Renames.unplaced_eq {f : RegisterName ↪ RegisterName} {t u : Token}
    (h : t.Renames f u) : u.unplaced = (t.renamed (RegisterName.onNames f)).unplaced := by
  obtain ⟨hkind, htext⟩ := h
  have hname : u.text = (t.renamed (RegisterName.onNames f)).text := by
    by_cases hregister : t.kind = .registerName
    · rw [if_pos hregister] at htext
      obtain ⟨hx, htext⟩ := htext
      rw [htext, Token.text_renamed _ hregister, RegisterName.onNames_apply f hx]
    · rw [if_neg hregister] at htext
      rw [htext, Token.text_renamed_of_ne _ hregister]
  rw [Token.unplaced, Token.unplaced, hkind, hname]
  rfl

theorem sameTokens_of_renames {f : RegisterName ↪ RegisterName} {ts us : List Token}
    (h : List.Forall₂ (Token.Renames f) ts us) :
    SameTokens us (ts.map (Token.renamed (RegisterName.onNames f))) := by
  induction h with
  | nil => rfl
  | cons ht _ ih => exact congrArg₂ List.cons ht.unplaced_eq ih

/-- Both texts are refused, or the second is the program of the first under other names. -/
theorem Program.mirrors_parse {f : RegisterName ↪ RegisterName} {text text' : String}
    {ts us : List Token} (hts : tokenize text = .ok ts) (hus : tokenize text' = .ok us)
    (h : List.Forall₂ (Token.Renames f) ts us) :
    Mirrors (Program.renamed (RegisterName.onNames f)) (parse text) (parse text') := by
  rw [parse, parse, hts, hus]
  exact (Parser.mirrors_program ts).of_alike (Parser.alike_program (sameTokens_of_renames h))

end RegAlloc
