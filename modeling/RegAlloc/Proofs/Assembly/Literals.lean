import Mathlib.Data.List.Forall2
import RegAlloc.Proofs.Assembly.Numerals
import RegAlloc.Proofs.Program.Linked
import RegAlloc.Proofs.Program.Ranges

/-!
# Literals from the source to the assembly text

A text is cut into statements at its semicolons. The assembly text has one line for each declaration
of a memory variable and one or two for each function and instruction, in the order of the source.
An instruction is printed as the tokens of its statement, with each literal in canonical form; equal
literals are one constant of the program.
-/

namespace RegAlloc

/-! ## Parts of a text -/

/-- The tokens of each statement, without its semicolon. -/
def statementParts (ts : List Token) : List (List Token) :=
  (ts.splitOnP fun t => t.kind == .semicolon).dropLast

/-- Whether the first token has one of some kinds. -/
def startsWith (kinds : List Kind) (part : List Token) : Bool :=
  part.head?.any fun t => kinds.contains t.kind

/-- The declarations of memory variables. -/
def memoryParts (ts : List Token) : List (List Token) :=
  (statementParts ts).filter (startsWith [.memoryDirective])

/-- The functions and instructions. -/
def codeParts (ts : List Token) : List (List Token) :=
  (statementParts ts).filter fun part => !startsWith [.memoryDirective, .registerDirective] part

/-- A part spells the statement, and its tokens have the property `P`. -/
def Spells.With (P : Token → Prop) (part : List Token) (s : Statement) : Prop :=
  Spells part s ∧ ∀ t ∈ part, P t

theorem statementParts_append {used : List Token} {s : Statement} (h : Spells used s)
    {semicolon : Token} (hkind : semicolon.kind = .semicolon) (rest : List Token) :
    statementParts (used ++ semicolon :: rest) = used :: statementParts rest := by
  have hused : ∀ t ∈ used, (t.kind == .semicolon) = false := fun t ht => by
    simpa using (h.kind_ne t ht).1
  rw [statementParts, List.splitOnP_append_cons_of_forall_mem hused _ (by simp [hkind]),
    List.dropLast_cons_of_ne_nil (List.splitOnP_ne_nil _ _)]
  rfl

theorem forall₂_statementParts {P : Token → Prop} {ts : List Token} {ss : List Statement}
    (h : SpellsAll ts ss) (hP : ∀ t ∈ ts, P t) :
    List.Forall₂ (Spells.With P) (statementParts ts) ss := by
  induction h with
  | @last used s semicolon eof hspells hkind heof =>
      have hend : statementParts [eof] = [] := by
        simp [statementParts, List.splitOnP_cons_eq_if_modifyHead, heof]
      rw [statementParts_append hspells hkind, hend]
      exact .cons ⟨hspells, fun t ht => hP t (by simp [ht])⟩ .nil
  | @more used rest s ss semicolon hspells hkind _ ih =>
      rw [statementParts_append hspells hkind]
      exact .cons ⟨hspells, fun t ht => hP t (by simp [ht])⟩ (ih fun t ht => hP t (by simp [ht]))

/-- The first token of a statement says whether it declares something. -/
theorem Spells.startsWith_iff {part : List Token} {s : Statement} (h : Spells part s) :
    (startsWith [.memoryDirective] part = true ↔ s.declaredMemory?.isSome = true) ∧
      ((!startsWith [.memoryDirective, .registerDirective] part) = true ↔ s.isCode = true) := by
  cases h with
  | memory hd | register hd | function hd =>
      simp [startsWith, hd, Statement.declaredMemory?, Statement.isCode, Statement.isFunction,
        Statement.isInstruction]
  | plain hm =>
      simp [startsWith, hm, Statement.declaredMemory?, Statement.isCode, Statement.isFunction,
        Statement.isInstruction]
  | labeled hl =>
      simp [startsWith, hl, Statement.declaredMemory?, Statement.isCode, Statement.isFunction,
        Statement.isInstruction]

/-- Each declaration of a memory variable stands for a variable of the program. -/
theorem Program.Renders.forall₂_memoryParts {P : Token → Prop} {p : Program} {ts : List Token}
    {ss : List Statement} (h : p.Renders ss) (hspells : SpellsAll ts ss) (hP : ∀ t ∈ ts, P t) :
    List.Forall₂ (fun part v => Spells.With P part (.memory (p.var v).name (p.var v).value))
      (memoryParts ts) p.memory := by
  have hparts := List.rel_filter (fun _ _ hpart => hpart.1.startsWith_iff.1)
    (forall₂_statementParts hspells hP)
  rwa [← h.memory, List.forall₂_map_right_iff] at hparts

theorem Program.map_toList_instrs {β : Type} (p : Program) (f : Instruction → β) :
    p.instrs.toList.map f = (List.range p.size).map fun i => f (p.instr i) := by
  apply List.ext_getElem?
  intro i
  by_cases hi : i < p.size
  · simp [hi, getElem?_toList_instr hi]
  · have hsize : p.instrs.size ≤ i := Nat.le_of_not_lt hi
    simp [hi, hsize]

/-- Each function or instruction stands for an instruction of the program. -/
theorem Program.Renders.forall₂_codeParts {P : Token → Prop} {p : Program} {ts : List Token}
    {ss : List Statement} (h : p.Renders ss) (hspells : SpellsAll ts ss) (hP : ∀ t ∈ ts, P t) :
    List.Forall₂ (fun part i => i < p.size ∧ Spells.With P part (p.statementOf (p.instr i)))
      (codeParts ts) (List.range p.size) := by
  have hparts := List.rel_filter (fun _ _ hpart => hpart.1.startsWith_iff.2)
    (forall₂_statementParts hspells hP)
  rw [← h.code, p.map_toList_instrs, List.forall₂_map_right_iff] at hparts
  exact ((List.forall₂_and_left _ _).mpr ⟨fun i => List.mem_range.mp, hparts.flip⟩).flip

/-! ## Tokens of an instruction -/

open Text.Decimal (Denotes Canonical)

/-- The text is the canonical numeral of the integer that the token denotes. -/
def Token.CanonicalForm (t : Token) (s : String) : Prop :=
  ∃ n, Denotes t.text.toList n ∧ Canonical s.toList ∧ Denotes s.toList n

/-- The text is what an instruction shows in the place of the token. A register of the source is
shown as its slot, a literal in canonical form, and anything else as it stands. -/
def Token.Respelled (a : Annotated) (palette : Palette) (t : Token) (s : String) : Prop :=
  match t.kind with
  | .number => t.CanonicalForm s
  | .registerName => ∃ v, (a.program.var v).kind = .register ∧ (a.program.var v).name = t.text ∧
      a.operand palette v = s
  | .memoryName | .name => t.text = s
  | .comma => s = ", "
  | .leftParen => s = "("
  | .rightParen => s = ")"
  | _ => False

/-- A mnemonic and what follows it. -/
def instructionText (name : String) (texts : List String) : String :=
  if texts = [] then name else name ++ " " ++ String.join texts

/-- The texts of a form whose operands are given. -/
def arrange : List Piece → List String → List String
  | [], _ => []
  | .comma :: pieces, texts => ", " :: arrange pieces texts
  | .leftParen :: pieces, texts => "(" :: arrange pieces texts
  | .rightParen :: pieces, texts => ")" :: arrange pieces texts
  | _ :: pieces, texts => texts.headD "" :: arrange pieces texts.tail

/-- A template shows the operands in the form in which they are written. -/
theorem Shape.fill_eq_instructionText (op : Opcode) {texts : List String}
    (hlength : texts.length = (op.shape.dst ++ op.shape.src).length) :
    fill op.shape.template.toList texts = instructionText op.name (arrange op.form texts) := by
  cases op
  case nop =>
    obtain rfl := List.length_eq_zero_iff.mp hlength
    rfl
  case b =>
    obtain ⟨x, rfl⟩ := List.length_eq_one_iff.mp hlength
    simp [← String.toList_inj, fill, instructionText, arrange, Opcode.form, Opcode.name,
      Opcode.shape]
  case not | la | li | bltz =>
    obtain ⟨x, y, rfl⟩ := List.length_eq_two.mp hlength
    simp [← String.toList_inj, fill, instructionText, arrange, Opcode.form, Opcode.name,
      Opcode.shape]
  case add | addi | sub | and | or | bne | lw | sw =>
    obtain ⟨x, y, z, rfl⟩ := List.length_eq_three.mp hlength
    simp [← String.toList_inj, fill, instructionText, arrange, Opcode.form, Opcode.name,
      Opcode.shape]

theorem canonicalForm_text {t : Token} (hlexeme : Lexer.Lexeme .number t.text.toList) :
    t.CanonicalForm (Text.Decimal.text (Text.Decimal.value t.text.toList)) := by
  refine ⟨_, (Text.Decimal.denotes_iff hlexeme).mpr rfl, ?_, ?_⟩
  · rw [Text.Decimal.text, String.toList_ofList]
    exact Text.Decimal.canonical_render _
  · rw [Text.Decimal.text, String.toList_ofList]
    exact Text.Decimal.denotes_render _

/-- The tokens of numbers are numerals. -/
def Token.Numeric (t : Token) : Prop := t.kind = .number → Lexer.Lexeme .number t.text.toList

theorem numeric_of_tokenize {text : String} {ts : List Token} (h : tokenize text = .ok ts) :
    ∀ t ∈ ts, t.Numeric := by
  obtain ⟨before, us, gap, _, hcut, _, rfl⟩ := Lexer.exists_cut_of_tokenize h
  intro t ht hkind
  rcases List.mem_append.mp ht with ht | ht
  · exact hkind ▸ hcut.lexeme t ht
  · obtain rfl := List.mem_singleton.mp ht
    cases hkind

theorem Program.argumentOf_eq_number {p : Program} {v : VarId} {n : Int} :
    p.argumentOf v = .number n ↔ (p.var v).kind = .constant ∧ (p.var v).value = n := by
  unfold argumentOf
  split <;> simp_all

namespace Annotated

variable {a : Annotated} {palette : Palette}

/-- An operand is shown as its token says. -/
theorem respelled_operand {t : Token} (ht : t.Numeric) {v : VarId}
    (h : t.argument? = some (a.program.argumentOf v)) :
    t.Respelled a palette (a.operand palette v) := by
  unfold Token.argument? at h
  unfold Token.Respelled
  cases hkind : t.kind with
  | number =>
      simp only [hkind, Option.some.injEq] at h
      obtain ⟨hconstant, hvalue⟩ := Program.argumentOf_eq_number.mp h.symm
      simp only [operand, hconstant, hvalue]
      exact canonicalForm_text (ht hkind)
  | registerName =>
      simp only [hkind, Option.some.injEq] at h
      have hregister : (a.program.var v).kind = .register ∧ (a.program.var v).name = t.text := by
        unfold Program.argumentOf at h
        split at h <;> simp_all
      exact ⟨v, hregister.1, hregister.2, rfl⟩
  | memoryName | name =>
      simp only [hkind, Option.some.injEq, Program.argumentOf] at h
      unfold operand
      split at h <;> simp_all
  | _ => simp [hkind] at h

/-- The operands of an instruction stand where their tokens do. -/
theorem forall₂_arrange {pieces : List Piece} {used : List Token}
    (hkinds : used.map Token.kind = pieces.map Piece.kind) (hnumeric : ∀ t ∈ used, t.Numeric)
    {vs : List VarId} (hargs : used.filterMap Token.argument? = vs.map a.program.argumentOf) :
    List.Forall₂ (Token.Respelled a palette) used
      (arrange pieces (vs.map (a.operand palette))) := by
  induction pieces generalizing used vs with
  | nil =>
      obtain rfl := List.map_eq_nil_iff.mp hkinds
      exact .nil
  | cons piece pieces ih =>
      obtain ⟨t, used, rfl, hkind, htail⟩ := List.map_eq_cons_iff.mp hkinds
      have hrest := fun u hu => hnumeric u (List.mem_cons_of_mem t hu)
      have hargument := Token.argument?_eq hkind
      cases piece with
      | comma | leftParen | rightParen =>
          rw [List.filterMap_cons_none hargument] at hargs
          exact .cons (by simp [Token.Respelled, hkind, Piece.kind]) (ih htail hrest hargs)
      | register | memory | constant | label =>
          rw [List.filterMap_cons_some hargument] at hargs
          obtain ⟨v, vs, rfl, hv, hmore⟩ := List.map_eq_cons_iff.mp hargs.symm
          have htoken : t.argument? = some (a.program.argumentOf v) := by rw [hargument, hv]; rfl
          exact .cons (respelled_operand (hnumeric t List.mem_cons_self) htoken)
            (ih htail hrest hmore.symm)

end Annotated

/-! ## Lines -/

/-- The line of a declaration in the data section. -/
def WordLine (part : List Token) (line : String) : Prop :=
  ∃ d name t numeral, part = [d, name, t] ∧ t.kind = .number ∧ t.CanonicalForm numeral ∧
    line = name.text ++ ":\t.word " ++ numeral ++ "\n"

/-- The lines of a function or an instruction in the text section. -/
inductive CodeLine (a : Annotated) (palette : Palette) : List Token → String → Prop where
  | function {d name : Token} : d.kind = .functionDirective →
      CodeLine a palette [d, name] (name.text ++ ":\n")
  | plain {m : Token} {used : List Token} {texts : List String} {op : Opcode} :
      m.kind = .mnemonic op → op.Pattern (used.map Token.kind) →
      List.Forall₂ (Token.Respelled a palette) used texts →
      CodeLine a palette (m :: used) ("\t" ++ instructionText op.name texts ++ "\n")
  | labeled {label colon m : Token} {used : List Token} {texts : List String} {op : Opcode} :
      colon.kind = .colon → m.kind = .mnemonic op → op.Pattern (used.map Token.kind) →
      List.Forall₂ (Token.Respelled a palette) used texts →
      CodeLine a palette (label :: colon :: m :: used)
        (label.text ++ ":\n\t" ++ instructionText op.name texts ++ "\n")

/-- The document shows each declaration of the text, and each function or instruction, in order. -/
def Annotated.Shows (a : Annotated) (palette : Palette) (globl : Bool) (ts : List Token)
    (document : String) : Prop :=
  ∃ data code, document = (if globl then a.globalHeader palette else "") ++
      ".data\n" ++ String.join data ++ "\n.text\n" ++ String.join code ++ "\tjr $ra" ∧
    List.Forall₂ WordLine (memoryParts ts) data ∧
    List.Forall₂ (CodeLine a palette) (codeParts ts) code

theorem Spells.of_memory {part : List Token} {name : String} {n : Int}
    (h : Spells part (.memory name n)) : ∃ d u t, part = [d, u, t] ∧ t.kind = .number ∧
      u.text = name ∧ Text.Decimal.value t.text.toList = n := by
  cases h with
  | memory _ _ ht => exact ⟨_, _, _, rfl, ht, rfl, rfl⟩

theorem Spells.of_function {part : List Token} {name : String} (h : Spells part (.function name)) :
    ∃ d u, part = [d, u] ∧ d.kind = .functionDirective ∧ u.text = name := by
  cases h with
  | function hd _ => exact ⟨_, _, rfl, hd, rfl⟩

/-- The tokens before the mnemonic of an instruction. -/
def Spells.Front (label : Option String) (front : List Token) : Prop :=
  match label with
  | none => front = []
  | some name => ∃ u colon, front = [u, colon] ∧ colon.kind = .colon ∧ u.text = name

theorem Spells.of_instruction {part : List Token} {label : Option String} {op : Opcode}
    {args : List Argument} (h : Spells part (.instruction label op args)) :
    ∃ front m used, part = front ++ m :: used ∧ Spells.Front label front ∧
      m.kind = .mnemonic op ∧ op.Pattern (used.map Token.kind) ∧
      used.filterMap Token.argument? = args := by
  cases h with
  | plain hm hused => exact ⟨[], _, _, rfl, rfl, hm, hused, rfl⟩
  | labeled _ hcolon hm hused =>
      exact ⟨_, _, _, rfl, ⟨_, _, rfl, hcolon, rfl⟩, hm, hused, rfl⟩

namespace Annotated

variable {a : Annotated} {palette : Palette} {ss : List Statement}

theorem wordLine_dataLine {part : List Token} {v : VarId}
    (h : Spells.With Token.Numeric part
      (.memory (a.program.var v).name (a.program.var v).value)) :
    WordLine part (a.dataLine v) := by
  obtain ⟨hspells, hnumeric⟩ := h
  obtain ⟨d, u, t, rfl, ht, hname, hvalue⟩ := hspells.of_memory
  refine ⟨d, u, t, _, rfl, ht, canonicalForm_text (hnumeric t (by simp) ht), ?_⟩
  rw [dataLine, hname, hvalue]

theorem exists_body_eq (palette : Palette) (h : a.program.Renders ss) {i : InstId}
    (hi : i < a.program.size) {op : Opcode} (hop : (a.program.instr i).opcode = some op)
    {used : List Token} (hpattern : op.Pattern (used.map Token.kind))
    (hnumeric : ∀ t ∈ used, t.Numeric)
    (hargs : used.filterMap Token.argument? =
      (a.program.instr i).operands.map a.program.argumentOf) :
    ∃ texts, List.Forall₂ (Token.Respelled a palette) used texts ∧
      a.body palette i = instructionText op.name texts := by
  obtain ⟨hdst, hsrc⟩ := h.kinds _ (Program.instr_mem hi) op hop
  refine ⟨_, forall₂_arrange (Opcode.pattern_iff.mp hpattern) hnumeric hargs, ?_⟩
  rw [← Shape.fill_eq_instructionText]
  · simp [body, hop]
  · rw [← hdst, ← hsrc]
    simp [Instruction.operands]

theorem codeLine_line (h : a.program.Renders ss) {i : InstId} (hi : i < a.program.size)
    {part : List Token}
    (hpart : Spells.With Token.Numeric part (a.program.statementOf (a.program.instr i))) :
    CodeLine a palette part (a.line palette i ++ "\n") := by
  obtain ⟨hspells, hnumeric⟩ := hpart
  have hlabel : ∀ v, (a.program.instr i).label = some v →
      a.operand palette v = (a.program.var v).name := fun v hv => by
    simp [operand, h.labels _ (Program.instr_mem hi) v hv]
  cases hop : (a.program.instr i).opcode with
  | none =>
      obtain ⟨hsome, _⟩ := h.entry _ (Program.instr_mem hi) hop
      obtain ⟨v, hv⟩ := Option.isSome_iff_exists.mp hsome
      simp only [Program.statementOf, hop, hv, Option.map_some, Option.getD_some] at hspells
      obtain ⟨d, u, rfl, hd, hname⟩ := hspells.of_function
      have hline : a.line palette i = u.text ++ ":" := by
        simp [line, hv, Instruction.isEntry, hop, hlabel v hv, hname]
      rw [hline, String.append_assoc]
      exact .function hd
  | some op =>
      simp only [Program.statementOf, hop] at hspells
      obtain ⟨front, m, used, rfl, hfront, hm, hpattern, hargs⟩ := hspells.of_instruction
      obtain ⟨texts, htexts, hbody⟩ := exists_body_eq palette h hi hop hpattern
        (fun t ht => hnumeric t (by simp [ht])) hargs
      cases hv : (a.program.instr i).label with
      | none =>
          rw [hv] at hfront
          obtain rfl : front = [] := hfront
          rw [line, hv, hbody]
          exact .plain hm hpattern htexts
      | some v =>
          rw [hv] at hfront
          obtain ⟨u, colon, rfl, hcolon, hname⟩ := hfront
          have hline : a.line palette i = u.text ++ ":\n\t" ++ instructionText op.name texts := by
            simp [line, hv, Instruction.isEntry, hop, hlabel v hv, hname, hbody]
          rw [hline]
          exact .labeled hcolon hm hpattern htexts

theorem shows_assembly (h : a.program.Renders ss) {ts : List Token} (hspells : SpellsAll ts ss)
    (hnumeric : ∀ t ∈ ts, t.Numeric) (palette : Palette) (globl : Bool) :
    a.Shows palette globl ts (a.assembly palette globl) := by
  refine ⟨_, _, rfl, List.forall₂_map_right_iff.mpr ?_, List.forall₂_map_right_iff.mpr ?_⟩
  · exact (h.forall₂_memoryParts hspells hnumeric).imp fun _ _ => wordLine_dataLine
  · exact (h.forall₂_codeParts hspells hnumeric).imp fun _ _ ⟨hi, hpart⟩ => codeLine_line h hi hpart

end Annotated

/-! ## Constants -/

/-- The operands of an instruction that are constants. -/
def Program.constantsOf (p : Program) (i : InstId) : List VarId :=
  (p.instr i).operands.filter fun v => (p.var v).kind == .constant

/-- Two literals in the code stand for one constant just if they denote the same integer. -/
def Program.SharesConstants (p : Program) (ts : List Token) : Prop :=
  ∀ i j part part' t t', (codeParts ts)[i]? = some part → (codeParts ts)[j]? = some part' →
    t ∈ part → t' ∈ part' → t.kind = .number → t'.kind = .number →
    ∃ v w, p.constantsOf i = [v] ∧ p.constantsOf j = [w] ∧
      (v = w ↔ ∃ n, Denotes t.text.toList n ∧ Denotes t'.text.toList n)

theorem Spells.number_mem_arguments {part : List Token} {s : Statement} (h : Spells part s)
    (hcode : s.isCode = true) {t : Token} (ht : t ∈ part) (hkind : t.kind = .number) :
    .number (Text.Decimal.value t.text.toList) ∈ s.arguments := by
  have hargument : t.argument? = some (.number (Text.Decimal.value t.text.toList)) := by
    simp [Token.argument?, hkind]
  cases h with
  | memory _ _ _ | register _ _ => cases hcode
  | function hd hname =>
      rcases List.mem_pair.mp ht with rfl | rfl
      · simp [hd] at hkind
      · simp [hname] at hkind
  | plain hm _ =>
      rcases List.mem_cons.mp ht with rfl | ht
      · simp [hm] at hkind
      · exact List.mem_filterMap.mpr ⟨t, ht, hargument⟩
  | labeled hl hcolon hm _ =>
      simp only [List.mem_cons] at ht
      rcases ht with rfl | rfl | rfl | ht
      · simp [hl] at hkind
      · simp [hcolon] at hkind
      · simp [hm] at hkind
      · exact List.mem_filterMap.mpr ⟨t, ht, hargument⟩

namespace Program.Renders

variable {p : Program} {ss : List Statement}

theorem arguments_statementOf (h : p.Renders ss) {x : Instruction} (hx : x ∈ p.instrs) :
    (p.statementOf x).arguments = x.operands.map p.argumentOf := by
  unfold statementOf
  cases hop : x.opcode with
  | none => simp [Statement.arguments, (h.entry x hx hop).2]
  | some op => rfl

/-- No operation takes two constants. -/
theorem constantsOf_eq (h : p.Renders ss) {i : InstId} (hi : i < p.size) {v : VarId}
    (hv : v ∈ (p.instr i).operands) (hkind : (p.var v).kind = .constant) :
    p.constantsOf i = [v] := by
  have hmem : v ∈ p.constantsOf i := List.mem_filter.mpr ⟨hv, beq_iff_eq.mpr hkind⟩
  have hcount : (p.constantsOf i).length ≤ 1 := by
    cases hop : (p.instr i).opcode with
    | none => simp [constantsOf, (h.entry _ (instr_mem hi) hop).2]
    | some op =>
        obtain ⟨hdst, hsrc⟩ := h.kinds _ (instr_mem hi) op hop
        have hshape : (op.shape.dst ++ op.shape.src).countP (· == .constant) ≤ 1 := by
          cases op <;> decide
        rw [← hdst, ← hsrc, ← List.map_append, List.countP_map] at hshape
        rwa [constantsOf, ← List.countP_eq_length_filter]
  obtain ⟨w, hw⟩ : ∃ w, p.constantsOf i = [w] :=
    List.length_eq_one_iff.mp (Nat.le_antisymm hcount (List.length_pos_of_mem hmem))
  rw [hw] at hmem ⊢
  rw [List.mem_singleton.mp hmem]

/-- A literal stands for the constant of its instruction. -/
theorem exists_constantsOf_eq (h : p.Renders ss) {ts : List Token} (hspells : SpellsAll ts ss)
    (hnumeric : ∀ t ∈ ts, t.Numeric) {i : InstId} {part : List Token}
    (hpart : (codeParts ts)[i]? = some part) {t : Token} (ht : t ∈ part)
    (hkind : t.kind = .number) :
    ∃ v, p.constantsOf i = [v] ∧ (p.var v).kind = .constant ∧
      Denotes t.text.toList (p.var v).value := by
  have hparts := h.forall₂_codeParts hspells hnumeric
  obtain ⟨hlt, rfl⟩ := List.getElem?_eq_some_iff.mp hpart
  obtain ⟨hi, hspelled, hall⟩ := hparts.get hlt (hparts.length_eq ▸ hlt)
  simp only [List.get_eq_getElem, List.getElem_range] at hi hspelled hall
  have hnumber := hspelled.number_mem_arguments (Builder.isCode_statementOf p _) ht hkind
  rw [h.arguments_statementOf (instr_mem hi)] at hnumber
  obtain ⟨v, hv, hargument⟩ := List.mem_map.mp hnumber
  obtain ⟨hconstant, hvalue⟩ := argumentOf_eq_number.mp hargument
  exact ⟨v, h.constantsOf_eq hi hv hconstant, hconstant,
    (Text.Decimal.denotes_iff (hall t ht hkind)).mpr hvalue.symm⟩

theorem sharesConstants (h : p.Renders ss) {ts : List Token} (hspells : SpellsAll ts ss)
    (hnumeric : ∀ t ∈ ts, t.Numeric) : p.SharesConstants ts := by
  intro i j part part' t t' hpart hpart' ht ht' hkind hkind'
  obtain ⟨v, hv, hconstant, hdenotes⟩ := h.exists_constantsOf_eq hspells hnumeric hpart ht hkind
  obtain ⟨w, hw, hconstant', hdenotes'⟩ :=
    h.exists_constantsOf_eq hspells hnumeric hpart' ht' hkind'
  refine ⟨v, w, hv, hw, ?_, ?_⟩
  · rintro rfl
    exact ⟨_, hdenotes, hdenotes'⟩
  · rintro ⟨n, hn, hn'⟩
    apply h.constants_inj v w hconstant hconstant'
    rw [← hdenotes.value_eq, hn.value_eq, ← hdenotes'.value_eq, hn'.value_eq]

end Program.Renders

end RegAlloc
