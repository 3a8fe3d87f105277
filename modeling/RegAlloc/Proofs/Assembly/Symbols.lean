import RegAlloc.Proofs.Assembly.Decoding
import RegAlloc.Proofs.Program.Representation
import RegAlloc.Session

/-!
# Symbols

The text of a name tells what kind of variable it names, and the reader makes no two variables of
one kind with the same name. So the variables of a parsed program all have different names, and a
document defines each memory variable and each label on one line of its own.
-/

namespace RegAlloc

/-- The kind of variable that a text can name. -/
def VarKind.ofName? (name : String) : Option VarKind :=
  (Kind.ofText? name.toList).bind Kind.varKind?

theorem Lexer.Lexeme.ofName? {kind : Kind} {name : String} (h : Lexeme kind name.toList) :
    VarKind.ofName? name = kind.varKind? := by
  rw [VarKind.ofName?, h.ofText?, Option.bind_some]

theorem VarKind.ofName?_decimal (n : Int) :
    VarKind.ofName? (Text.Decimal.text n) = some .constant := by
  have hdigits : ∀ k : Nat, Nat.toDigits 10 k ≠ [] ∧ ∀ d ∈ Nat.toDigits 10 k, d.isDigit = true :=
    fun k => ⟨Nat.toDigits_ne_nil, fun d => Nat.isDigit_of_mem_toDigits (by decide) (by decide)⟩
  have hlexeme : Lexer.Lexeme .number (Text.Decimal.text n).toList := by
    rw [Text.Decimal.text, String.toList_ofList]
    cases n with
    | ofNat k => exact .number (hdigits k).1 (hdigits k).2
    | negSucc k => exact .negative (hdigits (k + 1)).1 (hdigits (k + 1)).2
  exact hlexeme.ofName?

/-- The tokens of a text have the kinds that their texts tell. -/
theorem names_of_tokenize {text : String} {ts : List Token} (h : tokenize text = .ok ts) :
    Parser.Names (fun kind name => VarKind.ofName? name = some kind) ts := by
  obtain ⟨before, us, gap, _, hcut, _, rfl⟩ := Lexer.exists_cut_of_tokenize h
  intro t ht kind hkind
  rcases List.mem_append.mp ht with ht | ht
  · rw [(hcut.lexeme t ht).ofName?, hkind]
  · rw [List.mem_singleton.mp ht] at hkind
    cases hkind

/-! ## Variables -/

namespace Builder

variable {b b' : Builder} {v w : VarId}

/-- Names tell the variables apart, and the text of a name tells its kind. -/
structure Distinct (b : Builder) : Prop where
  kind_eq : ∀ {v}, v < b.program.vars.size →
    VarKind.ofName? (b.program.var v).name = some (b.program.var v).kind
  constant_name : ∀ {v}, (b.program.var v).kind = .constant →
    (b.program.var v).name = Text.Decimal.text (b.program.var v).value
  inj : ∀ {v w}, v < b.program.vars.size → w < b.program.vars.size →
    (b.program.var v).name = (b.program.var w).name → v = w

theorem distinct_new : Distinct {} where
  kind_eq hv := absurd hv (Nat.not_lt_zero _)
  constant_name hkind := by cases hkind
  inj hv := absurd hv (Nat.not_lt_zero _)

theorem Distinct.keep (h : b.Distinct) (hext : b.Extends b')
    (hsize : b'.program.vars.size = b.program.vars.size) : b'.Distinct where
  kind_eq hv := by
    rw [hsize] at hv
    rw [hext.name_eq hv, hext.kind_eq hv]
    exact h.kind_eq hv
  constant_name {v} hkind := by
    have hv : v < b.program.vars.size := hsize ▸ Program.lt_size_of_kind (by simp [hkind])
    rw [hext.kind_eq hv] at hkind
    rw [hext.name_eq hv, hext.value_eq hv (by simp [hkind]), h.constant_name hkind]
  inj hv hw heq := by
    rw [hsize] at hv hw
    rw [hext.name_eq hv, hext.name_eq hw] at heq
    exact h.inj hv hw heq

/-- A variable with a name that is new in its kind is told apart from those of other kinds too. -/
theorem Declares.distinct {new : Variable} (hdeclares : b.Declares new b') (h : b.Distinct)
    (hkind : VarKind.ofName? new.name = some new.kind)
    (hconstant : new.kind = .constant → new.name = Text.Decimal.text new.value)
    (hnew : ∀ v, (b.program.var v).kind = new.kind → (b.program.var v).name ≠ new.name) :
    b'.Distinct := by
  have hvar := var_eq_of_push hdeclares.vars
  have hlt : ∀ {v}, v < b'.program.vars.size → v ≠ b.program.vars.size →
      v < b.program.vars.size := by
    intro v hv hne
    rw [hdeclares.vars, Array.size_push] at hv
    omega
  have hother : ∀ {v}, v < b.program.vars.size → (b.program.var v).name ≠ new.name := by
    intro v hv heq
    have hsame := (h.kind_eq hv).symm.trans (heq ▸ hkind)
    exact hnew v (Option.some.inj hsame) heq
  constructor
  · intro v hv
    rw [hvar]
    split
    · exact hkind
    · rename_i hne
      exact h.kind_eq (hlt hv hne)
  · intro v
    rw [hvar]
    split
    · exact hconstant
    · exact h.constant_name
  · intro v w hv hw heq
    rw [hvar, hvar] at heq
    split at heq
    · rename_i hlast
      split at heq
      · rename_i hlast'
        rw [hlast, hlast']
      · rename_i hne
        exact absurd heq.symm (hother (hlt hw hne))
    · rename_i hne
      split at heq
      · exact absurd heq (hother (hlt hv hne))
      · rename_i hne'
        exact h.inj (hlt hv hne) (hlt hw hne') heq

theorem Distinct.move (h : b.Distinct) (hb : b.Reachable)
    (hmove : Parser.Move (fun kind name => VarKind.ofName? name = some kind) b b') :
    b'.Distinct := by
  have hfresh : ∀ {kind name}, kind ≠ .untyped → b.find? kind name = none → ∀ v,
      (b.program.var v).kind = kind → (b.program.var v).name ≠ name := by
    intro kind name hne hnone v hv
    exact Parser.find?_eq_none hnone v ((hb.kinded.mem_ofKind hne).mpr hv)
  cases hmove with
  | memory value hname hnew =>
      exact (b.declares_memory _ value).distinct h hname nofun (hfresh nofun hnew)
  | register hname hnew =>
      exact (b.declares_register _).distinct h hname nofun (hfresh nofun hnew)
  | label hname hnew =>
      exact (b.declares_label _).distinct h hname nofun (hfresh nofun hnew)
  | constant value =>
      cases hfound : b.constant? value with
      | some v => rwa [constant, hfound]
      | none =>
          have hdeclares := declares_constant hb hfound
          refine hdeclares.distinct h (VarKind.ofName?_decimal value) (fun _ => rfl) ?_
          intro v hv heq
          -- constants with one numeral have one value
          rw [h.constant_name hv] at heq
          have hmem : v ∈ b.program.constants :=
            (@Kinded.mem_ofKind b hb.kinded .constant v (by decide)).mpr hv
          exact hdeclares.fresh rfl v hmem (Text.Decimal.text_inj heq)
  | entry hentry =>
      refine h.keep (extends_entry hentry) ?_
      obtain ⟨_, _, rfl⟩ := entry_eq_ok hentry
      simp [define, append]
  | instruction hinstruction =>
      refine h.keep (extends_instruction hinstruction) ?_
      obtain ⟨_, _, rfl⟩ := instruction_eq_ok hinstruction
      simp [append]
  | attach _ hattach =>
      refine h.keep (extends_attach hattach) ?_
      obtain ⟨_, rfl⟩ := attach_eq_ok hattach
      simp [define, relabel]

theorem Distinct.find?_eq (h : b.Distinct) (hv : v < b.program.vars.size) :
    b.program.find? (b.program.var v).name = some v := by
  have hget : ∀ {w} (hw : w < b.program.vars.size), b.program.vars[w] = b.program.var w :=
    fun hw => by simp [Program.var, hw]
  refine Array.findIdx?_eq_some_iff_getElem.mpr ⟨hv, by simp [hget hv], fun w hw => ?_⟩
  rw [hget (Nat.lt_trans hw hv), Bool.not_eq_true, beq_eq_false_iff_ne]
  intro heq
  exact Nat.ne_of_lt hw (h.inj (Nat.lt_trans hw hv) hv heq)

end Builder

/-! ## Symbols of a program -/

/-- The variables that a document defines: the memory variables, and the labels of the
instructions. -/
def Program.symbols (p : Program) : List VarId :=
  p.memory ++ (List.range p.size).filterMap fun i => (p.instr i).label

namespace Builder

variable {b : Builder} {v : VarId}

theorem Reachable.kind_of_symbol (h : b.Reachable) (hv : v ∈ b.program.symbols) :
    (b.program.var v).kind = .memory ∨ (b.program.var v).kind = .label := by
  rcases List.mem_append.mp hv with hv | hv
  · exact Or.inl (@Kinded.kind_of_mem b h.kinded .memory v hv)
  · obtain ⟨i, hi, hlabel⟩ := List.mem_filterMap.mp hv
    have hfits := h.kinded.fits _ (Program.instr_mem (List.mem_range.mp hi))
    exact Or.inr (hfits.label v hlabel)

theorem Reachable.lt_size_of_symbol (h : b.Reachable) (hv : v ∈ b.program.symbols) :
    v < b.program.vars.size := by
  apply Program.lt_size_of_kind
  rcases h.kind_of_symbol hv with hkind | hkind <;> simp [hkind]

theorem Reachable.nodup_symbols (h : b.Reachable) : b.program.symbols.Nodup := by
  have hconsistent := h.consistent
  have hmemory : b.program.memory.Nodup := by
    have hlist := hconsistent.lists .memory (by decide)
    rw [Program.ofKind] at hlist
    rw [hlist]
    exact List.nodup_range.filter _
  have hlabels : ((List.range b.program.size).filterMap fun i =>
      (b.program.instr i).label).Nodup := by
    obtain ⟨cs, hlegal, rfl⟩ := h.exists_made
    exact List.nodup_range.filterMap fun i j v hi hj => (carried_made hlegal).inj hi hj
  refine List.nodup_append.mpr ⟨hmemory, hlabels, ?_⟩
  rintro v hv w hw rfl
  have hkind := @Kinded.kind_of_mem b h.kinded .memory v hv
  obtain ⟨i, hi, hlabel⟩ := List.mem_filterMap.mp hw
  rw [(h.kinded.fits _ (Program.instr_mem (List.mem_range.mp hi))).label v hlabel] at hkind
  cases hkind

end Builder

/-- The variables of the program are told apart by their names, and so are its symbols. -/
structure Program.Distinct (p : Program) : Prop where
  inj : ∀ {v w}, v < p.vars.size → w < p.vars.size → (p.var v).name = (p.var w).name → v = w
  find?_eq : ∀ {v}, v < p.vars.size → p.find? (p.var v).name = some v
  name_ne_empty : ∀ {v}, v ∈ p.symbols → (p.var v).name ≠ ""
  nodup_names : (p.symbols.map fun v => (p.var v).name).Nodup
  mem_symbols : ∀ {v}, (p.var v).kind = .memory → v ∈ p.symbols

theorem Builder.Distinct.program {b : Builder} (h : b.Distinct) (hb : b.Reachable) :
    b.program.Distinct where
  inj := h.inj
  find?_eq := h.find?_eq
  name_ne_empty hv heq := by
    have hkind := h.kind_eq (hb.lt_size_of_symbol hv)
    rw [heq] at hkind
    cases hkind
  nodup_names := hb.nodup_symbols.map_on fun v hv w hw =>
    h.inj (hb.lt_size_of_symbol hv) (hb.lt_size_of_symbol hw)
  mem_symbols hkind := List.mem_append_left _
    ((@Builder.Kinded.mem_ofKind b hb.kinded .memory _ (by decide)).mpr hkind)

theorem Program.distinct_of_parse {text : String} {p : Program} (h : Program.parse text = .ok p) :
    p.Distinct := by
  obtain ⟨ts, htokens, h⟩ := Parser.bind_eq_ok.mp h
  obtain ⟨b, hread, rfl⟩ := Parser.statements_of_program h
  have hnames := names_of_tokenize (Parser.mapError_eq_ok.mp htokens)
  have hmoves := Parser.moves_statements hnames hread
  have hboth : b.Reachable ∧ b.Distinct := by
    refine hmoves.keep (P := fun b => b.Reachable ∧ b.Distinct) ?_ ⟨.new, Builder.distinct_new⟩
    intro b b' hb hmove
    exact ⟨hmove.moves.reachable hb.1, hb.2.move hb.1 hmove⟩
  exact hboth.2.program hboth.1

/-! ## Definitions in a document -/

namespace Listing

/-- The name that a line defines: the word before its first colon. -/
def definedName? (line : String) : Option String :=
  let name := line.toList.takeWhile (· != ':')
  if name ≠ [] ∧ name.all Lexer.continuesWord = true ∧ ':' ∈ line.toList then
    some (String.ofList name)
  else none

/-- The names that a document defines, line by line. -/
def definitions (document : String) : List String :=
  (Text.split '\n' document).filterMap definedName?

theorem definedName?_colon {name : String} (hword : IsWord name) (hne : name ≠ "")
    (rest : String) : definedName? (name ++ ":" ++ rest) = some name := by
  have hchars : (name ++ ":" ++ rest).toList = name.toList ++ ':' :: rest.toList := by simp
  have htake : (name ++ ":" ++ rest).toList.takeWhile (· != ':') = name.toList := by
    have hkeep : ∀ c ∈ name.toList, (c != ':') = true := by
      intro c hc
      exact bne_iff_ne.mpr fun heq => hword.not_mem (by decide) (heq ▸ hc)
    rw [hchars, List.takeWhile_append_of_pos hkeep]
    simp
  have hall : name.toList.all Lexer.continuesWord = true := List.all_eq_true.mpr hword
  rw [definedName?, htake, if_pos ⟨by simpa using hne, hall, by simp⟩, String.ofList_toList]

/-- A line that does not start with a word defines nothing. -/
theorem definedName?_of_head {line : String} {c : Char} {cs : List Char}
    (hline : line.toList = c :: cs) (hc : Lexer.continuesWord c = false) :
    definedName? line = none := by
  refine if_neg ?_
  rintro ⟨hne, hall, _⟩
  rw [hline, List.takeWhile_cons] at hne hall
  split at hall
  · simp [hc] at hall
  · rename_i hcolon
    simp [hcolon] at hne

end Listing

namespace Annotated

variable {a : Annotated} {palette : Palette} {i : InstId}

theorem filterMap_codeLines (hlinked : a.program.Linked) (hnamed : a.program.Named)
    (hdistinct : a.program.Distinct) (hi : i < a.program.size) :
    (a.codeLines palette i).filterMap Listing.definedName? = a.labelNames i := by
  have hcode : ∀ body : String, Listing.definedName? ("\t" ++ body) = none := by
    intro body
    have hline : ("\t" ++ body).toList = '\t' :: body.toList := by simp
    exact Listing.definedName?_of_head hline (by decide)
  unfold codeLines labelNames
  cases hlabel : (a.program.instr i).label with
  | none => simp [hcode]
  | some v =>
      obtain ⟨htext, hword⟩ := @isWord_of_label a palette i hlinked hnamed hi v hlabel
      have hsymbol : v ∈ a.program.symbols :=
        List.mem_append_right _ (List.mem_filterMap.mpr ⟨i, List.mem_range.mpr hi, hlabel⟩)
      have hline : Listing.definedName? (a.operand palette v ++ ":") =
          some (a.program.var v).name := by
        have hcolon := Listing.definedName?_colon hword (hdistinct.name_ne_empty hsymbol) ""
        rw [htext]
        rwa [String.append_empty] at hcolon
      dsimp only
      split <;> simp [hline, hcode]

theorem filterMap_preamble (hnamed : a.program.Named) (hdistinct : a.program.Distinct)
    (globl : Bool) :
    (a.preamble palette globl).filterMap Listing.definedName? =
      a.program.memory.map fun v => (a.program.var v).name := by
  have hglobal : (if globl then a.globalLines palette else []).filterMap Listing.definedName? =
      [] := by
    have hlines : (a.globalLines palette).filterMap Listing.definedName? = [] := by
      unfold globalLines
      split
      · rename_i label _
        have hline : (".globl " ++ a.operand palette label).toList =
            '.' :: ("globl " ++ a.operand palette label).toList := by simp
        rw [List.filterMap_cons_none (Listing.definedName?_of_head hline (by decide))]
        rfl
      · rfl
    cases globl with
    | false => rfl
    | true => exact hlines
  have hdata : ∀ v ∈ a.program.memory,
      Listing.definedName? (a.dataText v) = some (a.program.var v).name := by
    intro v hv
    have hline : a.dataText v = (a.program.var v).name ++ ":" ++
        ("\t.word " ++ Text.Decimal.text (a.program.var v).value) := by
      simp [dataText, ← String.toList_inj]
    rw [hline]
    exact Listing.definedName?_colon (hnamed.memory v hv)
      (hdistinct.name_ne_empty (List.mem_append_left _ hv)) _
  have hmemory : (a.program.memory.map a.dataText).filterMap Listing.definedName? =
      a.program.memory.map fun v => (a.program.var v).name := by
    rw [List.filterMap_map, ← List.filterMap_eq_map]
    exact List.filterMap_congr hdata
  have hhead : Listing.definedName? ".data" = none := by decide
  have hlast : Listing.definedName? "" = none := by decide
  rw [preamble, List.filterMap_append, List.filterMap_append, hglobal,
    List.filterMap_cons_none hhead, hmemory, List.filterMap_cons_none hlast]
  simp

/-- A document defines its symbols in order. -/
theorem definitions_assembly (hlinked : a.program.Linked) (hnamed : a.program.Named)
    (hdistinct : a.program.Distinct) (h : a.Unbroken palette) (globl : Bool) :
    Listing.definitions (a.assembly palette globl) =
      a.program.symbols.map fun v => (a.program.var v).name := by
  have hcode : ((List.range a.program.size).flatMap (a.codeLines palette)).filterMap
      Listing.definedName? = ((List.range a.program.size).filterMap fun i =>
        (a.program.instr i).label).map fun v => (a.program.var v).name := by
    rw [List.filterMap_flatMap, List.map_filterMap, List.filterMap_eq_flatMap_toList]
    refine List.flatMap_congr fun i hi => ?_
    exact filterMap_codeLines hlinked hnamed hdistinct (List.mem_range.mp hi)
  have hhead : Listing.definedName? ".text" = none := by decide
  have hlast : Listing.definedName? "\tjr $ra" = none := by decide
  rw [Listing.definitions, split_assembly hlinked hnamed h, List.filterMap_append,
    filterMap_preamble hnamed hdistinct, List.filterMap_cons_none hhead, List.filterMap_append,
    hcode, List.filterMap_cons_none hlast, Program.symbols, List.map_append]
  simp

/-- The variables of a parsed program have different names, so each is found by its name. A document
defines no name twice, and exactly one line defines each label or memory variable that is an
operand. -/
theorem symbols_defined_once {text : String} (hparse : Program.parse text = .ok a.program) :
    (∀ v < a.program.vars.size, ∀ w < a.program.vars.size,
      (a.program.var v).name = (a.program.var w).name → v = w) ∧
    (∀ v < a.program.vars.size, a.program.find? (a.program.var v).name = some v) ∧
    ∀ palette, a.Unbroken palette → ∀ globl,
      (Listing.definitions (a.assembly palette globl)).Nodup ∧
      ∀ i < a.program.size, ∀ v ∈ (a.program.instr i).operands,
        (a.program.var v).kind = .label ∨ (a.program.var v).kind = .memory →
          a.operand palette v = (a.program.var v).name ∧
          (Listing.definitions (a.assembly palette globl)).count (a.operand palette v) = 1 := by
  have hdistinct := Program.distinct_of_parse hparse
  have hlinked := Program.linked_of_parse hparse
  have hnamed := Program.named_of_parse hparse
  refine ⟨fun v hv w hw => hdistinct.inj hv hw, fun v hv => hdistinct.find?_eq hv,
    fun palette hunbroken globl => ?_⟩
  have hdefinitions := definitions_assembly hlinked hnamed hdistinct hunbroken globl
  have hnodup : (Listing.definitions (a.assembly palette globl)).Nodup := by
    rw [hdefinitions]
    exact hdistinct.nodup_names
  refine ⟨hnodup, fun i hi v hv hkind => ?_⟩
  have hsymbol : v ∈ a.program.symbols := by
    rcases hkind with hkind | hkind
    · obtain ⟨j, hj, hlabel⟩ := hlinked.labeled hi hv hkind
      exact List.mem_append_right _ (List.mem_filterMap.mpr ⟨j, List.mem_range.mpr hj, hlabel⟩)
    · exact hdistinct.mem_symbols hkind
  have htext : a.operand palette v = (a.program.var v).name := by
    rcases hkind with hkind | hkind <;> simp [operand, hkind]
  refine ⟨htext, List.count_eq_one_of_mem hnodup ?_⟩
  rw [htext, hdefinitions]
  exact List.mem_map.mpr ⟨v, hsymbol, rfl⟩

/-- A load, a branch and a constant in two spellings. -/
def symbolText : String :=
  "_mem m1 6; _reg r1; _func main; la r1, m1; top: addi r1, r1, 007; li r1, 7; b top;"

/-- A palette whose second name has a line break. -/
def halfBroken : Palette where
  names := ["t0", "bad\nx"]
  valid := ⟨by decide, by decide, by decide, by decide⟩

theorem symbols_of_load_defined_once :
    ∃ p, Program.parse symbolText = .ok p ∧
      p.vars.toList.map Variable.name = ["m1", "r1", "main", "top", "7"] ∧
      p.find? "top" = some 3 ∧
      let a := { ofProgram p with slots := [some ⟨0⟩] }
      a.Unbroken halfBroken ∧
      Listing.definitions (a.assembly halfBroken true) = ["m1", "main", "top"] ∧
      (Listing.definitions (a.assembly halfBroken true)).count "m1" = 1 := by
  obtain ⟨p, hparse, hnames, hvar, hsize, hoperand, hlines⟩ : ∃ p,
      Program.parse symbolText = .ok p ∧
      p.vars.toList.map Variable.name = ["m1", "r1", "main", "top", "7"] ∧
      (p.var 3).name = "top" ∧ 3 < p.vars.size ∧
      (1 < p.size ∧ 0 ∈ (p.instr 1).operands ∧ (p.var 0).kind = .memory ∧
        (p.var 0).name = "m1") ∧
      Listing.definitions ({ ofProgram p with slots := [some ⟨0⟩] }.assembly halfBroken true) =
        ["m1", "main", "top"] :=
    exists_ok_of_decide (by decide +kernel)
  have hunbroken : { ofProgram p with slots := [some ⟨0⟩] }.Unbroken halfBroken := by
    -- no variable has the slot of the broken name
    intro v slot name hslot hname
    obtain ⟨position, _, hmem⟩ := Option.bind_eq_some_iff.mp hslot
    have hfirst : some slot ∈ [some (Slot.mk 0)] :=
      List.mem_of_getElem? (Option.join_eq_some_iff.mp hmem)
    obtain rfl : slot = ⟨0⟩ := by simpa using hfirst
    obtain rfl : "t0" = name := Option.some.inj hname
    decide
  obtain ⟨_, hfind, hdocument⟩ :=
    symbols_defined_once (a := { ofProgram p with slots := [some ⟨0⟩] }) hparse
  have htop : p.find? (p.var 3).name = some 3 := hfind 3 hsize
  obtain ⟨hone, hmem, hkind, hname⟩ := hoperand
  obtain ⟨htext, hcount⟩ := (hdocument halfBroken hunbroken true).2 1 hone 0 hmem (Or.inr hkind)
  rw [htext] at hcount
  change (Listing.definitions _).count (p.var 0).name = 1 at hcount
  rw [hvar] at htop
  rw [hname] at hcount
  exact ⟨p, hparse, hnames, htop, hunbroken, hlines, hcount⟩

/-- A register name with line breaks in it can end one line and begin another that defines a name a
second time. -/
theorem symbol_defined_twice :
    ¬ ∀ (text : String) (config : Config) (s : Session) (out : String),
      Session.ofSource text config = .ok s → s.allocate.2.output = .ok out →
        (Listing.definitions out).Nodup := by
  intro h
  obtain ⟨palette, _, hsource⟩ : ∃ palette, Palette.ofNames ["t0\nm1:\n"] = .ok palette ∧
      succeedsWith (fun s : Session => decide (succeedsWith (fun out =>
        decide (¬ (Listing.definitions out).Nodup)) s.allocate.2.output = true))
        (Session.ofSource "_mem m1 6; _reg r1; _func main; la r1, m1;" { palette }) = true :=
    exists_ok_of_decide (by decide +kernel)
  obtain ⟨s, hs, hallocate⟩ := exists_ok_of_decide hsource
  obtain ⟨out, hout, htwice⟩ := exists_ok_of_decide hallocate
  exact htwice (h _ _ s out hs hout)

end Annotated

end RegAlloc
