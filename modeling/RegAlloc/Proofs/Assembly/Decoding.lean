import RegAlloc.Proofs.Assembly.Control

/-!
# Reading documents back

A document whose registers are slots of a palette with plain names says all that the program says
about it: whether the function is visible, the memory variables with their values, and each
instruction with its label, operation and operands. Each part of the text is read back by a reader of
its own, and the parts cannot be mistaken for one another.
-/

namespace RegAlloc

/-! ## Numerals -/

namespace Text.Decimal

theorem magnitude_toDigits (n : Nat) : magnitude (Nat.toDigits 10 n) = n := by
  rw [magnitude, ← Nat.ofDigitChars_eq_foldl, Nat.ofDigitChars_ten_toDigits]

/-- What is written is read. -/
theorem value_render (n : Int) : value (render n) = n := by
  cases n with
  | ofNat n =>
      rw [render]
      unfold value
      split
      · -- a digit is no sign
        rename_i digits heq
        have hdigit := @Nat.isDigit_of_mem_toDigits 10 n '-' (by decide) (by decide) (by simp [heq])
        exact absurd hdigit (by decide)
      · rw [magnitude_toDigits]
        rfl
  | negSucc n =>
      rw [render, value, magnitude_toDigits]
      rfl

theorem text_inj {m n : Int} (h : text m = text n) : m = n := by
  rw [← value_render m, ← value_render n, String.ofList_inj.mp h]

end Text.Decimal

/-! ## Operands of a line -/

/-- A text without the characters that stand between operands. -/
def Text.IsOperand (s : String) : Prop := ∀ c ∈ s.toList, c ∉ [' ', ',', '(', ')']

theorem IsWord.isOperand {s : String} (h : IsWord s) : Text.IsOperand s := by
  intro c hc hmem
  have hcontinues := h c hc
  simp only [List.mem_cons, List.not_mem_nil, or_false] at hmem
  rcases hmem with rfl | rfl | rfl | rfl <;> exact absurd hcontinues (by decide)

namespace Listing

/-- What a character between the operands of a line stands for. A parenthesis that opens separates two
operands as a comma does. -/
def separator? : Char → Option Char
  | ' ' | ')' => none
  | '(' => some ','
  | c => some c

/-- The operands in what follows the first word of a line. -/
def parts (cs : List Char) : List String :=
  (Text.splitChars ',' (cs.filterMap separator?)).map String.ofList

/-- The operands of a line. -/
def Row.operands (r : Row) : List String :=
  match r.body.toList.dropWhile (· != ' ') with
  | [] => []
  | _ :: cs => parts cs

variable {s : String} {rest : List Char}

theorem filterMap_separator? (h : Text.IsOperand s) :
    s.toList.filterMap separator? = s.toList := by
  have hkeep : ∀ c ∈ s.toList, separator? c = some c := by
    intro c hc
    have hne := h c hc
    unfold separator?
    split <;> simp_all
  rw [List.filterMap_congr hkeep, List.filterMap_some]

theorem parts_blank : parts (' ' :: rest) = parts rest := rfl

theorem parts_last (h : Text.IsOperand s) : parts s.toList = [s] := by
  have hcomma : ',' ∉ s.toList := fun hmem => h ',' hmem (by decide)
  rw [parts, filterMap_separator? h, Text.splitChars_of_not_mem hcomma]
  simp

theorem parts_close (h : Text.IsOperand s) : parts (s.toList ++ [')']) = [s] := by
  rw [← parts_last h]
  simp [parts, separator?]

/-- A comma or a parenthesis ends an operand. -/
theorem parts_append {c : Char} (h : Text.IsOperand s) (hc : separator? c = some ',') :
    parts (s.toList ++ c :: rest) = s :: parts rest := by
  have hcomma : ',' ∉ s.toList := fun hmem => h ',' hmem (by decide)
  rw [parts, List.filterMap_append, filterMap_separator? h, List.filterMap_cons_some hc,
    Text.splitChars_append_cons hcomma]
  simp [parts]

theorem parts_comma (h : Text.IsOperand s) :
    parts (s.toList ++ ',' :: rest) = s :: parts rest := parts_append h rfl

theorem parts_open (h : Text.IsOperand s) :
    parts (s.toList ++ '(' :: rest) = s :: parts rest := parts_append h rfl

/-- Every operand is printed, and is read back from the line. -/
theorem operands_fill (op : Opcode) {texts : List String}
    (hlength : texts.length = (op.shape.dst ++ op.shape.src).length)
    (h : ∀ text ∈ texts, Text.IsOperand text) (labels : List String) :
    (Row.mk labels (Shape.fill op.shape.template.toList texts)).operands = texts := by
  cases op
  case nop =>
    obtain rfl := List.length_eq_zero_iff.mp hlength
    simp [Row.operands, Opcode.shape, Shape.fill]
  case b =>
    obtain ⟨x, rfl⟩ := List.length_eq_one_iff.mp hlength
    simp only [List.mem_singleton, forall_eq] at h
    simp [Row.operands, Opcode.shape, Shape.fill, parts_last h]
  case not | la | li | bltz =>
    obtain ⟨x, y, rfl⟩ := List.length_eq_two.mp hlength
    simp only [List.mem_cons, List.not_mem_nil, or_false, forall_eq_or_imp, forall_eq] at h
    simp [Row.operands, Opcode.shape, Shape.fill, parts_comma h.1, parts_blank, parts_last h.2]
  case add | addi | sub | and | or | bne =>
    obtain ⟨x, y, z, rfl⟩ := List.length_eq_three.mp hlength
    simp only [List.mem_cons, List.not_mem_nil, or_false, forall_eq_or_imp, forall_eq] at h
    simp [Row.operands, Opcode.shape, Shape.fill, parts_comma h.1, parts_comma h.2.1, parts_blank,
      parts_last h.2.2]
  case lw | sw =>
    obtain ⟨x, y, z, rfl⟩ := List.length_eq_three.mp hlength
    simp only [List.mem_cons, List.not_mem_nil, or_false, forall_eq_or_imp, forall_eq] at h
    simp [Row.operands, Opcode.shape, Shape.fill, parts_comma h.1, parts_open h.2.1, parts_blank,
      parts_close h.2.2]

end Listing

theorem isOperand_decimal (n : Int) : Text.IsOperand (Text.Decimal.text n) := by
  have hdigits : ∀ (k : Nat) (c : Char), c ∈ Nat.toDigits 10 k → c ∉ [' ', ',', '(', ')'] := by
    intro k c hc hmem
    have hdigit := Nat.isDigit_of_mem_toDigits (by decide) (by decide) hc
    simp only [List.mem_cons, List.not_mem_nil, or_false] at hmem
    rcases hmem with rfl | rfl | rfl | rfl <;> exact absurd hdigit (by decide)
  intro c hc
  rw [Text.Decimal.text, String.toList_ofList] at hc
  cases n with
  | ofNat k => exact hdigits k c hc
  | negSucc k =>
      rcases List.mem_cons.mp hc with rfl | hc
      · decide
      · exact hdigits (k + 1) c hc

/-! ## Instructions -/

/-- An instruction as it is printed. A register is named by the palette. -/
structure Listing.Printed where
  label : Option String
  opcode : Option Opcode
  operands : List (Option Argument)
deriving DecidableEq, Repr

namespace Annotated

/-- An operand as it is printed; there is none for a register without a slot of the palette. -/
def argument? (a : Annotated) (palette : Palette) (v : VarId) : Option Argument :=
  match (a.program.var v).kind with
  | .register => ((a.slotOf v).bind palette.name?).map .register
  | .memory => some (.memory (a.program.var v).name)
  | .constant => some (.number (a.program.var v).value)
  | .label | .untyped => some (.label (a.program.var v).name)

/-- An instruction of the program as it is printed. -/
def printed (a : Annotated) (palette : Palette) (i : InstId) : Listing.Printed where
  label := (a.program.instr i).label.map fun v => (a.program.var v).name
  opcode := (a.program.instr i).opcode
  operands := (a.program.instr i).operands.map (a.argument? palette)

/-- The program is linked and named as a parsed one, each register has a slot, and the names of the
palette consist of letters and digits. -/
structure Legible (a : Annotated) (palette : Palette) : Prop where
  linked : a.program.Linked
  named : a.program.Named
  slotted : ∀ v, (a.program.var v).kind = .register →
    ∃ slot, a.slotOf v = some slot ∧ palette.contains slot = true
  alphanumeric : ∀ name ∈ palette.names, ∀ c ∈ name.toList, c.isAlphanum = true

namespace Legible

variable {a b : Annotated} {palette palette' : Palette} {i : InstId} {v w : VarId}

theorem exists_name (h : a.Legible palette) (hv : (a.program.var v).kind = .register) :
    ∃ slot name, a.slotOf v = some slot ∧ palette.name? slot = some name ∧
      a.operand palette v = "$" ++ name ∧ a.argument? palette v = some (.register name) ∧
      IsWord name := by
  obtain ⟨slot, hslot, hcontains⟩ := h.slotted v hv
  have hlt : slot.index < palette.names.length := of_decide_eq_true hcontains
  have hname : palette.name? slot = some palette.names[slot.index] := List.getElem?_eq_getElem hlt
  refine ⟨slot, _, hslot, hname, ?_, ?_, ?_⟩
  · simp [operand, hv, hslot, Palette.render?, hname]
  · simp [argument?, hv, hslot, hname]
  · intro c hc
    simp [Lexer.continuesWord, h.alphanumeric _ (List.getElem_mem hlt) c hc]

/-- No name that a text declares has the sign of a register in it. -/
theorem operand_ne_name (h : a.Legible palette) (hi : i < a.program.size)
    (hv : v ∈ (a.program.instr i).operands) (hkind : (a.program.var v).kind = .register) :
    a.operand palette v ≠ (a.program.var v).name := by
  obtain ⟨slot, name, _, _, hoperand, _, _⟩ := h.exists_name hkind
  have hword := h.named.operand _ (Program.instr_mem hi) v hv (by simp [hkind])
  intro heq
  have hmem : '$' ∈ (a.program.var v).name.toList := by
    rw [← heq, hoperand]
    simp
  exact hword.not_mem (by decide) hmem

theorem unbroken (h : a.Legible palette) : a.Unbroken palette := by
  intro v slot name _ hname hmem
  exact absurd (h.alphanumeric name (List.mem_of_getElem? hname) _ hmem) (by decide)

theorem isOperand (h : a.Legible palette) (hi : i < a.program.size)
    (hv : v ∈ (a.program.instr i).operands) : Text.IsOperand (a.operand palette v) := by
  have hword := h.named.operand _ (Program.instr_mem hi) v hv
  cases hkind : (a.program.var v).kind with
  | register =>
      obtain ⟨slot, name, _, _, htext, _, hname⟩ := h.exists_name hkind
      rw [htext]
      intro c hc
      rw [String.toList_append, List.mem_append] at hc
      rcases hc with hc | hc
      · obtain rfl : c = '$' := by simpa using hc
        decide
      · exact hname.isOperand c hc
  | constant =>
      simp only [operand, hkind]
      exact isOperand_decimal _
  | _ =>
      simp only [operand, hkind]
      exact (hword (by simp [hkind])).isOperand

/-- The line of an instruction holds its operands. -/
theorem operands_body (h : a.Legible palette) (hi : i < a.program.size) (hne : i ≠ 0)
    (labels : List String) :
    (Listing.Row.mk labels (a.body palette i)).operands =
      (a.program.instr i).operands.map (a.operand palette) := by
  obtain ⟨op, hop⟩ := exists_opcode h.linked hi hne
  obtain ⟨hdst, hsrc⟩ := (h.linked.fits _ (Program.instr_mem hi)).operands op hop
  have hbody : a.body palette i = Shape.fill op.shape.template.toList
      ((a.program.instr i).operands.map (a.operand palette)) := by
    simp [body, hop]
  rw [hbody]
  refine Listing.operands_fill op ?_ ?_ labels
  · rw [← hdst, ← hsrc]
    simp [Instruction.operands]
  · intro text htext
    obtain ⟨v, hv, rfl⟩ := List.mem_map.mp htext
    exact h.isOperand hi hv

/-- Operands of the same kind and with the same text are the same. -/
theorem argument?_eq (ha : a.Legible palette) (hb : b.Legible palette')
    (hkind : (a.program.var v).kind = (b.program.var w).kind)
    (htext : a.operand palette v = b.operand palette' w) :
    a.argument? palette v = b.argument? palette' w := by
  cases hv : (a.program.var v).kind with
  | register =>
      obtain ⟨_, name, _, _, hname, harg, _⟩ := ha.exists_name hv
      obtain ⟨_, name', _, _, hname', harg', _⟩ := hb.exists_name (hkind.symm.trans hv)
      rw [hname, hname', String.append_right_inj] at htext
      rw [harg, harg', htext]
  | constant =>
      simp only [operand, ← hkind, hv] at htext
      simp only [argument?, ← hkind, hv, Text.Decimal.text_inj htext]
  | _ =>
      simp only [operand, ← hkind, hv] at htext
      simp only [argument?, ← hkind, hv, htext]

/-! ## Data section -/

/-- A visible function has a line of its own at the start. -/
theorem preamble_of_globl (h : a.Legible palette) :
    ∃ name, a.preamble palette true =
      [".globl " ++ name, ""] ++ ".data" :: a.program.memory.map a.dataText ++ [""] := by
  obtain ⟨label, hlabel⟩ := Option.isSome_iff_exists.mp
    (Bool.and_eq_true_iff.mp h.linked.entry_first).2
  have hentry : a.program.entry? = some 0 := by
    obtain ⟨hlt, hget⟩ := Array.getElem?_eq_some_iff.mp (Program.getElem?_instr h.linked.size_pos)
    refine Array.findIdx?_eq_some_iff_getElem.mpr ⟨hlt, ?_, by simp⟩
    rw [hget]
    exact h.linked.entry_first
  exact ⟨a.operand palette label, by simp [preamble, globalLines, hentry, hlabel]⟩

/-- The name of a memory variable ends at the first colon of its line. -/
theorem data_eq (hv : IsWord (a.program.var v).name) (hw : IsWord (b.program.var w).name)
    (h : a.dataText v = b.dataText w) :
    ((a.program.var v).name, (a.program.var v).value) =
      ((b.program.var w).name, (b.program.var w).value) := by
  have hchars : (a.program.var v).name.toList ++
        ':' :: ("\t.word " ++ Text.Decimal.text (a.program.var v).value).toList =
      (b.program.var w).name.toList ++
        ':' :: ("\t.word " ++ Text.Decimal.text (b.program.var w).value).toList := by
    simpa [dataText] using congrArg String.toList h
  have hparts := congrArg (Text.splitChars ':') hchars
  rw [Text.splitChars_append_cons (hv.not_mem (by decide)),
    Text.splitChars_append_cons (hw.not_mem (by decide))] at hparts
  have hname := (List.cons.inj hparts).1
  rw [hname, List.append_cancel_left_eq, List.cons.injEq, String.toList_inj,
    String.append_right_inj] at hchars
  rw [String.toList_inj.mp hname, Text.Decimal.text_inj hchars.2]

/-! ## Documents with the same text -/

section Same

variable (ha : a.Legible palette) (hb : b.Legible palette') {globl globl' : Bool}
  (hsame : a.assembly palette globl = b.assembly palette' globl')

include ha hb hsame

theorem size_eq : a.program.size = b.program.size := by
  rw [← length_read ha.linked ha.named ha.unbroken globl, hsame,
    length_read hb.linked hb.named hb.unbroken globl']

theorem row_eq (hi : i < a.program.size) (hne : i ≠ 0) :
    a.rowLabels i = b.rowLabels i ∧ a.body palette i = b.body palette' i := by
  have hrow := getElem?_read ha.linked ha.named ha.unbroken globl hi hne
  have hrow' := getElem?_read hb.linked hb.named hb.unbroken globl' (size_eq ha hb hsame ▸ hi) hne
  have hline : a.program.lineOf i = b.program.lineOf i := by
    obtain ⟨k, rfl⟩ := Nat.exists_eq_succ_of_ne_zero hne
    rw [ha.linked.lineOf_succ, hb.linked.lineOf_succ]
  rw [hsame, hline, hrow'] at hrow
  simpa using hrow.symm

/-- The marker's label stands right before that of the first instruction, or before the return. -/
theorem labelNames_eq (hi : i < a.program.size) : a.labelNames i = b.labelNames i := by
  have hsize := size_eq ha hb hsame
  have hmarker : ∀ {c : Annotated}, c.program.Linked → (c.labelNames 0).length = 1 := by
    intro c hlinked
    obtain ⟨label, hlabel⟩ := Option.isSome_iff_exists.mp
      (Bool.and_eq_true_iff.mp hlinked.entry_first).2
    simp [labelNames, hlabel]
  have hfirst : 1 < a.program.size →
      a.labelNames 1 = b.labelNames 1 ∧ a.labelNames 0 = b.labelNames 0 := by
    intro hlt
    have hlabels := (row_eq ha hb hsame hlt (by decide)).1
    simp only [rowLabels, if_true] at hlabels
    exact List.append_inj' hlabels ((hmarker ha.linked).trans (hmarker hb.linked).symm)
  rcases i with _ | _ | i
  · by_cases hone : a.program.size = 1
    · have hlast := getElem?_read_last ha.linked ha.named ha.unbroken globl
      have hlast' := getElem?_read_last hb.linked hb.named hb.unbroken globl'
      rw [hsame, hsize, hlast'] at hlast
      simpa [← hsize, hone] using hlast.symm
    · exact (hfirst (Nat.lt_of_le_of_ne hi (Ne.symm hone))).2
  · exact (hfirst hi).1
  · have hlabels := (row_eq ha hb hsame hi (by simp)).1
    simpa [rowLabels] using hlabels

theorem opcode_eq (hi : i < a.program.size) (hne : i ≠ 0) :
    (a.program.instr i).opcode = (b.program.instr i).opcode := by
  obtain ⟨op, hop⟩ := exists_opcode ha.linked hi hne
  obtain ⟨op', hop'⟩ := exists_opcode hb.linked (size_eq ha hb hsame ▸ hi) hne
  have hname : op.name = op'.name := by
    rw [← @mnemonic_body a palette i op hop [], (row_eq ha hb hsame hi hne).2, mnemonic_body hop']
  have hsome := Opcode.ofName?_name op
  rw [hname, Opcode.ofName?_name] at hsome
  rw [hop, hop', hsome]

/-- Operands of the same operation have the same kinds, so their texts determine them. -/
theorem operands_eq (hi : i < a.program.size) (hne : i ≠ 0) :
    (a.program.instr i).operands.map (a.argument? palette) =
      (b.program.instr i).operands.map (b.argument? palette') := by
  have hi' : i < b.program.size := size_eq ha hb hsame ▸ hi
  obtain ⟨op, hop⟩ := exists_opcode ha.linked hi hne
  have hop' := (opcode_eq ha hb hsame hi hne).symm.trans hop
  have htexts : (a.program.instr i).operands.map (a.operand palette) =
      (b.program.instr i).operands.map (b.operand palette') := by
    rw [← ha.operands_body hi hne [], ← hb.operands_body hi' hne [], (row_eq ha hb hsame hi hne).2]
  have hkinds : (a.program.instr i).operands.map (fun v => (a.program.var v).kind) =
      (b.program.instr i).operands.map (fun v => (b.program.var v).kind) := by
    obtain ⟨hdst, hsrc⟩ := (ha.linked.fits _ (Program.instr_mem hi)).operands op hop
    obtain ⟨hdst', hsrc'⟩ := (hb.linked.fits _ (Program.instr_mem hi')).operands op hop'
    rw [Instruction.operands, Instruction.operands, List.map_append, List.map_append, hdst, hsrc,
      hdst', hsrc']
  have hlength := by simpa using congrArg List.length htexts
  refine List.ext_getElem (by simpa using hlength) fun n hn hn' => ?_
  rw [List.length_map] at hn hn'
  have htext := List.getElem_of_eq htexts (by simpa using hn)
  have hkind := List.getElem_of_eq hkinds (by simpa using hn)
  simp only [List.getElem_map] at htext hkind ⊢
  exact argument?_eq ha hb hkind htext

theorem printed_eq (hi : i < a.program.size) : a.printed palette i = b.printed palette' i := by
  have hi' : i < b.program.size := size_eq ha hb hsame ▸ hi
  have hlabel : (a.printed palette i).label = (b.printed palette' i).label := by
    have hnames := congrArg List.head? (labelNames_eq ha hb hsame hi)
    simpa [labelNames, printed] using hnames
  by_cases hne : i = 0
  · -- the markers print nothing but their label
    subst hne
    have hnone : ∀ {c : Annotated}, c.program.Linked → (c.program.instr 0).opcode = none ∧
        (c.program.instr 0).operands = [] := by
      intro c hlinked
      have hop := Option.isNone_iff_eq_none.mp (Bool.and_eq_true_iff.mp hlinked.entry_first).1
      exact ⟨hop, ((hlinked.fits _ (Program.instr_mem hlinked.size_pos)).marker hop).2⟩
    obtain ⟨hop, hoperands⟩ := hnone ha.linked
    obtain ⟨hop', hoperands'⟩ := hnone hb.linked
    rw [printed, printed, Listing.Printed.mk.injEq, hop, hop', hoperands, hoperands']
    exact ⟨hlabel, rfl, rfl⟩
  · rw [printed, printed, Listing.Printed.mk.injEq]
    exact ⟨hlabel, opcode_eq ha hb hsame hi hne, operands_eq ha hb hsame hi hne⟩

theorem preamble_eq : a.preamble palette globl = b.preamble palette' globl' := by
  have hfront : ∀ {c : Annotated} {palette : Palette} {globl : Bool}, c.Legible palette →
      (Text.split '\n' (c.assembly palette globl)).takeWhile (· != ".text") =
        c.preamble palette globl := by
    intro c palette globl hc
    rw [split_assembly hc.linked hc.named hc.unbroken,
      List.takeWhile_append_of_pos (c.forall_preamble_bne palette globl),
      List.takeWhile_cons_of_neg (by decide), List.append_nil]
  rw [← hfront ha, ← hfront hb, hsame]

theorem globl_eq_and_memory_eq : globl = globl' ∧
    a.program.memory.map (fun v => ((a.program.var v).name, (a.program.var v).value)) =
      b.program.memory.map (fun v => ((b.program.var v).name, (b.program.var v).value)) := by
  have hpreamble := preamble_eq ha hb hsame
  have hdata : a.program.memory.map a.dataText = b.program.memory.map b.dataText →
      a.program.memory.map (fun v => ((a.program.var v).name, (a.program.var v).value)) =
        b.program.memory.map (fun v => ((b.program.var v).name, (b.program.var v).value)) := by
    intro htexts
    refine List.ext_getElem (by simpa using congrArg List.length htexts) fun n hn hn' => ?_
    have htext := List.getElem_of_eq htexts (by simpa using hn)
    simp only [List.getElem_map] at htext ⊢
    exact data_eq (ha.named.memory _ (List.getElem_mem _)) (hb.named.memory _ (List.getElem_mem _))
      htext
  obtain ⟨name, hname⟩ := ha.preamble_of_globl
  obtain ⟨name', hname'⟩ := hb.preamble_of_globl
  cases globl with
  | false =>
      cases globl' with
      | false => exact ⟨rfl, hdata (by simpa [preamble] using hpreamble)⟩
      | true =>
          rw [hname'] at hpreamble
          simp [preamble, ← String.toList_inj] at hpreamble
  | true =>
      cases globl' with
      | false =>
          rw [hname] at hpreamble
          simp [preamble, ← String.toList_inj] at hpreamble
      | true =>
          rw [hname, hname'] at hpreamble
          exact ⟨rfl, hdata (by simpa using (List.cons.inj hpreamble).2)⟩

end Same

end Legible

end Annotated

end RegAlloc
