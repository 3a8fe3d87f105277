import RegAlloc.Assembly
import RegAlloc.Proofs.Assembly.Listing
import RegAlloc.Proofs.Program.Names

/-!
# The lines of a document

A document is a list of lines. None of them holds a newline, since names are words, so reading the
document gives one line of code for each instruction, with the labels before it.
-/

namespace RegAlloc

theorem newline_not_mem_decimal (n : Int) : '\n' ∉ (Text.Decimal.text n).toList := by
  have hdigits : ∀ k : Nat, '\n' ∉ Nat.toDigits 10 k := by
    intro k hmem
    have hdigit := Nat.isDigit_of_mem_toDigits (by decide) (by decide) hmem
    revert hdigit
    decide
  rw [Text.Decimal.text, String.toList_ofList]
  cases n with
  | ofNat k => exact hdigits k
  | negSucc k => simpa [Text.Decimal.render] using hdigits (k + 1)

theorem IsWord.newline_not_mem {s : String} (h : IsWord s) : '\n' ∉ s.toList :=
  h.not_mem (by decide)

theorem IsWord.tab_not_mem {s : String} (h : IsWord s) : '\t' ∉ s.toList :=
  h.not_mem (by decide)

/-! ## Templates -/

/-- What is printed stands in the template or in an operand. -/
theorem mem_fill {template : List Char} {operands : List String} {c : Char}
    (h : c ∈ (Shape.fill template operands).toList) :
    c ∈ template ∨ ∃ operand ∈ operands, c ∈ operand.toList := by
  fun_induction Shape.fill template operands with
  | case1 d cs operand operands ih =>
      rw [String.toList_append, List.mem_append] at h
      rcases h with hhere | hthere
      · exact Or.inr ⟨operand, List.mem_cons_self, hhere⟩
      · rcases ih hthere with hin | ⟨o, ho, hin⟩
        · exact Or.inl (by simp [hin])
        · exact Or.inr ⟨o, List.mem_cons_of_mem operand ho, hin⟩
  | case2 d cs ih =>
      rcases ih h with hin | ⟨o, ho, hin⟩
      · exact Or.inl (by simp [hin])
      · cases ho
  | case3 d cs operands _ _ ih =>
      rw [String.toList_append, List.mem_append] at h
      rcases h with hhere | hthere
      · exact Or.inl (by simp_all)
      · exact (ih hthere).imp_left (List.mem_cons_of_mem d)
  | case4 => simp at h

theorem newline_not_mem_template (op : Opcode) : '\n' ∉ op.shape.template.toList := by
  cases op <;> decide

namespace Annotated

variable {a : Annotated} {palette : Palette} {i : InstId} {v : VarId}

/-- No newline comes from the registers that are assigned. -/
def Unbroken (a : Annotated) (palette : Palette) : Prop :=
  ∀ v slot name, a.slotOf v = some slot → palette.name? slot = some name → '\n' ∉ name.toList

theorem operand_of_label (h : (a.program.var v).kind = .label) :
    a.operand palette v = (a.program.var v).name := by
  simp [operand, h]

theorem newline_not_mem_render (h : a.Unbroken palette) {text : String}
    (htext : (a.slotOf v).bind palette.render? = some text) : '\n' ∉ text.toList := by
  obtain ⟨slot, hslot, hrender⟩ := Option.bind_eq_some_iff.mp htext
  obtain ⟨name, hname, rfl⟩ := Option.map_eq_some_iff.mp hrender
  have hmem := h v slot name hslot hname
  simpa using hmem

theorem newline_not_mem_operand (hnamed : a.program.Named) (h : a.Unbroken palette)
    {x : Instruction} (hx : x ∈ a.program.instrs) (hv : v ∈ x.operands) :
    '\n' ∉ (a.operand palette v).toList := by
  have hword := fun hkind => (hnamed.operand x hx v hv hkind).newline_not_mem
  unfold operand
  split
  · rename_i hkind
    cases htext : (a.slotOf v).bind palette.render? with
    | none => exact hword (by simp [hkind])
    | some text => exact newline_not_mem_render h htext
  · exact newline_not_mem_decimal _
  all_goals
    rename_i hkind
    exact hword (by simp [hkind])

theorem newline_not_mem_body (hnamed : a.program.Named) (h : a.Unbroken palette)
    (hi : i < a.program.size) : '\n' ∉ (a.body palette i).toList := by
  unfold body
  split
  · simp
  · intro hmem
    rcases mem_fill hmem with htemplate | ⟨text, htext, hin⟩
    · exact newline_not_mem_template _ htemplate
    · obtain ⟨v, hv, rfl⟩ := List.mem_map.mp htext
      exact newline_not_mem_operand hnamed h (Program.instr_mem hi) hv hin

/-! ## Documents -/

/-- The lines of an instruction. -/
def codeLines (a : Annotated) (palette : Palette) (i : InstId) : List String :=
  match (a.program.instr i).label with
  | none => ["\t" ++ a.body palette i]
  | some label =>
    if (a.program.instr i).isEntry then [a.operand palette label ++ ":"]
    else [a.operand palette label ++ ":", "\t" ++ a.body palette i]

/-- The lines that make the function visible. -/
def globalLines (a : Annotated) (palette : Palette) : List String :=
  match a.program.entry?.bind fun i => (a.program.instr i).label with
  | some label => [".globl " ++ a.operand palette label, ""]
  | none => []

/-- The line of a memory variable. -/
def dataText (a : Annotated) (v : VarId) : String :=
  (a.program.var v).name ++ ":\t.word " ++ Text.Decimal.text (a.program.var v).value

/-- The lines before the text section. -/
def preamble (a : Annotated) (palette : Palette) (globl : Bool) : List String :=
  (if globl then a.globalLines palette else []) ++
    ".data" :: a.program.memory.map a.dataText ++ [""]

theorem mem_preamble {globl : Bool} {line : String} :
    line ∈ a.preamble palette globl ↔ globl = true ∧ line ∈ a.globalLines palette ∨
      line = ".data" ∨ (∃ v ∈ a.program.memory, a.dataText v = line) ∨ line = "" := by
  cases globl <;> simp [preamble]

theorem join_codeLines (a : Annotated) (palette : Palette) (i : InstId) :
    String.join ((a.codeLines palette i).map (· ++ "\n")) = a.line palette i ++ "\n" := by
  rw [← String.toList_inj]
  cases hlabel : (a.program.instr i).label with
  | none => simp [codeLines, line, hlabel]
  | some label =>
      cases hentry : (a.program.instr i).isEntry <;> simp [codeLines, line, hlabel, hentry]

theorem join_globalLines (a : Annotated) (palette : Palette) :
    String.join ((a.globalLines palette).map (· ++ "\n")) = a.globalHeader palette := by
  unfold globalLines globalHeader
  cases a.program.entry?.bind fun i => (a.program.instr i).label with
  | none => rfl
  | some label => simp [String.append_assoc]

theorem join_flatMap {α : Type} (f : α → List String) (xs : List α) :
    String.join ((xs.flatMap f).map (· ++ "\n")) =
      String.join (xs.map fun x => String.join ((f x).map (· ++ "\n"))) := by
  induction xs with
  | nil => rfl
  | cons x xs ih => simp [String.join_append, ih]

theorem assembly_eq_join (a : Annotated) (palette : Palette) (globl : Bool) :
    a.assembly palette globl = String.join ((a.preamble palette globl ++
      ".text" :: (List.range a.program.size).flatMap (a.codeLines palette)).map (· ++ "\n")) ++
      "\tjr $ra" := by
  have hglobl : (if globl then a.globalHeader palette else "") =
      String.join ((if globl then a.globalLines palette else []).map (· ++ "\n")) := by
    cases globl with
    | false => rfl
    | true => exact (a.join_globalLines palette).symm
  have hdata : String.join (a.program.memory.map a.dataLine) =
      String.join ((a.program.memory.map a.dataText).map (· ++ "\n")) := by
    rw [List.map_map]
    rfl
  have hcode : String.join ((List.range a.program.size).map fun i => a.line palette i ++ "\n") =
      String.join (((List.range a.program.size).flatMap (a.codeLines palette)).map (· ++ "\n")) := by
    simp only [join_flatMap, join_codeLines]
  rw [assembly, hglobl, hdata, hcode, preamble]
  simp only [List.map_append, List.map_cons, List.map_nil, String.join_append, String.join_cons,
    String.join_nil, ← String.toList_inj, String.toList_append]
  simp

theorem isWord_of_label (hlinked : a.program.Linked) (hnamed : a.program.Named)
    (hi : i < a.program.size) {label : VarId} (hlabel : (a.program.instr i).label = some label) :
    a.operand palette label = (a.program.var label).name ∧ IsWord (a.program.var label).name := by
  have hmem := Program.instr_mem hi
  exact ⟨operand_of_label ((hlinked.fits _ hmem).label label hlabel),
    hnamed.label _ hmem label hlabel⟩

theorem newline_not_mem_codeLines (hlinked : a.program.Linked) (hnamed : a.program.Named)
    (h : a.Unbroken palette) (hi : i < a.program.size) :
    ∀ line ∈ a.codeLines palette i, '\n' ∉ line.toList := by
  have hbody := newline_not_mem_body hnamed h hi
  unfold codeLines
  split
  · simpa using hbody
  · rename_i label hlabel
    obtain ⟨htext, hword⟩ := @isWord_of_label a palette i hlinked hnamed hi label hlabel
    have hline := hword.newline_not_mem
    rw [htext]
    split
    · simpa using hline
    · simpa using ⟨hline, hbody⟩

theorem newline_not_mem_globalLines (hlinked : a.program.Linked) (hnamed : a.program.Named) :
    ∀ line ∈ a.globalLines palette, '\n' ∉ line.toList := by
  unfold globalLines
  split
  · rename_i label hlabel
    obtain ⟨i, hentry, hlabel⟩ := Option.bind_eq_some_iff.mp hlabel
    obtain ⟨hi, _⟩ := Array.findIdx?_eq_some_iff_getElem.mp hentry
    obtain ⟨htext, hword⟩ := @isWord_of_label a palette i hlinked hnamed hi label hlabel
    rw [htext]
    simpa using hword.newline_not_mem
  · simp

theorem newline_not_mem_preamble (hlinked : a.program.Linked) (hnamed : a.program.Named)
    (globl : Bool) : ∀ line ∈ a.preamble palette globl, '\n' ∉ line.toList := by
  intro line hline
  rcases mem_preamble.mp hline with ⟨_, hline⟩ | rfl | ⟨v, hv, rfl⟩ | rfl
  · exact newline_not_mem_globalLines hlinked hnamed line hline
  · decide
  · simpa [dataText] using
      ⟨(hnamed.memory v hv).newline_not_mem, newline_not_mem_decimal (a.program.var v).value⟩
  · decide

/-- The text section begins where it says so. -/
theorem text_not_mem_preamble (a : Annotated) (palette : Palette) (globl : Bool) :
    ".text" ∉ a.preamble palette globl := by
  intro hmem
  rcases mem_preamble.mp hmem with ⟨_, hline⟩ | hline | ⟨v, _, hline⟩ | hline
  · unfold globalLines at hline
    split at hline
    · rename_i label _
      have hne : ".globl " ++ a.operand palette label ≠ ".text" := by
        rw [Ne, ← String.toList_inj]
        simp
      rw [List.mem_cons, List.mem_singleton] at hline
      exact hline.elim (fun heq => hne heq.symm) (by decide)
    · cases hline
  · exact absurd hline (by decide)
  · have htab : '\t' ∈ (a.dataText v).toList := by simp [dataText]
    rw [hline] at htab
    exact absurd htab (by decide)
  · exact absurd hline (by decide)

/-! ## Lines of code -/

/-- The name of the label that an instruction carries. -/
def labelNames (a : Annotated) (i : InstId) : List String :=
  ((a.program.instr i).label.map fun v => (a.program.var v).name).toList

/-- The lines of code of some instructions and of the return after them. -/
def codeRows (a : Annotated) (palette : Palette) (pending : List String) :
    List InstId → List Listing.Row
  | [] => [⟨pending, "jr $ra"⟩]
  | i :: ids => ⟨a.labelNames i ++ pending, a.body palette i⟩ :: a.codeRows palette [] ids

theorem rows_codeLines (hlinked : a.program.Linked) (hnamed : a.program.Named) {ids : List InstId}
    (hids : ∀ i ∈ ids, i ≠ 0 ∧ i < a.program.size) (pending : List String) :
    Listing.rows pending ((ids.flatMap (a.codeLines palette) ++ ["\tjr $ra"]).map
      Listing.Line.ofText) = a.codeRows palette pending ids := by
  induction ids generalizing pending with
  | nil => rfl
  | cons i ids ih =>
      obtain ⟨hne, hi⟩ := hids i List.mem_cons_self
      have hrest := ih (fun k hk => hids k (List.mem_cons_of_mem i hk)) []
      have hentry := hlinked.isEntry_eq_false hne
      rw [List.flatMap_cons, List.append_assoc, List.map_append]
      cases hlabel : (a.program.instr i).label with
      | none =>
          simp only [codeLines, hlabel, List.map_cons, List.map_nil, Listing.ofText_code,
            List.cons_append, List.nil_append, Listing.rows, codeRows, labelNames, hrest]
          rfl
      | some label =>
          obtain ⟨htext, hword⟩ := @isWord_of_label a palette i hlinked hnamed hi label hlabel
          simp only [codeLines, hlabel, hentry, htext, Bool.false_eq_true, if_false, List.map_cons,
            List.map_nil, Listing.ofText_code, Listing.ofText_label hword.tab_not_mem,
            List.cons_append, List.nil_append, Listing.rows, codeRows, labelNames, hrest]
          rfl

theorem split_assembly (hlinked : a.program.Linked) (hnamed : a.program.Named)
    (h : a.Unbroken palette) (globl : Bool) :
    Text.split '\n' (a.assembly palette globl) = a.preamble palette globl ++
      ".text" :: ((List.range a.program.size).flatMap (a.codeLines palette) ++ ["\tjr $ra"]) := by
  have hlines : ∀ line ∈ a.preamble palette globl ++
      ".text" :: (List.range a.program.size).flatMap (a.codeLines palette), '\n' ∉ line.toList := by
    intro line hline
    rw [List.mem_append, List.mem_cons, List.mem_flatMap] at hline
    rcases hline with hline | rfl | ⟨i, hi, hline⟩
    · exact newline_not_mem_preamble hlinked hnamed globl line hline
    · decide
    · exact newline_not_mem_codeLines hlinked hnamed h (List.mem_range.mp hi) line hline
  rw [assembly_eq_join, Text.split_join hlines (by decide), List.append_assoc, List.cons_append]

theorem forall_preamble_bne (a : Annotated) (palette : Palette) (globl : Bool) :
    ∀ line ∈ a.preamble palette globl, (line != ".text") = true := by
  intro line hline
  rw [bne_iff_ne]
  rintro rfl
  exact a.text_not_mem_preamble palette globl hline

theorem read_assembly (hlinked : a.program.Linked) (hnamed : a.program.Named)
    (h : a.Unbroken palette) (globl : Bool) :
    Listing.read (a.assembly palette globl) =
      a.codeRows palette (a.labelNames 0) (List.range' 1 (a.program.size - 1)) := by
  -- the marker comes first, and its label waits for the next instruction
  have hrange : List.range' 0 a.program.size = 0 :: List.range' 1 (a.program.size - 1) := by
    cases hsize : a.program.size with
    | zero => exact absurd hlinked.size_pos (by simp [hsize])
    | succ n => rfl
  obtain ⟨label, hlabel⟩ := Option.isSome_iff_exists.mp
    (Bool.and_eq_true_iff.mp hlinked.entry_first).2
  obtain ⟨htext, hword⟩ := @isWord_of_label a palette 0 hlinked hnamed hlinked.size_pos label hlabel
  have hmarker : a.codeLines palette 0 = [(a.program.var label).name ++ ":"] := by
    simp [codeLines, hlabel, hlinked.entry_first, htext]
  have hpending : [(a.program.var label).name] = a.labelNames 0 := by simp [labelNames, hlabel]
  rw [Listing.read, split_assembly hlinked hnamed h,
    List.dropWhile_append_of_pos (a.forall_preamble_bne palette globl),
    List.dropWhile_cons_of_neg (by decide), List.tail_cons, List.range_eq_range', hrange,
    List.flatMap_cons, hmarker, List.singleton_append, List.cons_append, List.map_cons,
    Listing.ofText_label hword.tab_not_mem, Listing.rows, hpending]
  refine rows_codeLines hlinked hnamed (fun i hi => ?_) _
  obtain ⟨hpos, hlt⟩ := List.mem_range'_1.mp hi
  rw [Nat.add_sub_cancel' hlinked.size_pos] at hlt
  exact ⟨Nat.ne_of_gt hpos, hlt⟩

end Annotated

end RegAlloc
