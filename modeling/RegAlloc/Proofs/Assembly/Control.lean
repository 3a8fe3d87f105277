import RegAlloc.Proofs.Assembly.Lines
import RegAlloc.Proofs.Flow.Edges

/-!
# Control flow of assembly text

The printed text and the control-flow graph of a parsed program have the same transfers of control.
-/

namespace RegAlloc

/-! ## Words of a line -/

theorem fill_append {chars rest : List Char} (h : '\'' ∉ chars) (operands : List String) :
    (Shape.fill (chars ++ rest) operands).toList =
      chars ++ (Shape.fill rest operands).toList := by
  induction chars with
  | nil => rfl
  | cons c cs ih =>
      rw [List.mem_cons, not_or] at h
      simp [Shape.fill, Ne.symm h.1, ih h.2]

namespace Listing

/-- A word ends at a blank. -/
theorem takeWhile_word {word rest : List Char} (hword : ' ' ∉ word)
    (hrest : rest.head? = none ∨ rest.head? = some ' ') :
    (word ++ rest).takeWhile (· != ' ') = word := by
  have hinside : ∀ c ∈ word, (c != ' ') = true := by
    intro c hc
    rw [bne_iff_ne]
    rintro rfl
    exact hword hc
  have hstop : rest.takeWhile (· != ' ') = [] := by
    cases rest with
    | nil => rfl
    | cons c cs =>
        obtain rfl : c = ' ' := by simpa using hrest
        rfl
  rw [List.takeWhile_append_of_pos hinside, hstop, List.append_nil]

theorem mnemonic_eq {labels : List String} {body name : String} {rest : List Char}
    (hbody : body.toList = name.toList ++ rest) (hname : ' ' ∉ name.toList)
    (hrest : rest.head? = none ∨ rest.head? = some ' ') : (Row.mk labels body).mnemonic = name := by
  rw [Row.mnemonic, hbody, takeWhile_word hname hrest, String.ofList_toList]

theorem target_eq {labels : List String} {body name : String} {front : List Char}
    (hbody : body.toList = front ++ ' ' :: name.toList) (hname : ' ' ∉ name.toList) :
    (Row.mk labels body).target = name := by
  have hreverse : body.toList.reverse = name.toList.reverse ++ ' ' :: front.reverse := by
    simp [hbody]
  rw [Row.target, hreverse, takeWhile_word (by simpa using hname) (Or.inr rfl),
    List.reverse_reverse, String.ofList_toList]

end Listing

namespace Opcode

/-- A template begins with the mnemonic. -/
theorem template_eq (op : Opcode) :
    op.shape.template.toList =
        op.name.toList ++ op.shape.template.toList.drop op.name.toList.length ∧
      '\'' ∉ op.name.toList ∧ ' ' ∉ op.name.toList := by
  cases op <;> decide

theorem head?_drop_template (op : Opcode) (operands : List String) :
    let rest := Shape.fill (op.shape.template.toList.drop op.name.toList.length) operands
    rest.toList.head? = none ∨ rest.toList.head? = some ' ' := by
  cases op <;> first | exact Or.inl rfl | exact Or.inr (by simp [shape, name, Shape.fill])

theorem src_branch {op : Opcode} (h : op.shape.branch ≠ .straight) :
    op.shape.dst = [] ∧ op.shape.src = op.shape.src.dropLast ++ [.label] := by
  cases op <;> first | exact absurd rfl h | decide

/-- A branch ends with its label. -/
theorem fill_branch {op : Opcode} (h : op.shape.branch ≠ .straight) {operands : List String}
    {label : String} (hlength : operands.length = op.shape.src.dropLast.length) :
    ∃ front, (Shape.fill op.shape.template.toList (operands ++ [label])).toList =
      front ++ ' ' :: label.toList := by
  cases op with
  | b =>
      obtain rfl : operands = [] := List.length_eq_zero_iff.mp hlength
      exact ⟨['b'], by simp [shape, Shape.fill]⟩
  | bltz =>
      obtain ⟨x, rfl⟩ := List.length_eq_one_iff.mp hlength
      exact ⟨"bltz ".toList ++ x.toList ++ [','], by simp [shape, Shape.fill]⟩
  | bne =>
      obtain ⟨x, y, rfl⟩ := List.length_eq_two.mp hlength
      exact ⟨"bne ".toList ++ x.toList ++ ", ".toList ++ y.toList ++ [','],
        by simp [shape, Shape.fill]⟩
  | _ => exact absurd rfl h

end Opcode

/-! ## Lines of instructions -/

namespace Program

/-- The line of code of an instruction: markers have none. -/
def lineOf (p : Program) (i : InstId) : Nat :=
  (List.range i).countP fun k => !(p.instr k).isEntry

theorem Linked.lineOf_succ {p : Program} (h : p.Linked) (i : InstId) : p.lineOf (i + 1) = i := by
  unfold lineOf
  induction i with
  | zero => simp [List.range_one, h.entry_first]
  | succ i ih =>
      have hentry := h.isEntry_eq_false (Nat.succ_ne_zero i)
      rw [List.range_succ, List.countP_append, ih]
      simp [hentry]

/-- The return stands after the lines of all instructions. -/
theorem Linked.lineOf_size {p : Program} (h : p.Linked) : p.lineOf p.size = p.size - 1 := by
  obtain ⟨k, hk⟩ := Nat.exists_eq_add_of_lt h.size_pos
  rw [hk, Nat.zero_add, h.lineOf_succ, Nat.add_sub_cancel]

/-- The label of a branch is its last operand. -/
theorem operands_of_branch {p : Program} {i : InstId} {op : Opcode} {v : VarId}
    (hfits : Builder.Fits p (p.instr i)) (hop : (p.instr i).opcode = some op)
    (hbranch : op.shape.branch ≠ .straight) (hv : p.branchLabel? i = some v) :
    ∃ ids : List VarId, (p.instr i).operands = ids ++ [v] ∧
      ids.length = op.shape.src.dropLast.length := by
  obtain ⟨hdst, hsrc⟩ := hfits.operands op hop
  obtain ⟨hnone, hlast⟩ := Opcode.src_branch hbranch
  rw [hnone, List.map_eq_nil_iff] at hdst
  rw [hlast] at hsrc
  obtain ⟨ids, lasts, hsplit, hids, hlasts⟩ := List.map_eq_append_iff.mp hsrc
  obtain ⟨w, rfl, hw⟩ := List.map_eq_singleton_iff.mp hlasts
  have hfind : p.branchLabel? i = some w := by
    have hne : (p.instr i).branch ≠ .straight := by simpa [Instruction.branch, hop] using hbranch
    simp [branchLabel?, hne, hsplit, hw]
  obtain rfl := Option.some.inj (hfind.symm.trans hv)
  refine ⟨ids, by simp [Instruction.operands, hdst, hsplit], ?_⟩
  simpa using congrArg List.length hids

end Program

namespace Annotated

variable {a : Annotated} {palette : Palette} {i : InstId}

theorem getElem?_codeRows {pending : List String} {ids : List InstId} {k : Nat}
    (hk : k < ids.length) :
    (a.codeRows palette pending ids)[k]? = some
      ⟨a.labelNames ids[k] ++ (if k = 0 then pending else []), a.body palette ids[k]⟩ := by
  induction ids generalizing pending k with
  | nil => simp at hk
  | cons i ids ih =>
      cases k with
      | zero => simp [codeRows]
      | succ k =>
          have hrest := @ih [] k (by simpa using hk)
          simpa [codeRows] using hrest

theorem getElem?_codeRows_length (pending : List String) (ids : List InstId) :
    (a.codeRows palette pending ids)[ids.length]? =
      some ⟨if ids = [] then pending else [], "jr $ra"⟩ := by
  induction ids generalizing pending with
  | nil => simp [codeRows]
  | cons i ids ih => simp [codeRows, ih]

theorem length_codeRows (pending : List String) (ids : List InstId) :
    (a.codeRows palette pending ids).length = ids.length + 1 := by
  induction ids generalizing pending with
  | nil => rfl
  | cons i ids ih => simp [codeRows, ih]

theorem exists_opcode (hlinked : a.program.Linked) (hi : i < a.program.size) (hne : i ≠ 0) :
    ∃ op, (a.program.instr i).opcode = some op := by
  cases hop : (a.program.instr i).opcode with
  | some op => exact ⟨op, rfl⟩
  | none =>
      have hlabel := ((hlinked.fits _ (Program.instr_mem hi)).marker hop).1
      have hentry := hlinked.isEntry_eq_false hne
      simp [Instruction.isEntry, hop, hlabel] at hentry

theorem mnemonic_body {op : Opcode} (hop : (a.program.instr i).opcode = some op)
    (labels : List String) : (Listing.Row.mk labels (a.body palette i)).mnemonic = op.name := by
  obtain ⟨htemplate, hquote, hspace⟩ := op.template_eq
  have hbody : (a.body palette i).toList = op.name.toList ++
      (Shape.fill (op.shape.template.toList.drop op.name.toList.length)
        ((a.program.instr i).operands.map (a.operand palette))).toList := by
    rw [← fill_append hquote, ← htemplate]
    simp [body, hop]
  exact Listing.mnemonic_eq hbody hspace (op.head?_drop_template _)

variable {labels : List String}

theorem falls_body (hlinked : a.program.Linked) (hi : i < a.program.size) (hne : i ≠ 0) :
    (Listing.Row.mk labels (a.body palette i)).falls = true ↔
      (a.program.instr i).branch ≠ .unconditional := by
  obtain ⟨op, hop⟩ := exists_opcode hlinked hi hne
  simp only [Listing.Row.falls, mnemonic_body hop, Instruction.branch, hop, Option.map_some,
    Option.getD_some]
  cases op <;> decide

theorem jumps_body (hlinked : a.program.Linked) (hi : i < a.program.size) (hne : i ≠ 0) :
    (Listing.Row.mk labels (a.body palette i)).jumps = true ↔
      (a.program.instr i).branch ≠ .straight := by
  obtain ⟨op, hop⟩ := exists_opcode hlinked hi hne
  simp only [Listing.Row.jumps, mnemonic_body hop, Instruction.branch, hop, Option.map_some,
    Option.getD_some]
  cases op <;> decide

theorem target_body (hlinked : a.program.Linked) (hnamed : a.program.Named)
    (hi : i < a.program.size) (hne : i ≠ 0) {v : VarId} (hv : a.program.branchLabel? i = some v) :
    (Listing.Row.mk labels (a.body palette i)).target = (a.program.var v).name := by
  have hmem := Program.instr_mem hi
  obtain ⟨op, hop⟩ := exists_opcode hlinked hi hne
  have hbranch : op.shape.branch ≠ .straight := by
    intro hstraight
    simp [Program.branchLabel?, Instruction.branch, hop, hstraight] at hv
  obtain ⟨ids, hids, hlength⟩ :=
    Program.operands_of_branch (hlinked.fits _ hmem) hop hbranch hv
  obtain ⟨hsrc, hkind⟩ := Program.branchLabel?_eq_some hv
  have hword := hnamed.operand _ hmem v (List.mem_append_right _ hsrc) (by simp [hkind])
  obtain ⟨front, hfront⟩ := @Opcode.fill_branch op hbranch (ids.map (a.operand palette))
    (a.program.var v).name (by simpa using hlength)
  have hbody : (a.body palette i).toList = front ++ ' ' :: (a.program.var v).name.toList := by
    rw [← hfront]
    simp [body, hop, hids, operand_of_label hkind]
  exact Listing.target_eq hbody (hword.not_mem (by decide))

/-! ## Transfers -/

/-- The labels before the line of an instruction: its own, and that of the marker before it. -/
def rowLabels (a : Annotated) (i : InstId) : List String :=
  a.labelNames i ++ if i = 1 then a.labelNames 0 else []

section Read

variable (hlinked : a.program.Linked) (hnamed : a.program.Named) (h : a.Unbroken palette)
  (globl : Bool)

include hlinked hnamed h

theorem getElem?_read (hi : i < a.program.size) (hne : i ≠ 0) :
    (Listing.read (a.assembly palette globl))[a.program.lineOf i]? =
      some ⟨a.rowLabels i, a.body palette i⟩ := by
  cases i with
  | zero => exact absurd rfl hne
  | succ k =>
      have hk : k < (List.range' 1 (a.program.size - 1)).length := by
        rw [List.length_range']
        exact Nat.lt_sub_of_add_lt hi
      rw [read_assembly hlinked hnamed h, hlinked.lineOf_succ, getElem?_codeRows hk]
      simp [rowLabels, Nat.add_comm 1 k]

theorem getElem?_read_last :
    (Listing.read (a.assembly palette globl))[a.program.size - 1]? =
      some ⟨if a.program.size = 1 then a.labelNames 0 else [], "jr $ra"⟩ := by
  have hlast := @getElem?_codeRows_length a palette (a.labelNames 0)
    (List.range' 1 (a.program.size - 1))
  have hsize := hlinked.size_pos
  have hempty : a.program.size - 1 = 0 ↔ a.program.size = 1 := by omega
  simpa only [read_assembly hlinked hnamed h, List.length_range', List.range'_eq_nil_iff, hempty]
    using hlast

theorem length_read :
    (Listing.read (a.assembly palette globl)).length = a.program.size := by
  rw [read_assembly hlinked hnamed h, length_codeRows, List.length_range',
    Nat.sub_add_cancel hlinked.size_pos]

/-- Where control can go from the line of an instruction. -/
theorem transfers_iff (hi : i < a.program.size) (hne : i ≠ 0) {n : Nat} {s : Listing.Row}
    (hs : (Listing.read (a.assembly palette globl))[n]? = some s) :
    Listing.Transfers (Listing.read (a.assembly palette globl)) (a.program.lineOf i) n ↔
      (a.program.instr i).branch ≠ .unconditional ∧ n = i ∨
        ∃ v, a.program.branchLabel? i = some v ∧ (a.program.var v).name ∈ s.labels := by
  have hr := getElem?_read hlinked hnamed h globl hi hne
  have hline : a.program.lineOf i + 1 = i := by
    cases i with
    | zero => exact absurd rfl hne
    | succ k => rw [hlinked.lineOf_succ]
  have htarget : (a.program.instr i).branch ≠ .straight ∧
      (Listing.Row.mk (a.rowLabels i) (a.body palette i)).target ∈ s.labels ↔
      ∃ v, a.program.branchLabel? i = some v ∧ (a.program.var v).name ∈ s.labels := by
    constructor
    · rintro ⟨hbranch, hmem⟩
      obtain ⟨v, hv⟩ := hlinked.branchLabel hi hbranch
      rw [target_body hlinked hnamed hi hne hv] at hmem
      exact ⟨v, hv, hmem⟩
    · rintro ⟨v, hv, hmem⟩
      refine ⟨fun hstraight => ?_, by rwa [target_body hlinked hnamed hi hne hv]⟩
      simp [Program.branchLabel?, hstraight] at hv
  rw [← htarget, ← falls_body hlinked hi hne, ← jumps_body hlinked hi hne]
  constructor
  · rintro ⟨r, t, hr', hs', htransfer⟩
    obtain rfl := Option.some.inj (hr.symm.trans hr')
    obtain rfl := Option.some.inj (hs.symm.trans hs')
    rwa [hline] at htransfer
  · intro htransfer
    refine ⟨_, s, hr, hs, ?_⟩
    rwa [hline]

end Read

theorem mem_labelNames (hlinked : a.program.Linked) (hnamed : a.program.Named)
    (hi : i < a.program.size) {v : VarId} (hkind : (a.program.var v).kind = .label) :
    (a.program.var v).name ∈ a.labelNames i ↔ (a.program.instr i).label = some v := by
  unfold labelNames
  cases hlabel : (a.program.instr i).label with
  | none => simp
  | some w =>
      have hw := (hlinked.fits _ (Program.instr_mem hi)).label w hlabel
      simp only [Option.map_some, Option.toList_some, List.mem_singleton, Option.some.injEq]
      exact ⟨fun hname => hnamed.labels_inj w v hw hkind hname.symm, fun heq => by rw [heq]⟩

theorem mem_rowLabels (hlinked : a.program.Linked) (hnamed : a.program.Named)
    (hi : i < a.program.size) {v : VarId} (hkind : (a.program.var v).kind = .label) :
    (a.program.var v).name ∈ a.rowLabels i ↔ (a.program.instr i).label = some v ∨
      i = 1 ∧ (a.program.instr 0).label = some v := by
  rw [rowLabels, List.mem_append, mem_labelNames hlinked hnamed hi hkind]
  by_cases hone : i = 1
  · simp [hone, mem_labelNames hlinked hnamed hlinked.size_pos hkind]
  · simp [hone]

/-- The text goes where the control-flow graph goes. -/
theorem transfers_iff_mem_succs (hlinked : a.program.Linked) (hnamed : a.program.Named)
    (h : a.Unbroken palette) (globl : Bool) {f : Flow} (hflow : a.program.flow = .ok f)
    {j : InstId} (hi : i < a.program.size) (hne : i ≠ 0) (hj : j < a.program.size) (hne' : j ≠ 0) :
    Listing.Transfers (Listing.read (a.assembly palette globl)) (a.program.lineOf i)
      (a.program.lineOf j) ↔ j ∈ (f.node i).succs := by
  have hline : a.program.lineOf j = i ↔ j = i + 1 := by
    cases j with
    | zero => exact absurd rfl hne'
    | succ k => rw [hlinked.lineOf_succ, Nat.succ_inj]
  have hfalls : a.program.fallsThrough i = true ∧ j = i + 1 ↔
      (a.program.instr i).branch ≠ .unconditional ∧ j = i + 1 := by
    refine and_congr_left fun hnext => ?_
    have hentry := hlinked.isEntry_eq_false hne'
    rw [hnext] at hj hentry
    simp [Program.fallsThrough, hj, hentry]
  rw [transfers_iff hlinked hnamed h globl hi hne (getElem?_read hlinked hnamed h globl hj hne'),
    hline, Program.mem_succs_flow hflow hi, hfalls, hlinked.branchTarget?_eq_some_iff hj hne']
  refine or_congr_right (exists_congr fun v => and_congr_right fun hv => ?_)
  exact mem_rowLabels hlinked hnamed hj (Program.branchLabel?_eq_some hv).2

/-- Only the last instruction comes to the return, unless it always branches. -/
theorem transfers_last_iff (hlinked : a.program.Linked) (hnamed : a.program.Named)
    (h : a.Unbroken palette) (globl : Bool) (hi : i < a.program.size) (hne : i ≠ 0) :
    Listing.Transfers (Listing.read (a.assembly palette globl)) (a.program.lineOf i)
      (a.program.size - 1) ↔
        i + 1 = a.program.size ∧ (a.program.instr i).branch ≠ .unconditional := by
  have hsize : a.program.size ≠ 1 :=
    Nat.ne_of_gt (Nat.lt_of_le_of_lt (Nat.pos_of_ne_zero hne) hi)
  have hlast : a.program.size - 1 = i ↔ i + 1 = a.program.size := by
    rw [Nat.sub_eq_iff_eq_add hlinked.size_pos, eq_comm]
  rw [transfers_iff hlinked hnamed h globl hi hne (getElem?_read_last hlinked hnamed h globl),
    if_neg hsize, hlast]
  simp [and_comm]

/-- Before any allocation no register is assigned. -/
theorem slotOf_ofProgram (p : Program) (v : VarId) : (ofProgram p).slotOf v = none := by
  rw [slotOf, Option.bind_eq_none_iff]
  intro position _
  by_cases hlt : position < p.registerCount <;> simp [ofProgram, hlt]

theorem unbroken_ofProgram (p : Program) (palette : Palette) : (ofProgram p).Unbroken palette :=
  fun v _ _ hslot => nomatch (slotOf_ofProgram p v).symm.trans hslot

/-- The text of a parsed program before any allocation goes where its control-flow graph goes,
whatever the names of the palette. -/
theorem text_of_program_goes_with_flow {source : String} {p : Program} {f : Flow}
    (hparse : Program.parse source = .ok p) (hflow : p.flow = .ok f) (palette : Palette)
    (globl : Bool) {i : InstId} (hi : i < p.size) (hentry : (p.instr i).isEntry = false) :
    let rows := Listing.read ((ofProgram p).assembly palette globl)
    (∀ j < p.size, (p.instr j).isEntry = false →
      (Listing.Transfers rows (p.lineOf i) (p.lineOf j) ↔ j ∈ (f.node i).succs)) ∧
    (Listing.Transfers rows (p.lineOf i) (p.lineOf p.size) ↔
      i + 1 = p.size ∧ (p.instr i).branch ≠ .unconditional) := by
  have hlinked := Program.linked_of_parse hparse
  have hnamed := Program.named_of_parse hparse
  have hunbroken := unbroken_ofProgram p palette
  have hne := hlinked.ne_zero_of_isEntry hentry
  refine ⟨fun j hj hentry' => ?_, ?_⟩
  · exact @transfers_iff_mem_succs (ofProgram p) palette i hlinked hnamed hunbroken globl f hflow j
      hi hne hj (hlinked.ne_zero_of_isEntry hentry')
  · rw [hlinked.lineOf_size]
    exact @transfers_last_iff (ofProgram p) palette i hlinked hnamed hunbroken globl hi hne

/-- The text of a parsed program has a line for each instruction but the marker, and the return
after them. Control goes from line to line as it does in the control-flow graph. -/
theorem text_agrees_with_flow {source : String} {f : Flow}
    (hparse : Program.parse source = .ok a.program) (hflow : a.program.flow = .ok f)
    (h : a.Unbroken palette) (globl : Bool) :
    let p := a.program
    let rows := Listing.read (a.assembly palette globl)
    rows.length = p.lineOf p.size + 1 ∧
    (∀ i < p.size, (p.instr i).isEntry = false →
      rows[p.lineOf i]?.map Listing.Row.body = some (a.body palette i)) ∧
    rows[p.lineOf p.size]?.map Listing.Row.body = some "jr $ra" ∧
    (∀ i < p.size, ∀ j < p.size, (p.instr i).isEntry = false → (p.instr j).isEntry = false →
      (Listing.Transfers rows (p.lineOf i) (p.lineOf j) ↔ j ∈ (f.node i).succs)) ∧
    ∀ i < p.size, (p.instr i).isEntry = false →
      (Listing.Transfers rows (p.lineOf i) (p.lineOf p.size) ↔
        i + 1 = p.size ∧ (p.instr i).branch ≠ .unconditional) := by
  have hlinked := Program.linked_of_parse hparse
  have hnamed := Program.named_of_parse hparse
  have hne : ∀ {i}, (a.program.instr i).isEntry = false → i ≠ 0 := hlinked.ne_zero_of_isEntry
  dsimp only
  rw [hlinked.lineOf_size]
  refine ⟨?_, ?_, ?_, ?_, ?_⟩
  · rw [length_read hlinked hnamed h, Nat.sub_add_cancel hlinked.size_pos]
  · intro i hi hentry
    rw [getElem?_read hlinked hnamed h globl hi (hne hentry)]
    rfl
  · rw [getElem?_read_last hlinked hnamed h globl]
    rfl
  · intro i hi j hj hentry hentry'
    exact transfers_iff_mem_succs hlinked hnamed h globl hflow hi (hne hentry) hj (hne hentry')
  · intro i hi hentry
    exact transfers_last_iff hlinked hnamed h globl hi (hne hentry)

/-- A branch to the function goes to the line after it, and the last branch falls into the return. -/
theorem text_of_branches_agrees :
    ∃ p f, Program.parse "_reg r1; _func main; b end; nop; end: bltz r1, main;" = .ok p ∧
      p.flow = .ok f ∧
      let rows := Listing.read ((Annotated.ofProgram p).assembly .standard true)
      Listing.Transfers rows (p.lineOf 3) (p.lineOf 1) ∧
        ¬ Listing.Transfers rows (p.lineOf 1) (p.lineOf 2) ∧
        Listing.Transfers rows (p.lineOf 3) (p.lineOf p.size) := by
  obtain ⟨p, hparse, hflow⟩ : ∃ p, Program.parse
      "_reg r1; _func main; b end; nop; end: bltz r1, main;" = .ok p ∧
      (match p.flow with
        | .ok f => decide (p.size = 4 ∧ (∀ i : Nat, i < 4 → (p.instr i).isEntry = decide (i = 0)) ∧
            1 ∈ (f.node 3).succs ∧ 2 ∉ (f.node 1).succs ∧ (p.instr 3).branch ≠ .unconditional)
        | .error _ => false) = true :=
    exists_ok_of_decide (by decide +kernel)
  split at hflow
  case h_2 => cases hflow
  rename_i f hf
  obtain ⟨hsize, hentry, hback, hskip, hbranch⟩ := of_decide_eq_true hflow
  obtain ⟨_, _, _, hedges, hreturn⟩ := @text_agrees_with_flow (Annotated.ofProgram p) .standard _ f
    hparse hf (unbroken_ofProgram p _) true
  have hlt : ∀ k < 4, k < (Annotated.ofProgram p).program.size := fun k hk => hsize ▸ hk
  refine ⟨p, f, hparse, hf, ?_, ?_, ?_⟩
  · exact (hedges 3 (hlt 3 (by decide)) 1 (hlt 1 (by decide)) (hentry 3 (by decide))
      (hentry 1 (by decide))).mpr hback
  · exact fun htransfers => hskip ((hedges 1 (hlt 1 (by decide)) 2 (hlt 2 (by decide))
      (hentry 1 (by decide)) (hentry 2 (by decide))).mp htransfers)
  · exact (hreturn 3 (hlt 3 (by decide)) (hentry 3 (by decide))).mpr ⟨hsize.symm, hbranch⟩

end Annotated

end RegAlloc
