import RegAlloc.Proofs.Flow.Nodes
import RegAlloc.Proofs.Program.Acceptance

/-!
# Linked programs

What control flow rests on: the entry marker comes first and there is no other, and each branch
names a label that exactly one instruction carries. A program that stands for well-formed
statements is linked, and a linked program has a control-flow graph.
-/

namespace RegAlloc

namespace Program

theorem getElem?_instr {p : Program} {i : InstId} (h : i < p.size) :
    p.instrs[i]? = some (p.instr i) := by
  have hi : i < p.instrs.size := h
  simp [instr, hi]

theorem getElem?_toList_instr {p : Program} {i : InstId} (h : i < p.size) :
    p.instrs.toList[i]? = some (p.instr i) := by
  rw [Array.getElem?_toList, getElem?_instr h]

theorem instr_mem {p : Program} {i : InstId} (h : i < p.size) : p.instr i ∈ p.instrs :=
  Array.mem_of_getElem? (getElem?_instr h)

theorem exists_instr_of_mem {p : Program} {x : Instruction} (h : x ∈ p.instrs) :
    ∃ i < p.size, p.instr i = x := by
  obtain ⟨i, hi, rfl⟩ := Array.mem_iff_getElem.mp h
  refine ⟨i, hi, ?_⟩
  simp [instr, hi]

structure Linked (p : Program) : Prop where
  fits : ∀ x ∈ p.instrs, Builder.Fits p x
  one_entry : p.instrs.countP Instruction.isEntry = 1
  size_pos : 0 < p.size
  entry_first : (p.instr 0).isEntry = true
  label_inj : ∀ {j k v}, j < p.size → k < p.size → (p.instr j).label = some v →
    (p.instr k).label = some v → j = k
  branchLabel : ∀ {i}, i < p.size → (p.instr i).branch ≠ .straight → ∃ v, p.branchLabel? i = some v
  labeled : ∀ {i v}, i < p.size → v ∈ (p.instr i).operands → (p.var v).kind = .label →
    ∃ j < p.size, (p.instr j).label = some v

namespace Renders

variable {p : Program} {ss : List Statement}

theorem fits (h : p.Renders ss) {x : Instruction} (hx : x ∈ p.instrs) : Builder.Fits p x :=
  ⟨h.kinds x hx, h.labels x hx, h.entry x hx⟩

theorem statementOf_mem (h : p.Renders ss) {x : Instruction} (hx : x ∈ p.instrs) :
    p.statementOf x ∈ ss := by
  have hmem : p.statementOf x ∈ ss.filter Statement.isCode := by
    rw [← h.code]
    exact List.mem_map_of_mem (Array.mem_toList_iff.mpr hx)
  exact List.mem_of_mem_filter hmem

/-- The first statement that is code opens the function. -/
theorem entry_first (h : p.Renders ss) (hwf : WellFormed ss) :
    0 < p.size ∧ (p.instr 0).isEntry = true := by
  obtain ⟨before, name, after, rfl, hbefore, _⟩ := hwf.one_function
  have hcode := h.code
  rw [List.filter_append, List.filter_eq_nil_iff.mpr (by simpa using hbefore), List.nil_append,
    List.filter_cons_of_pos rfl] at hcode
  obtain ⟨x, xs, hinstrs, hstatement, _⟩ := List.map_eq_cons_iff.mp hcode
  have hsize : 0 < p.size := by
    rw [size, ← Array.length_toList, hinstrs]
    exact Nat.succ_pos _
  have hfirst : p.instr 0 = x := by
    have hget := getElem?_toList_instr hsize
    rw [hinstrs] at hget
    exact (Option.some.inj hget).symm
  refine ⟨hsize, ?_⟩
  have hmem := instr_mem hsize
  rw [hfirst] at hmem ⊢
  unfold statementOf at hstatement
  cases hop : x.opcode with
  | none => simp [Instruction.isEntry, hop, (h.entry x hmem hop).1]
  | some op => simp [hop] at hstatement

/-- No label is defined twice, so no two instructions carry the same one. -/
theorem pairwise_label (h : p.Renders ss) (hwf : WellFormed ss) :
    p.instrs.toList.Pairwise fun x y => ∀ v, x.label = some v → y.label ≠ some v := by
  have hnodup : ((p.instrs.toList.map p.statementOf).filterMap Statement.definedLabel?).Nodup := by
    rw [h.code]
    exact hwf.labels_nodup.sublist (List.filter_sublist.filterMap _)
  rw [List.filterMap_map, List.Nodup, List.pairwise_filterMap] at hnodup
  refine hnodup.imp_of_mem fun {x y} hx hy hne v hxv hyv => ?_
  have hname : ∀ {z}, z ∈ p.instrs.toList → z.label = some v →
      (Statement.definedLabel? ∘ p.statementOf) z = some (p.var v).name := by
    intro z hz hzv
    rw [Function.comp, Builder.definedLabel?_statementOf (h.fits (Array.mem_toList_iff.mp hz)), hzv]
    rfl
  exact hne _ (hname hx hxv) _ (hname hy hyv) rfl

theorem label_inj (h : p.Renders ss) (hwf : WellFormed ss) {j k : InstId} {v : VarId}
    (hj : j < p.size) (hk : k < p.size) (hjv : (p.instr j).label = some v)
    (hkv : (p.instr k).label = some v) : j = k := by
  have hlt : ∀ {m n}, m < p.size → n < p.size → (p.instr m).label = some v →
      (p.instr n).label = some v → ¬ m < n := by
    intro m n hm hn hmv hnv hmn
    obtain ⟨hm', hmget⟩ := List.getElem?_eq_some_iff.mp (getElem?_toList_instr hm)
    obtain ⟨hn', hnget⟩ := List.getElem?_eq_some_iff.mp (getElem?_toList_instr hn)
    have hpair := List.pairwise_iff_getElem.mp (h.pairwise_label hwf) m n hm' hn' hmn v
    rw [hmget, hnget] at hpair
    exact hpair hmv hnv
  exact Nat.le_antisymm (Nat.le_of_not_lt (hlt hk hj hkv hjv)) (Nat.le_of_not_lt (hlt hj hk hjv hkv))

/-- A label that an operand names stands before some instruction. -/
theorem exists_labeled (h : p.Renders ss) (hwf : WellFormed ss) {i : InstId} (hi : i < p.size)
    {v : VarId} (hv : v ∈ (p.instr i).operands) (hkind : (p.var v).kind = .label) :
    ∃ j < p.size, (p.instr j).label = some v := by
  have hmem := instr_mem hi
  have hargument : .label (p.var v).name ∈ (p.statementOf (p.instr i)).arguments := by
    unfold statementOf
    cases hop : (p.instr i).opcode with
    | none =>
        rw [(h.entry _ hmem hop).2] at hv
        cases hv
    | some op => exact List.mem_map.mpr ⟨v, hv, by simp [argumentOf, hkind]⟩
  have hdefined := hwf.labels_defined _ (h.statementOf_mem hmem) _ hargument
  obtain ⟨s, hs, hlabel⟩ := List.mem_filterMap.mp hdefined
  have hcode : s ∈ ss.filter Statement.isCode :=
    List.mem_filter.mpr ⟨hs, Builder.isCode_of_definedLabel? hlabel⟩
  rw [← h.code] at hcode
  obtain ⟨x, hx, rfl⟩ := List.mem_map.mp hcode
  have hx := Array.mem_toList_iff.mp hx
  rw [Builder.definedLabel?_statementOf (h.fits hx)] at hlabel
  obtain ⟨w, hw, hname⟩ := Option.map_eq_some_iff.mp hlabel
  obtain rfl := h.labels_inj w v (h.labels x hx w hw) hkind hname
  obtain ⟨j, hj, rfl⟩ := exists_instr_of_mem hx
  exact ⟨j, hj, hw⟩

end Renders

/-- Branches take a label. -/
theorem label_mem_shape {op : Opcode} (h : op.shape.branch ≠ .straight) :
    .label ∈ op.shape.src := by
  cases op <;> first | exact absurd rfl h | decide

theorem exists_branchLabel? {p : Program} {i : InstId} (hfits : Builder.Fits p (p.instr i))
    (hbranch : (p.instr i).branch ≠ .straight) : ∃ v, p.branchLabel? i = some v := by
  have hop : ∃ op, (p.instr i).opcode = some op ∧ op.shape.branch ≠ .straight := by
    unfold Instruction.branch at hbranch
    cases hop : (p.instr i).opcode with
    | none => simp [hop] at hbranch
    | some op => exact ⟨op, rfl, by simpa [hop] using hbranch⟩
  obtain ⟨op, hop, hshape⟩ := hop
  have hlabel := label_mem_shape hshape
  rw [← (hfits.operands op hop).2] at hlabel
  obtain ⟨v, hv, hkind⟩ := List.mem_map.mp hlabel
  rw [branchLabel?, if_neg hbranch, ← Option.isSome_iff_exists, List.find?_isSome]
  exact ⟨v, List.mem_reverse.mpr hv, by simp [hkind]⟩

theorem branchLabel?_eq_some {p : Program} {i : InstId} {v : VarId} (h : p.branchLabel? i = some v) :
    v ∈ (p.instr i).src ∧ (p.var v).kind = .label := by
  unfold branchLabel? at h
  split at h
  · cases h
  · exact ⟨List.mem_reverse.mp (List.mem_of_find?_eq_some h), by simpa using List.find?_some h⟩

theorem Renders.linked {p : Program} {ss : List Statement} (h : p.Renders ss)
    (hwf : WellFormed ss) : p.Linked where
  fits _ := h.fits
  one_entry := h.countP_isEntry.trans hwf.countP_isFunction
  size_pos := (h.entry_first hwf).1
  entry_first := (h.entry_first hwf).2
  label_inj := h.label_inj hwf
  branchLabel hi := exists_branchLabel? (h.fits (instr_mem hi))
  labeled hi := h.exists_labeled hwf hi

theorem linked_of_parse {text : String} {p : Program} (h : Program.parse text = .ok p) :
    p.Linked := by
  obtain ⟨ts, htokens, hread⟩ := Parser.bind_eq_ok.mp h
  have hclosed := closed_of_tokenize (Parser.mapError_eq_ok.mp htokens)
  obtain ⟨ss, _, hwf, hrenders⟩ := Parser.renders_of_program hclosed hread
  exact hrenders.linked hwf

/-! ## Control flow -/

theorem mapM_eq_ok_iff {ε α β : Type} {f : α → Except ε β} {xs : List α} {ys : List β} :
    xs.mapM f = .ok ys ↔ List.Forall₂ (fun x y => f x = .ok y) xs ys := by
  induction xs generalizing ys with
  | nil => simp [pure, Except.pure, eq_comm]
  | cons x xs ih =>
      rw [List.mapM_cons, Parser.bind_eq_ok]
      constructor
      · rintro ⟨y, hy, hread⟩
        obtain ⟨ys', hys, heq⟩ := Parser.bind_eq_ok.mp hread
        cases heq
        exact .cons hy (ih.mp hys)
      · rintro (_ | ⟨hy, hys⟩)
        exact ⟨_, hy, Parser.bind_eq_ok.mpr ⟨_, ih.mpr hys, rfl⟩⟩

theorem exists_mapM_ok {ε α β : Type} {f : α → Except ε β} {xs : List α}
    (h : ∀ x ∈ xs, ∃ y, f x = .ok y) : ∃ ys, xs.mapM f = .ok ys := by
  induction xs with
  | nil => exact ⟨[], rfl⟩
  | cons x xs ih =>
      obtain ⟨y, hy⟩ := h x List.mem_cons_self
      obtain ⟨ys, hys⟩ := ih fun z hz => h z (List.mem_cons_of_mem x hz)
      exact ⟨y :: ys, mapM_eq_ok_iff.mpr (.cons hy (mapM_eq_ok_iff.mp hys))⟩

/-! ### Labels -/

theorem exists_labeled? {p : Program} {v : VarId} {j : InstId} (hj : j < p.size)
    (hlabel : (p.instr j).label = some v) : ∃ k, p.labeled? v = some k := by
  rw [labeled?, ← Option.isSome_iff_exists, Array.findIdx?_isSome, Array.any_eq_true']
  exact ⟨_, instr_mem hj, by simp [hlabel]⟩

/-- Where no two instructions share a label, the first one that carries it is the only one. -/
theorem labeled?_eq_some_iff_of_inj {p : Program}
    (hinj : ∀ {j k v}, j < p.size → k < p.size → (p.instr j).label = some v →
      (p.instr k).label = some v → j = k) {v : VarId} {j : InstId} :
    p.labeled? v = some j ↔ j < p.size ∧ (p.instr j).label = some v := by
  have hcarries : ∀ {k}, p.labeled? v = some k → k < p.size ∧ (p.instr k).label = some v := by
    intro k hk
    obtain ⟨hlt, hlabel, _⟩ := Array.findIdx?_eq_some_iff_getElem.mp hk
    refine ⟨hlt, ?_⟩
    simpa [instr, hlt] using hlabel
  refine ⟨hcarries, ?_⟩
  rintro ⟨hj, hlabel⟩
  obtain ⟨k, hk⟩ := exists_labeled? hj hlabel
  obtain ⟨hlt, hsame⟩ := hcarries hk
  rw [hk, hinj hlt hj hsame hlabel]

/-- Where no two instructions share a label, the last one that carries it is the first one. -/
theorem carrier?_eq_labeled?_of_inj {p : Program}
    (hinj : ∀ {j k v}, j < p.size → k < p.size → (p.instr j).label = some v →
      (p.instr k).label = some v → j = k) (v : VarId) : p.carrier? v = p.labeled? v := by
  cases hcarrier : p.carrier? v with
  | some j => exact ((labeled?_eq_some_iff_of_inj hinj).mpr (of_carrier? hcarrier)).symm
  | none =>
      cases hlabeled : p.labeled? v with
      | none => rfl
      | some j =>
          obtain ⟨hj, hlabel⟩ := (labeled?_eq_some_iff_of_inj hinj).mp hlabeled
          exact absurd hlabel (carrier?_eq_none_iff.mp hcarrier j hj)

namespace Linked

variable {p : Program}

theorem isEntry_iff (h : p.Linked) {i : InstId} (hi : i < p.size) :
    (p.instr i).isEntry = true ↔ i = 0 := by
  refine ⟨fun hentry => ?_, fun hzero => hzero ▸ h.entry_first⟩
  have hcount := h.one_entry
  rw [← Array.countP_toList] at hcount
  have hfirst := getElem?_toList_instr h.size_pos
  have hget := getElem?_toList_instr hi
  cases hinstrs : p.instrs.toList with
  | nil => simp [hinstrs] at hfirst
  | cons x xs =>
      rw [hinstrs] at hcount hfirst hget
      cases i with
      | zero => rfl
      | succ i =>
          -- the first instruction is the only one that counts
          obtain rfl : x = p.instr 0 := Option.some.inj hfirst
          rw [List.countP_cons_of_pos h.entry_first, Nat.add_eq_right, List.countP_eq_zero] at hcount
          exact absurd hentry (hcount _ (List.mem_of_getElem? hget))

theorem isEntry_eq_false (h : p.Linked) {i : InstId} (hi : i ≠ 0) : (p.instr i).isEntry = false := by
  by_cases hlt : i < p.size
  · exact Bool.eq_false_iff.mpr fun hentry => hi ((h.isEntry_iff hlt).mp hentry)
  · have hle : p.instrs.size ≤ i := Nat.le_of_not_lt hlt
    simp [instr, Array.getElem?_eq_none hle, default, Instruction.isEntry]

theorem ne_zero_of_isEntry (h : p.Linked) {i : InstId} (hi : (p.instr i).isEntry = false) :
    i ≠ 0 := by
  rintro rfl
  rw [h.entry_first] at hi
  cases hi

/-- The first instruction with a label is the only one. -/
theorem labeled?_eq_some_iff (h : p.Linked) {v : VarId} {j : InstId} :
    p.labeled? v = some j ↔ j < p.size ∧ (p.instr j).label = some v :=
  labeled?_eq_some_iff_of_inj h.label_inj

theorem carrier?_eq_labeled? (h : p.Linked) (v : VarId) : p.carrier? v = p.labeled? v :=
  carrier?_eq_labeled?_of_inj h.label_inj v

theorem branchTarget?_ok (h : p.Linked) {i : InstId} (hi : i < p.size) :
    ∃ target, p.branchTarget? i = .ok target := by
  unfold branchTarget?
  by_cases hbranch : (p.instr i).branch = .straight
  · exact ⟨none, by simp [branchLabel?, hbranch]⟩
  · obtain ⟨v, hv⟩ := h.branchLabel hi hbranch
    obtain ⟨hmem, hkind⟩ := branchLabel?_eq_some hv
    obtain ⟨j, hj, hlabel⟩ := h.labeled hi (List.mem_append_right _ hmem) hkind
    obtain ⟨k, hk⟩ := exists_labeled? hj hlabel
    rw [← h.carrier?_eq_labeled?] at hk
    exact ⟨p.landing? k, by simp [hv, hk]⟩

theorem exists_flow (h : p.Linked) : ∃ f, p.flow = .ok f := by
  have hentry : p.checkEntry = .ok () := by simp only [checkEntry, h.one_entry]
  obtain ⟨targets, htargets⟩ := @exists_mapM_ok _ _ _ p.branchTarget? (List.range p.size) fun i hi =>
    h.branchTarget?_ok (List.mem_range.mp hi)
  exact ⟨_, Parser.bind_eq_ok.mpr ⟨(), hentry, Parser.bind_eq_ok.mpr ⟨targets, htargets, rfl⟩⟩⟩

end Linked

end Program

end RegAlloc
