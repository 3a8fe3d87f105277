import RegAlloc.Proofs.Flow.Nodes
import RegAlloc.Proofs.Program.Representation

/-!
# Labels and the calls that gave them away

A label is marked as defined by the call that gives it to an instruction. It is carried from then
on, until a call gives the instruction another label in its place; it stays marked. So a label is
defined and carried by nothing exactly if it was displaced, and a branch to it has no target.
-/

namespace RegAlloc

namespace Builder

/-! ## Histories -/

/-- Some call was made of a builder as `P` says. -/
def Seen (P : Builder → Call → Prop) (cs : List Call) : Prop :=
  ∃ before c after, cs = before ++ c :: after ∧ P (made before) c

/-- The call gives `v` to an instruction. -/
def Takes (v : VarId) (b : Builder) (c : Call) : Prop :=
  c.label? = some v ∧ ∃ b', b.attempt c = .ok b'

/-- The call gives another label to the instruction that carries `v`. -/
def Displaces (v : VarId) (b : Builder) (c : Call) : Prop :=
  (∃ b', b.attempt c = .ok b') ∧
    ∃ inst label, c = .attach inst label ∧ (b.program.instr inst).label = some v

/-- Some call gave `v` to an instruction. -/
def Taken (cs : List Call) (v : VarId) : Prop := Seen (Takes v) cs

/-- Some call put another label in the place of `v`. -/
def Displaced (cs : List Call) (v : VarId) : Prop := Seen (Displaces v) cs

theorem not_seen_nil {P : Builder → Call → Prop} : ¬ Seen P [] := by
  rintro ⟨before, c, after, heq, _⟩
  simp at heq

theorem seen_concat {P : Builder → Call → Prop} {cs : List Call} {c : Call} :
    Seen P (cs ++ [c]) ↔ Seen P cs ∨ P (made cs) c := by
  constructor
  · rintro ⟨before, d, after, heq, hd⟩
    rcases List.eq_nil_or_concat after with rfl | ⟨after, e, rfl⟩
    · obtain ⟨rfl, hcd⟩ := List.append_inj' heq rfl
      cases hcd
      exact Or.inr hd
    · have hlast : cs ++ [c] = (before ++ d :: after) ++ [e] := by simpa using heq
      exact Or.inl ⟨before, d, after, (List.append_inj' hlast rfl).1, hd⟩
  · rintro (⟨before, d, after, rfl, hd⟩ | hc)
    · exact ⟨before, d, after ++ [c], by simp, hd⟩
    · exact ⟨cs, c, [], rfl, hc⟩

theorem displaces_iff {b b' : Builder} {c : Call} (hc : b.attempt c = .ok b') {v : VarId} :
    b.Displaces v c ↔ ∃ i, b.target? c = some i ∧ (b.program.instr i).label = some v := by
  have hok : ∃ b', b.attempt c = .ok b' := ⟨b', hc⟩
  cases c with
  | attach inst label => simp [Displaces, target?, hok]
  | entry label => simp [Displaces, target?, instr_of_size_le, default]
  | _ => simp [Displaces, target?]

/-! ## Labels after all calls -/

/-- The marks of the labels and the labels of the instructions tell what calls were made. -/
structure Tracks (b : Builder) (cs : List Call) : Prop where
  defined_iff : ∀ v, (b.program.var v).isDefinedLabel = true ↔ Taken cs v
  carried_iff : ∀ v, (∃ i, (b.program.instr i).label = some v) ↔ Taken cs v ∧ ¬ Displaced cs v
  taken_of_displaced : ∀ v, Displaced cs v → Taken cs v

theorem tracks_new : Tracks {} [] where
  defined_iff v := iff_of_false (by simp [Program.var, default, Variable.isDefinedLabel])
    not_seen_nil
  carried_iff v := iff_of_false (by simp [Program.instr, default]) fun h => not_seen_nil h.1
  taken_of_displaced v h := absurd h not_seen_nil

theorem Tracks.refused {cs : List Call} {c : Call} {e : BuildError} (h : (made cs).Tracks cs)
    (hc : (made cs).attempt c = .error e) : (made (cs ++ [c])).Tracks (cs ++ [c]) := by
  have htaken : ∀ v, Taken (cs ++ [c]) v ↔ Taken cs v := fun v => by
    simp [Taken, seen_concat, Takes, hc]
  have hdisplaced : ∀ v, Displaced (cs ++ [c]) v ↔ Displaced cs v := fun v => by
    simp [Displaced, seen_concat, Displaces, hc]
  rw [made_concat, perform_of_error hc]
  constructor
  · simpa only [htaken] using h.defined_iff
  · simpa only [htaken, hdisplaced] using h.carried_iff
  · simpa only [htaken, hdisplaced] using h.taken_of_displaced

/-- A label that a call takes was never taken, so it was never displaced and nothing carries it. -/
theorem Tracks.not_taken {b b' : Builder} {cs : List Call} {c : Call} (h : b.Tracks cs)
    (hstep : Step b c b') {v : VarId} (hv : c.label? = some v) : ¬ Taken cs v := by
  rw [← h.defined_iff, (checkFree_eq_ok_iff.mp (hstep.checkFree hv)).2]
  decide

theorem Tracks.step {cs : List Call} {c : Call} {b' : Builder} (h : (made cs).Tracks cs)
    (hcarried : (made cs).Carried) (hc : (made cs).attempt c = .ok b')
    (hstep : Step (made cs) c b') : b'.Tracks (cs ++ [c]) := by
  have htaken : ∀ v, Taken (cs ++ [c]) v ↔ Taken cs v ∨ c.label? = some v := fun v => by
    simp [Taken, seen_concat, Takes, hc]
  have hdisplaced : ∀ v, Displaced (cs ++ [c]) v ↔ Displaced cs v ∨
      ∃ i, (made cs).target? c = some i ∧ ((made cs).program.instr i).label = some v := fun v => by
    rw [Displaced, seen_concat, displaces_iff hc, Displaced]
  have hold : ∀ {v i}, ((made cs).program.instr i).label = some v → Taken cs v := fun hi =>
    ((h.carried_iff _).mp ⟨_, hi⟩).1
  refine ⟨fun v => ?_, fun v => ?_, fun v hv => ?_⟩
  · rw [hstep.isDefinedLabel_var, Bool.or_eq_true, h.defined_iff, decide_eq_true_eq, htaken]
  · simp only [hstep.label_instr, htaken, hdisplaced]
    cases htarget : (made cs).target? c with
    | none =>
        have hlabel := target?_eq_none_iff.mp htarget
        simpa [hlabel] using h.carried_iff v
    | some t =>
        by_cases hv : c.label? = some v
        · have hnew := h.not_taken hstep hv
          have hkept : ¬ Displaced cs v := fun hdisplaced => hnew (h.taken_of_displaced v hdisplaced)
          have hfree : ((made cs).program.instr t).label ≠ some v := fun ht => hnew (hold ht)
          refine iff_of_true ⟨t, by simp [hv]⟩ ⟨Or.inr hv, ?_⟩
          simp [hkept, hfree]
        · -- `v` stays where it was, unless that is where the label of the call goes
          have hmoved : (∃ i, (if some t = some i then c.label?
                else ((made cs).program.instr i).label) = some v) ↔
              (∃ i, ((made cs).program.instr i).label = some v) ∧
                ((made cs).program.instr t).label ≠ some v := by
            constructor
            · rintro ⟨i, hi⟩
              split at hi
              · exact absurd hi hv
              · rename_i hne
                exact ⟨⟨i, hi⟩, fun ht => hne (congrArg some (hcarried.inj ht hi))⟩
            · rintro ⟨⟨i, hi⟩, hne⟩
              refine ⟨i, ?_⟩
              rw [if_neg]
              · exact hi
              · rintro ⟨⟩
                exact hne hi
          rw [hmoved, h.carried_iff]
          simp [hv, and_assoc]
  · rw [htaken]
    rcases (hdisplaced v).mp hv with hv | ⟨i, _, hi⟩
    · exact Or.inl (h.taken_of_displaced v hv)
    · exact Or.inl (hold hi)

theorem tracks_made {cs : List Call} (h : Legal cs) : (made cs).Tracks cs := by
  induction cs using List.reverseRecOn with
  | nil => exact tracks_new
  | append_singleton cs c ih =>
      obtain ⟨hlegal, hknown⟩ := legal_concat.mp h
      cases hc : (made cs).attempt c with
      | error e => exact (ih hlegal).refused hc
      | ok b' =>
          rw [made_concat, perform_of_ok hc]
          exact (ih hlegal).step (carried_made hlegal) hc
            (step_of_attempt (reachable_made hlegal) hknown hc)

end Builder

/-! ## Branches without a target -/

theorem exists_mem_of_mapM_error {ε α β : Type} {f : α → Except ε β} {xs : List α} {e : ε}
    (h : xs.mapM f = .error e) : ∃ x ∈ xs, f x = .error e := by
  induction xs with
  | nil => cases h
  | cons x xs ih =>
      rw [List.mapM_cons] at h
      cases hx : f x with
      | error e' =>
          rw [hx] at h
          cases h
          exact ⟨x, List.mem_cons_self, hx⟩
      | ok y =>
          cases hxs : xs.mapM f with
          | error e' =>
              rw [hx, hxs] at h
              cases h
              obtain ⟨z, hz, hfz⟩ := ih hxs
              exact ⟨z, List.mem_cons_of_mem x hz, hfz⟩
          | ok ys =>
              rw [hx, hxs] at h
              cases h

namespace Program

theorem label_ne_of_carrier?_eq_none {p : Program} {v : VarId} (h : p.carrier? v = none)
    (i : InstId) : (p.instr i).label ≠ some v := by
  intro hi
  by_cases hlt : i < p.size
  · exact carrier?_eq_none_iff.mp h i hlt hi
  · have hlt : ¬ i < p.instrs.size := hlt
    simp [instr, hlt, default] at hi

/-- A program without control flow for want of a label has a branch to a label that no instruction
carries. -/
theorem exists_branch_of_labelNotFound {p : Program} {name : String}
    (h : p.flow = .error (.labelNotFound name)) :
    ∃ i < p.size, ∃ v, p.branchLabel? i = some v ∧ (p.var v).name = name ∧
      ∀ j, (p.instr j).label ≠ some v := by
  unfold flow at h
  cases hentry : p.checkEntry with
  | error e =>
      rw [hentry] at h
      cases h
      unfold checkEntry at hentry
      split at hentry <;> cases hentry
  | ok _ =>
      cases htargets : p.branchTargets with
      | ok targets =>
          rw [hentry, htargets] at h
          cases h
      | error e =>
          rw [hentry, htargets] at h
          cases h
          obtain ⟨i, hi, htarget⟩ := exists_mem_of_mapM_error htargets
          refine ⟨i, List.mem_range.mp hi, ?_⟩
          unfold branchTarget? at htarget
          split at htarget
          · cases htarget
          · rename_i v hv
            split at htarget
            · rename_i hcarrier
              cases htarget
              exact ⟨v, hv, rfl, label_ne_of_carrier?_eq_none hcarrier⟩
            · cases htarget

end Program

namespace Builder

/-- A label is marked as defined just if some call gave it to an instruction, and one instruction
carries it just if it is marked and was not displaced. So only a branch to a label that was never
given to an instruction, or was displaced, has no target. -/
theorem labels_follow_calls {cs : List Call} (h : Legal cs) :
    (∀ v, ((made cs).program.var v).kind = .label →
      (((made cs).program.var v).isDefinedLabel = true ↔ Taken cs v) ∧
        ((∃! i, i < (made cs).program.size ∧ ((made cs).program.instr i).label = some v) ↔
          ((made cs).program.var v).isDefinedLabel = true ∧ ¬ Displaced cs v)) ∧
    ∀ name, (made cs).program.flow = .error (.labelNotFound name) →
      ∃ i < (made cs).program.size, ∃ v, (made cs).program.branchLabel? i = some v ∧
        ((made cs).program.var v).name = name ∧ (¬ Taken cs v ∨ Displaced cs v) := by
  have htracks := tracks_made h
  refine ⟨fun v _ => ⟨htracks.defined_iff v, ?_⟩, fun name hflow => ?_⟩
  · rw [htracks.defined_iff, ← htracks.carried_iff]
    constructor
    · rintro ⟨i, hi, _⟩
      exact ⟨i, hi.2⟩
    · rintro ⟨i, hi⟩
      have hlt : i < (made cs).program.size := by
        refine Nat.lt_of_not_le fun hle => ?_
        rw [instr_of_size_le hle] at hi
        cases hi
      exact ⟨i, ⟨hlt, hi⟩, fun j hj => (carried_made h).inj hj.2 hi⟩
  · obtain ⟨i, hi, v, hv, hname, hcarried⟩ := Program.exists_branch_of_labelNotFound hflow
    refine ⟨i, hi, v, hv, hname, ?_⟩
    have hnone := mt (htracks.carried_iff v).mpr fun ⟨j, hj⟩ => hcarried j hj
    exact (not_and_or.mp hnone).imp_right not_not.mp

/-- An instruction gets a label and then another one in its place, and a branch goes to the first. -/
def displacingCalls : List Call :=
  [.label "main", .label "first", .label "second", .entry 0, .instruction .nop [] [], .attach 1 1,
    .attach 1 2, .instruction .b [] [1]]

theorem size_displacingCalls : (made displacingCalls).program.size = 3 := by decide +kernel

theorem label_ne_displacingCalls {i : InstId} (hi : i < (made displacingCalls).program.size) :
    ((made displacingCalls).program.instr i).label ≠ some 1 := by
  have hnone : ∀ i < 3, ((made displacingCalls).program.instr i).label ≠ some 1 := by
    decide +kernel
  exact hnone i (size_displacingCalls ▸ hi)

/-- The label that was given first is marked and displaced, and the branch to it has no target. -/
theorem displacingCalls_displace :
    Legal displacingCalls ∧ Taken displacingCalls 1 ∧ Displaced displacingCalls 1 ∧
      ∃ v, ((made displacingCalls).program.var v).name = "first" ∧
        (¬ Taken displacingCalls v ∨ Displaced displacingCalls v) := by
  have hlegal : Legal displacingCalls := by decide +kernel
  have hdefined : ((made displacingCalls).program.var 1).isDefinedLabel = true := by decide +kernel
  obtain ⟨hlabels, hbranches⟩ := labels_follow_calls hlegal
  obtain ⟨htaken, hcarried⟩ := hlabels 1 (by decide +kernel)
  refine ⟨hlegal, htaken.mp hdefined, ?_, ?_⟩
  · by_contra hkept
    obtain ⟨i, ⟨hi, hlabel⟩, _⟩ := hcarried.mpr ⟨hdefined, hkept⟩
    exact label_ne_displacingCalls hi hlabel
  · obtain ⟨_, _, v, _, hname, hv⟩ := hbranches "first" (by decide +kernel)
    exact ⟨v, hname, hv⟩

/-- A label can be marked as defined while no instruction carries it, and then a branch to it has no
target although a call gave the label to an instruction. -/
theorem defined_label_without_carrier :
    (¬ ∀ cs, Legal cs → ∀ v, ((made cs).program.var v).kind = .label →
      (((made cs).program.var v).isDefinedLabel = true ↔
        ∃! i, i < (made cs).program.size ∧ ((made cs).program.instr i).label = some v)) ∧
    ¬ ∀ cs, Legal cs → (made cs).program.instrs.countP Instruction.isEntry = 1 → ∀ name,
      (made cs).program.flow = .error (.labelNotFound name) →
        ∃ i < (made cs).program.size, ∃ v, (made cs).program.branchLabel? i = some v ∧
          ¬ Taken cs v := by
  have hlegal : Legal displacingCalls := by decide +kernel
  constructor
  · intro h
    obtain ⟨i, ⟨hi, hlabel⟩, _⟩ := (h _ hlegal 1 (by decide +kernel)).mp (by decide +kernel)
    exact label_ne_displacingCalls hi hlabel
  · intro h
    obtain ⟨i, hi, v, hv, hnew⟩ := h _ hlegal (by decide +kernel) "first" (by decide +kernel)
    have hbranch : ∀ i < 3, (made displacingCalls).program.branchLabel? i = none ∨
        (made displacingCalls).program.branchLabel? i = some 1 := by
      decide +kernel
    rcases hbranch i (size_displacingCalls ▸ hi) with hnone | hone
    · rw [hnone] at hv
      cases hv
    · rw [hone] at hv
      cases hv
      exact hnew ⟨displacingCalls.take 5, .attach 1 1, displacingCalls.drop 6, rfl, rfl,
        made (displacingCalls.take 6), by decide +kernel⟩

end Builder

end RegAlloc
