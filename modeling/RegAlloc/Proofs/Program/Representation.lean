import RegAlloc.Proofs.Program.Calls

/-!
# The representation of programs under construction

Whatever calls a builder has seen, its lists, positions, constants and labels agree with each other:
`Builder.Consistent`. Each part is an invariant that a single step keeps. A call that is refused
leaves the builder as it was, and `Call.Admissible` says which calls are not refused.
-/

namespace RegAlloc

namespace Builder

/-! ## Lists -/

/-- Each list holds the variables of its kind in ascending order. -/
def Listed (b : Builder) : Prop := ∀ kind, kind ≠ .untyped →
  b.program.ofKind kind =
    (List.range b.program.vars.size).filter fun v => (b.program.var v).kind == kind

theorem Listed.keep {b b' : Builder} (h : b.Listed)
    (hsize : b'.program.vars.size = b.program.vars.size)
    (hkind : ∀ v, (b'.program.var v).kind = (b.program.var v).kind)
    (hlists : ∀ kind, b'.program.ofKind kind = b.program.ofKind kind) : b'.Listed := by
  intro kind hne
  simp only [hlists, hsize, hkind]
  exact h kind hne

theorem Declares.listed {b b' : Builder} {new : Variable} (hdeclares : b.Declares new b')
    (h : b.Listed) : b'.Listed := by
  intro kind hne
  have hold : (List.range b.program.vars.size).filter (fun v => (b'.program.var v).kind == kind) =
      (List.range b.program.vars.size).filter fun v => (b.program.var v).kind == kind := by
    refine List.filter_congr fun v hv => ?_
    rw [var_eq_of_push hdeclares.vars, if_neg (Nat.ne_of_lt (List.mem_range.mp hv))]
  have hlast : b'.program.var b.program.vars.size = new := by
    rw [var_eq_of_push hdeclares.vars, if_pos rfl]
  rw [hdeclares.lists, hdeclares.vars, Array.size_push, List.range_succ, List.filter_append, hold,
    h kind hne]
  by_cases heq : kind = new.kind
  · simp [hlast, heq ▸ hne, heq]
  · simp [hlast, heq, Ne.symm heq]

theorem Listed.step {b b' : Builder} {c : Call} (h : b.Listed) (hstep : Step b c b') :
    b'.Listed := by
  cases hstep with
  | declare _ hdeclares => exact hdeclares.listed h
  | found _ => exact h
  | entry _ =>
      exact h.keep (by simp [append, define]) (b.kind_define _)
        fun kind => by cases kind <;> rfl
  | instruction _ => exact h.keep rfl (fun _ => rfl) fun kind => by cases kind <;> rfl
  | attach _ _ =>
      exact h.keep (by simp [relabel, define]) (b.kind_define _)
        fun kind => by cases kind <;> rfl

theorem Listed.nodup {b : Builder} (h : b.Listed) {kind : VarKind} (hkind : kind ≠ .untyped) :
    (b.program.ofKind kind).Nodup := by
  rw [h kind hkind]
  exact List.nodup_range.filter _

/-- A register stands in the list at its position. -/
theorem Listed.position_eq {b : Builder} (h : b.Listed) (hreachable : b.Reachable) {x : Nat}
    {v : VarId} (hx : b.program.registers[x]? = some v) :
    (b.program.var v).kind = .register ∧ (b.program.var v).position = some x := by
  have hkind : (b.program.var v).kind = .register :=
    @Kinded.kind_of_mem b hreachable.kinded .register v (List.mem_of_getElem? hx)
  obtain ⟨y, hposition, hy⟩ := hreachable.numbered.numbered v (by simp [Variable.isRegister, hkind])
  obtain ⟨hlt, _⟩ := List.getElem?_eq_some_iff.mp hx
  have hnodup : b.program.registers.Nodup := @Listed.nodup b h .register (by decide)
  obtain rfl : x = y := (List.getElem?_inj hlt hnodup).mp (hx.trans hy.symm)
  exact ⟨hkind, hposition⟩

/-! ## Constants -/

/-- No two constants have the same value. -/
def Interned (b : Builder) : Prop := ∀ v w, (b.program.var v).kind = .constant →
  (b.program.var w).kind = .constant → (b.program.var v).value = (b.program.var w).value → v = w

theorem Interned.keep {b b' : Builder} (h : b.Interned) (hext : b.Extends b')
    (hsize : b'.program.vars.size = b.program.vars.size) : b'.Interned := by
  have hold : ∀ {v}, (b'.program.var v).kind = .constant → (b.program.var v).kind = .constant ∧
      (b'.program.var v).value = (b.program.var v).value := by
    intro v hv
    have hlt : v < b.program.vars.size := hsize ▸ Program.lt_size_of_kind (by simp [hv])
    have hkind : (b.program.var v).kind = .constant := by rw [← hext.kind_eq hlt, hv]
    exact ⟨hkind, hext.value_eq hlt (by simp [hkind])⟩
  intro v w hv hw heq
  obtain ⟨hv, hvalue⟩ := hold hv
  obtain ⟨hw, hvalue'⟩ := hold hw
  exact h v w hv hw (by rw [← hvalue, ← hvalue', heq])

theorem Declares.interned {b b' : Builder} {new : Variable} (hdeclares : b.Declares new b')
    (hkinded : b.Kinded) (h : b.Interned) : b'.Interned := by
  have hfresh : ∀ v, new.kind = .constant → (b.program.var v).kind = .constant →
      (b.program.var v).value ≠ new.value := fun v hnew hv =>
    hdeclares.fresh hnew v ((@Kinded.mem_ofKind b hkinded .constant v (by decide)).mpr hv)
  intro v w hv hw heq
  rw [var_eq_of_push hdeclares.vars] at hv hw heq
  rw [var_eq_of_push hdeclares.vars] at heq
  by_cases hvlast : v = b.program.vars.size
  · by_cases hwlast : w = b.program.vars.size
    · rw [hvlast, hwlast]
    · rw [if_pos hvlast] at hv heq
      rw [if_neg hwlast] at hw heq
      exact absurd heq.symm (hfresh w hv hw)
  · rw [if_neg hvlast] at hv heq
    by_cases hwlast : w = b.program.vars.size
    · rw [if_pos hwlast] at hw heq
      exact absurd heq (hfresh v hw hv)
    · rw [if_neg hwlast] at hw heq
      exact h v w hv hw heq

theorem Interned.step {b b' : Builder} {c : Call} (h : b.Interned) (hkinded : b.Kinded)
    (hstep : Step b c b') : b'.Interned := by
  have hext := hstep.extends
  cases hstep with
  | declare _ hdeclares => exact hdeclares.interned hkinded h
  | found _ => exact h
  | entry _ => exact h.keep hext (by simp [append, define])
  | instruction _ => exact h.keep hext rfl
  | attach _ _ => exact h.keep hext (by simp [relabel, define])

/-- A constant is found by its value. -/
theorem Interned.constant_eq {b : Builder} (h : b.Interned) (hb : b.Reachable) {v : VarId}
    (hv : (b.program.var v).kind = .constant) :
    b.constant (b.program.var v).value = (v, b) := by
  have hmem : ∀ {w}, w ∈ b.program.constants ↔ (b.program.var w).kind = .constant := fun {w} =>
    @Kinded.mem_ofKind b hb.kinded .constant w (by decide)
  have hfound : b.constant? (b.program.var v).value = some v := by
    cases hfind : b.constant? (b.program.var v).value with
    | none => exact absurd rfl (hb.constant?_eq_none hfind v (hmem.mpr hv))
    | some w =>
        obtain ⟨hw, hvalue⟩ := hb.constant?_eq_some hfind
        rw [h w v (hmem.mp hw) hv hvalue]
  rw [constant, hfound]

/-! ## Instructions -/

/-- Each instruction has its index as position, and the next one takes the position after the
last. -/
structure Positioned (b : Builder) : Prop where
  upcoming_eq : b.instructionSeq.upcoming = b.program.size
  position_eq : ∀ i < b.program.size, (b.program.instr i).position = i

theorem Positioned.append {b : Builder} (h : b.Positioned) {make : Nat → Instruction}
    (hmake : ∀ x, (make x).position = x) : (b.append make).2.Positioned := by
  have hsize : (b.append make).2.program.size = b.program.size + 1 := by
    simp [Builder.append, Program.size]
  refine ⟨by rw [hsize, ← h.upcoming_eq]; rfl, fun i hi => ?_⟩
  rw [instr_append]
  by_cases hlast : i = b.program.size
  · rw [if_pos hlast, hmake, h.upcoming_eq, hlast]
  · rw [if_neg hlast]
    exact h.position_eq i (by omega)

theorem Positioned.relabel {b : Builder} (h : b.Positioned) (inst : InstId) (label : VarId) :
    (b.relabel inst label).Positioned := by
  have hsize : (b.relabel inst label).program.size = b.program.size := by
    simp [Builder.relabel, Program.size]
  refine ⟨by rw [hsize]; exact h.upcoming_eq, fun i hi => ?_⟩
  rw [instr_relabel]
  have hposition := h.position_eq i (hsize ▸ hi)
  split <;> exact hposition

theorem Positioned.step {b b' : Builder} {c : Call} (h : b.Positioned) (hstep : Step b c b') :
    b'.Positioned := by
  have hdefine : ∀ label, (b.define label).Positioned := fun _ => ⟨h.upcoming_eq, h.position_eq⟩
  cases hstep with
  | declare _ hdeclares =>
      constructor
      · rw [hdeclares.instructionSeq, Program.size, hdeclares.instrs]
        exact h.upcoming_eq
      · rw [Program.size, hdeclares.instrs]
        intro i hi
        rw [Program.instr, hdeclares.instrs]
        exact h.position_eq i hi
  | found _ => exact h
  | entry _ => exact (hdefine _).append fun _ => rfl
  | instruction _ => exact h.append fun _ => rfl
  | attach _ _ => exact (hdefine _).relabel _ _

/-! ## Labels of instructions -/

/-- Labels of instructions are taken, each by one instruction. -/
structure Carried (b : Builder) : Prop where
  defined : ∀ {i v}, (b.program.instr i).label = some v → (b.program.var v).isDefinedLabel = true
  inj : ∀ {i j v}, (b.program.instr i).label = some v → (b.program.instr j).label = some v → i = j

theorem Carried.step {b b' : Builder} {c : Call} (h : b.Carried) (hstep : Step b c b') :
    b'.Carried := by
  -- the label of the call is new, so no instruction has carried it before
  have hnew : ∀ {i v}, c.label? = some v → (b.program.instr i).label ≠ some v := by
    intro i v hv hi
    have hfree := (checkFree_eq_ok_iff.mp (hstep.checkFree hv)).2
    rw [h.defined hi] at hfree
    cases hfree
  constructor
  · intro i v hi
    rw [hstep.label_instr] at hi
    rw [hstep.isDefinedLabel_var]
    split at hi
    · simp [hi]
    · simp [h.defined hi]
  · intro i j v hi hj
    rw [hstep.label_instr] at hi hj
    split at hi
    · rename_i htarget
      split at hj
      · rename_i htarget'
        exact Option.some.inj (htarget.symm.trans htarget')
      · exact absurd hj (hnew hi)
    · split at hj
      · exact absurd hi (hnew hj)
      · exact h.inj hi hj

/-! ## All calls -/

/-- What later passes rely on. -/
structure Consistent (b : Builder) : Prop where
  registers : ∀ x v, b.program.registers[x]? = some v →
    (b.program.var v).kind = .register ∧ (b.program.var v).position = some x
  position_none : ∀ v, (b.program.var v).kind ≠ .register → (b.program.var v).position = none
  lists : ∀ kind, kind ≠ .untyped → b.program.ofKind kind =
    (List.range b.program.vars.size).filter fun v => (b.program.var v).kind == kind
  constants_inj : ∀ v w, (b.program.var v).kind = .constant → (b.program.var w).kind = .constant →
    (b.program.var v).value = (b.program.var w).value → v = w
  constant_eq : ∀ v, (b.program.var v).kind = .constant →
    b.constant (b.program.var v).value = (v, b)
  instr_position : ∀ i < b.program.size, (b.program.instr i).position = i
  operands : ∀ i < b.program.size, ∀ opcode, (b.program.instr i).opcode = some opcode →
    (b.program.instr i).dst.map (fun v => (b.program.var v).kind) = opcode.shape.dst ∧
      (b.program.instr i).src.map (fun v => (b.program.var v).kind) = opcode.shape.src
  carried : ∀ i < b.program.size, ∀ v, (b.program.instr i).label = some v →
    (b.program.var v).kind = .label ∧ (b.program.var v).isDefinedLabel = true
  carried_once : ∀ i < b.program.size, ∀ j < b.program.size, ∀ v,
    (b.program.instr i).label = some v → (b.program.instr j).label = some v → i = j

theorem carried_made {cs : List Call} (h : Legal cs) : (made cs).Carried := by
  refine made_of_step ⟨?_, ?_⟩ (fun _ hcarried hstep => hcarried.step hstep) h
  · intro i v hi
    cases hi
  · intro i j v hi
    cases hi

theorem consistent_made {cs : List Call} (h : Legal cs) : (made cs).Consistent := by
  have hreachable := reachable_made h
  have hkinded := hreachable.kinded
  have hlisted : (made cs).Listed := by
    refine made_of_step ?_ (fun _ hlisted hstep => hlisted.step hstep) h
    intro kind hkind
    cases kind <;> rfl
  have hinterned : (made cs).Interned := by
    refine made_of_step ?_ (fun hb hinterned hstep => hinterned.step hb.kinded hstep) h
    intro v w hv
    cases hv
  have hpositioned : (made cs).Positioned := by
    refine made_of_step ⟨rfl, ?_⟩ (fun _ hpositioned hstep => hpositioned.step hstep) h
    intro i hi
    cases hi
  have hcarried := carried_made h
  refine ⟨fun x v => hlisted.position_eq hreachable, ?_, hlisted, hinterned,
    fun v => hinterned.constant_eq hreachable, hpositioned.position_eq, ?_, ?_,
    fun i _ j _ v => hcarried.inj⟩
  · intro v hv
    rw [Option.eq_none_iff_forall_ne_some]
    intro x hx
    exact hv (by simpa [Variable.isRegister] using hkinded.isRegister_of_position hx)
  · intro i hi
    have hi' : i < (made cs).program.instrs.size := hi
    have hmem : (made cs).program.instr i ∈ (made cs).program.instrs := by
      simp [Program.instr, hi']
    exact (hkinded.fits _ hmem).operands
  · intro i hi v hv
    have hdefined := hcarried.defined hv
    exact ⟨by simpa using (Bool.and_eq_true_iff.mp hdefined).1, hdefined⟩

theorem Reachable.consistent {b : Builder} (h : b.Reachable) : b.Consistent := by
  obtain ⟨cs, hlegal, rfl⟩ := h.exists_made
  exact consistent_made hlegal

/-- What the builder asks of a call: a label that no instruction has taken, operands of the kinds
that the operation has. -/
def Call.Admissible (b : Builder) : Call → Prop
  | entry v | attach _ v =>
    (b.program.var v).kind = .label ∧ (b.program.var v).isDefinedLabel = false
  | instruction opcode dst src =>
    dst.map (fun v => (b.program.var v).kind) = opcode.shape.dst ∧
      src.map (fun v => (b.program.var v).kind) = opcode.shape.src
  | _ => True

theorem attempt_error_iff {b : Builder} {c : Call} :
    (∃ e, b.attempt c = .error e) ↔ ¬ c.Admissible b := by
  cases c with
  | entry label =>
      rw [Call.Admissible, ← checkFree_eq_ok_iff, attempt_entry_eq, entry_eq]
      cases b.checkFree label <;> simp [Except.map]
  | instruction opcode dst src =>
      rw [Call.Admissible, ← checkOperands_eq_ok_iff, attempt_instruction_eq, instruction_eq]
      cases b.checkOperands opcode dst src <;> simp [Except.map]
  | attach inst label =>
      have hattempt : b.attempt (.attach inst label) = b.attach inst label := rfl
      rw [Call.Admissible, ← checkFree_eq_ok_iff, hattempt, attach_eq]
      cases b.checkFree label <;> simp [Except.map]
  | _ =>
      refine iff_of_false ?_ (not_not_intro trivial)
      rintro ⟨e, h⟩
      cases h

/-- After any calls the builder is consistent. A further call is refused just if it is not
admissible, and then it changes nothing. -/
theorem calls_keep_consistent {cs : List Call} (h : Legal cs) :
    (made cs).Consistent ∧ ∀ c : Call, c.Known (made cs) →
      ((∃ e, (made cs).attempt c = .error e) ↔ ¬ c.Admissible (made cs)) ∧
        ∀ e, (made cs).attempt c = .error e → made (cs ++ [c]) = made cs := by
  refine ⟨consistent_made h, fun c _ => ⟨attempt_error_iff, fun e hrefused => ?_⟩⟩
  rw [made_concat, perform_of_error hrefused]

/-- Calls of every kind, one of them refused and a constant asked for twice. -/
theorem calls_of_loop_keep_consistent :
    let cs : List Call := [.register "r1", .memory "m1" 6, .constant (-3), .label "main",
      .untyped "x", .entry 3, .register "r2", .instruction .addi [5] [0, 2], .label "loop",
      .instruction .li [0] [1], .attach 1 6, .constant (-3), .instruction .bltz [] [5, 6]]
    Legal cs ∧ (made cs).Consistent ∧ (made cs).program.registers = [0, 5] ∧
      (made cs).program.size = 3 ∧ (made cs).program.constants = [2] ∧
      (made cs).attempt (.attach 2 6) = .error (.duplicateLabel "loop") ∧
      made (cs ++ [.attach 2 6]) = made cs := by
  intro cs
  have hlegal : Legal cs := by decide +kernel
  have hknown : (Call.attach 2 6).Known (made cs) := by decide +kernel
  have hrefused : (made cs).attempt (.attach 2 6) = .error (.duplicateLabel "loop") := by
    decide +kernel
  obtain ⟨hconsistent, hcalls⟩ := calls_keep_consistent hlegal
  exact ⟨hlegal, hconsistent, by decide +kernel, by decide +kernel, by decide +kernel, hrefused,
    (hcalls _ hknown).2 _ hrefused⟩

end Builder

/-- The registers of a program are its register variables, each listed once. -/
theorem Program.Finished.mem_registers_iff {p : Program} (h : p.Finished) {v : VarId} :
    v ∈ p.registers ↔ (p.var v).isRegister = true := by
  obtain ⟨b, hb, rfl⟩ := h
  rw [Variable.isRegister, beq_iff_eq]
  exact @Builder.Kinded.mem_ofKind b hb.kinded .register v (by decide)

theorem Program.Finished.nodup_registers {p : Program} (h : p.Finished) : p.registers.Nodup := by
  obtain ⟨b, hb, rfl⟩ := h
  have hlists : b.program.registers =
      (List.range b.program.vars.size).filter fun v => (b.program.var v).kind == .register :=
    hb.consistent.lists .register (by decide)
  rw [hlists]
  exact List.nodup_range.filter _

theorem Program.Finished.position_eq {p : Program} (hp : p.Finished) {x : Nat} {v : VarId}
    (hx : p.registerAt? x = some v) : (p.var v).position = some x := by
  obtain ⟨b, hb, rfl⟩ := hp
  exact (hb.consistent.registers x v hx).2

end RegAlloc
