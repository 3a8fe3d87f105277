import RegAlloc.Annotated
import RegAlloc.Proofs.Liveness.Correctness

/-!
# Fixed points of the liveness solver

A sweep compares each instruction with sets that it is changing as it goes. Still, its answer is that
of the check of all equations before it: up to the first instruction that violates its equations
nothing has changed, and the sets that this one gets are not touched again by the sweep.
-/

namespace RegAlloc

namespace Flow

variable {f : Flow} {l : Liveness} {n : InstId} {is : List InstId}

/-! ## What a sweep changes -/

theorem get_foldl_visit_of_not_mem {s : Sweep} (h : n ∉ is) :
    (is.foldl f.visit s).live.get n = s.live.get n := by
  induction is generalizing s with
  | nil => rfl
  | cons i is ih =>
      rw [List.mem_cons, not_or] at h
      rw [List.foldl_cons, ih h.2, get_visit_of_ne (Ne.symm h.1)]

/-- The first instruction that violates its equations has other sets after the visits. -/
theorem exists_get_ne_of_changed (hdistinct : is.Nodup) (hinside : ∀ i ∈ is, i < l.size)
    (h : (is.foldl f.visit ⟨l, false⟩).changed = true) :
    ∃ i ∈ is, (is.foldl f.visit ⟨l, false⟩).live.get i ≠ l.get i := by
  induction is with
  | nil => cases h
  | cons i is ih =>
      rw [List.nodup_cons] at hdistinct
      rw [List.forall_mem_cons] at hinside
      by_cases heq : l.get i = f.transfer l i
      · have hvisit : f.visit ⟨l, false⟩ i = ⟨l, false⟩ := by simp [visit, heq]
        rw [List.foldl_cons, hvisit] at h ⊢
        obtain ⟨j, hj, hne⟩ := ih hdistinct.2 hinside.2 h
        exact ⟨j, List.mem_cons_of_mem i hj, hne⟩
      · refine ⟨i, List.mem_cons_self, ?_⟩
        rw [List.foldl_cons, get_foldl_visit_of_not_mem hdistinct.1, get_visit_self hinside.1]
        exact Ne.symm heq

/-- The flag of a sweep says whether the sets are other ones afterwards. -/
theorem changed_sweep_eq_false_iff_live : (f.sweep l).changed = false ↔ (f.sweep l).live = l := by
  constructor
  · intro h
    rw [sweep_of_isFixedPoint (changed_sweep_eq_false_iff.mp h)]
  · intro h
    refine Bool.eq_false_iff.mpr fun hchanged => ?_
    have hdistinct : (List.range l.size).reverse.Nodup :=
      (List.reverse_perm _).nodup_iff.mpr List.nodup_range
    obtain ⟨i, _, hne⟩ := exists_get_ne_of_changed hdistinct (by simp) hchanged
    exact hne (congrArg (Liveness.get · i) h)

/-! ## How many sweeps are made -/

/-- Only a sweep that changes nothing ends a run before the last sweep that is allowed. -/
theorem sweeps_solveFrom (cap made : Nat) (l : Liveness) :
    (f.solveFrom cap made l).1.sweeps ≤ made + cap ∧
      ((f.solveFrom cap made l).1.converged = false →
        (f.solveFrom cap made l).1.sweeps = made + cap) := by
  induction cap generalizing made l with
  | zero => exact ⟨Nat.le_refl made, fun _ => rfl⟩
  | succ cap ih =>
      rw [solveFrom]
      split
      · have hrest := ih (made + 1) (f.sweep l).live
        rwa [Nat.add_right_comm, Nat.add_assoc] at hrest
      · exact ⟨by dsimp only; omega, fun h => by cases h⟩

end Flow

/-! ## Program states -/

namespace Annotated

/-- Whatever the edges, operands and live sets of a program are, a sweep says that nothing changed
exactly if all equations hold before it, and then it does change nothing. So a run converges only on
a fixed point, and on one it makes a single sweep. -/
theorem sweep_flag_exact (a : Annotated) :
    ((a.flow.sweep a.live).changed = false ↔ a.isFixedPoint = true) ∧
    ((a.flow.sweep a.live).changed = false ↔ (a.flow.sweep a.live).live = a.live) ∧
    ∀ cap, ((a.solve cap).1.converged = true → (a.solve cap).2.isFixedPoint = true) ∧
      (a.isFixedPoint = true → 1 ≤ cap → a.solve cap = (⟨1, true⟩, a)) ∧
      (a.solve cap).1.sweeps ≤ cap ∧
      ((a.solve cap).1.converged = false → (a.solve cap).1.sweeps = cap) := by
  refine ⟨Flow.changed_sweep_eq_false_iff, Flow.changed_sweep_eq_false_iff_live, fun cap => ?_⟩
  obtain ⟨hle, hall⟩ := Flow.sweeps_solveFrom (f := a.flow) cap 0 a.live
  rw [Nat.zero_add] at hle hall
  refine ⟨Flow.isFixedPoint_solve, ?_, hle, hall⟩
  intro hfixed hcap
  rw [solve, Flow.solve_of_isFixedPoint hcap hfixed]

/-- A register that is live all around an endless loop, though nothing reads it. -/
theorem sweep_flag_of_endless_loop :
    let a : Annotated := ⟨{}, ⟨#[{ succs := .ofList [0] }]⟩, ⟨#[⟨.ofList [7], .ofList [7]⟩]⟩, []⟩
    a.isFixedPoint = true ∧ (a.flow.sweep a.live).changed = false ∧
      a.solve 3 = (⟨1, true⟩, a) := by
  intro a
  have hfixed : a.isFixedPoint = true := by decide
  obtain ⟨hflag, _, hsolve⟩ := sweep_flag_exact a
  exact ⟨hfixed, hflag.mpr hfixed, (hsolve 3).2.1 hfixed (by decide)⟩

end Annotated

end RegAlloc
