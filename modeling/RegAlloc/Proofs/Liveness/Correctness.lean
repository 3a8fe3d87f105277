import RegAlloc.Proofs.Liveness.Semantics

/-!
# Correctness of the liveness solver

What a single update keeps, sweeps and whole runs of the solver keep. A sweep reports no change
exactly on a solution of the equations, so a run that converges ends in a solution; together with
soundness this makes the live sets exact.
-/

namespace RegAlloc

/-! ## Updates -/

namespace Liveness

@[simp] theorem size_blank (n : Nat) : (blank n).size = n := Array.size_replicate

@[simp] theorem get_blank (n i : Nat) : (blank n).get i = {} := by
  simp only [get, blank, Array.getD_eq_getD_getElem?, Array.getElem?_replicate]
  split <;> rfl

@[simp] theorem size_set (l : Liveness) (i : InstId) (s : LiveSets) : (l.set i s).size = l.size :=
  Array.size_setIfInBounds

theorem get_of_size_le {l : Liveness} {i : InstId} (h : l.size ≤ i) : l.get i = {} := by
  rw [get, Array.getD_eq_getD_getElem?, Array.getElem?_eq_none h]
  rfl

theorem get_set (l : Liveness) (i : InstId) (s : LiveSets) (n : InstId) :
    (l.set i s).get n = if i = n ∧ n < l.size then s else l.get n := by
  simp only [get, set, size, Array.getD_eq_getD_getElem?, Array.getElem?_setIfInBounds]
  by_cases hin : i = n
  · subst hin
    by_cases hlt : i < l.sets.size
    · simp [hlt]
    · simp [hlt]
  · simp [hin]

/-- Writing an update of one instruction down keeps the live sets sound. -/
theorem Sound.set {l : Liveness} {f : Flow} (h : l.Sound f) {i : InstId} {s : LiveSets}
    (hin : ∀ v ∈ s.liveIn, f.LiveIn v i) (hout : ∀ v ∈ s.liveOut, f.LiveOut v i) :
    (l.set i s).Sound f := by
  constructor
  · intro n v hv
    rw [get_set] at hv
    split at hv
    · rename_i heq
      exact heq.1 ▸ hin v hv
    · exact h.liveIn hv
  · intro n v hv
    rw [get_set] at hv
    split at hv
    · rename_i heq
      exact heq.1 ▸ hout v hv
    · exact h.liveOut hv

theorem sound_blank (n : Nat) (f : Flow) : (blank n).Sound f where
  liveIn hv := by simp at hv
  liveOut hv := by simp at hv

theorem Sound.transfer {l : Liveness} {f : Flow} (h : l.Sound f) (i : InstId) :
    (l.set i (f.transfer l i)).Sound f := by
  have hout : ∀ v ∈ (f.transfer l i).liveOut, f.LiveOut v i := by
    intro v hv
    obtain ⟨s, hs, hlive⟩ := Flow.mem_liveOut_transfer.mp hv
    exact ⟨s, hs, h.liveIn hlive⟩
  refine h.set ?_ hout
  intro v hv
  rcases Flow.mem_liveIn_transfer.mp hv with huse | ⟨hlive, hdef⟩
  · exact Flow.liveIn_of_use huse
  · exact Flow.liveIn_of_liveOut (hout v hlive) hdef

end Liveness

/-! ## One visit -/

theorem Flow.size_visit (f : Flow) (s : Sweep) (i : InstId) :
    (f.visit s i).live.size = s.live.size := by
  unfold visit
  split <;> simp

theorem Flow.get_visit_self {f : Flow} {s : Sweep} {n : InstId} (h : n < s.live.size) :
    (f.visit s n).live.get n = f.transfer s.live n := by
  unfold visit
  split
  · assumption
  · simp [Liveness.get_set, h]

theorem Flow.get_visit_of_ne {f : Flow} {s : Sweep} {i n : InstId} (h : i ≠ n) :
    (f.visit s i).live.get n = s.live.get n := by
  unfold visit
  split
  · rfl
  · simp [Liveness.get_set, h]

/-! ## Runs keep what an update keeps -/

namespace Flow

section Invariant

variable {f : Flow} {P : Liveness → Prop}

theorem visit_preserves (hstep : ∀ l i, P l → P (l.set i (f.transfer l i))) {s : Sweep}
    (h : P s.live) (i : InstId) : P (f.visit s i).live := by
  unfold visit
  split
  · exact h
  · exact hstep s.live i h

theorem foldl_visit_preserves (hstep : ∀ l i, P l → P (l.set i (f.transfer l i))) {s : Sweep}
    (h : P s.live) (is : List InstId) : P (is.foldl f.visit s).live := by
  induction is generalizing s with
  | nil => exact h
  | cons i is ih => exact ih (visit_preserves hstep h i)

theorem solveFrom_preserves (hstep : ∀ l i, P l → P (l.set i (f.transfer l i)))
    (cap made : Nat) {l : Liveness} (h : P l) : P (f.solveFrom cap made l).2 := by
  induction cap generalizing made l with
  | zero => exact h
  | succ cap ih =>
      have hsweep : P (f.sweep l).live := foldl_visit_preserves hstep h _
      rw [solveFrom]
      split
      · exact ih (made + 1) hsweep
      · exact hsweep

theorem solve_preserves (hstep : ∀ l i, P l → P (l.set i (f.transfer l i))) (cap : Nat)
    {l : Liveness} (h : P l) : P (f.solve cap l).2 :=
  solveFrom_preserves hstep cap 0 h

end Invariant

theorem size_solve (f : Flow) (cap : Nat) (l : Liveness) : (f.solve cap l).2.size = l.size :=
  solve_preserves (P := fun m => m.size = l.size)
    (fun m i h => (m.size_set i _).trans h) cap rfl

theorem sound_solve {f : Flow} {l : Liveness} (cap : Nat) (h : l.Sound f) :
    (f.solve cap l).2.Sound f :=
  solve_preserves (P := fun m => m.Sound f) (fun _ i hm => hm.transfer i) cap h

/-- Without edges and operands an update clears the live sets of its instruction. -/
theorem sound_solve_blank {f : Flow} {l : Liveness} (n cap : Nat) (h : l.Sound f) :
    ((blank n).solve cap l).2.Sound f := by
  refine solve_preserves (P := fun m => m.Sound f) ?_ cap h
  intro m i hm
  apply hm.set
  · intro v hv
    simp [mem_liveIn_transfer, mem_liveOut_transfer] at hv
  · intro v hv
    simp [mem_liveOut_transfer] at hv

/-! ## Sweeps that change nothing -/

theorem changed_foldl_visit {f : Flow} {s : Sweep} (h : s.changed = true) (is : List InstId) :
    (is.foldl f.visit s).changed = true := by
  induction is generalizing s with
  | nil => exact h
  | cons i is ih =>
      apply ih
      unfold visit
      split
      · exact h
      · rfl

theorem foldl_visit_eq_iff {f : Flow} {l : Liveness} {is : List InstId} :
    (is.foldl f.visit ⟨l, false⟩).changed = false ↔ ∀ i ∈ is, l.get i = f.transfer l i := by
  induction is with
  | nil => simp
  | cons i is ih =>
      by_cases heq : l.get i = f.transfer l i
      · have hvisit : f.visit ⟨l, false⟩ i = ⟨l, false⟩ := by simp [visit, heq]
        rw [List.foldl_cons, hvisit, ih]
        simp [heq]
      · have hvisit : (f.visit ⟨l, false⟩ i).changed = true := by simp [visit, heq]
        rw [List.foldl_cons, changed_foldl_visit hvisit]
        simp [heq]

theorem foldl_visit_of_solved {f : Flow} {l : Liveness} {is : List InstId}
    (h : ∀ i ∈ is, l.get i = f.transfer l i) :
    is.foldl f.visit ⟨l, false⟩ = ⟨l, false⟩ := by
  induction is with
  | nil => rfl
  | cons i is ih =>
      have hvisit : f.visit ⟨l, false⟩ i = ⟨l, false⟩ := by
        simp [visit, h i List.mem_cons_self]
      rw [List.foldl_cons, hvisit]
      exact ih fun j hj => h j (List.mem_cons_of_mem i hj)

theorem isFixedPoint_iff {f : Flow} {l : Liveness} :
    f.isFixedPoint l = true ↔ ∀ i < l.size, l.get i = f.transfer l i := by
  simp [isFixedPoint]

/-- A sweep reports no change exactly where the equations hold already. -/
theorem changed_sweep_eq_false_iff {f : Flow} {l : Liveness} :
    (f.sweep l).changed = false ↔ f.isFixedPoint l = true := by
  rw [sweep, foldl_visit_eq_iff, isFixedPoint_iff]
  simp

theorem sweep_of_isFixedPoint {f : Flow} {l : Liveness} (h : f.isFixedPoint l = true) :
    f.sweep l = ⟨l, false⟩ := by
  apply foldl_visit_of_solved
  intro i hi
  exact isFixedPoint_iff.mp h i (by simpa using hi)

/-! ## Convergence -/

theorem isFixedPoint_solveFrom {f : Flow} {cap made : Nat} {l : Liveness}
    (h : (f.solveFrom cap made l).1.converged = true) :
    f.isFixedPoint (f.solveFrom cap made l).2 = true := by
  induction cap generalizing made l with
  | zero => cases h
  | succ cap ih =>
      rw [solveFrom] at h ⊢
      split
      · rename_i hchanged
        rw [ite_cond_eq_true _ _ (eq_true hchanged)] at h
        exact ih h
      · rename_i hchanged
        have hfixed := changed_sweep_eq_false_iff.mp (Bool.eq_false_iff.mpr hchanged)
        rw [sweep_of_isFixedPoint hfixed]
        exact hfixed

theorem isFixedPoint_solve {f : Flow} {cap : Nat} {l : Liveness}
    (h : (f.solve cap l).1.converged = true) : f.isFixedPoint (f.solve cap l).2 = true :=
  isFixedPoint_solveFrom h

/-- Solving again from a solution makes one sweep and changes nothing. -/
theorem solve_of_isFixedPoint {f : Flow} {cap : Nat} {l : Liveness} (hcap : 0 < cap)
    (h : f.isFixedPoint l = true) : f.solve cap l = (⟨1, true⟩, l) := by
  obtain ⟨cap, rfl⟩ := Nat.exists_eq_succ_of_ne_zero (Nat.pos_iff_ne_zero.mp hcap)
  simp [solve, solveFrom, sweep_of_isFixedPoint h]

theorem pos_of_converged {f : Flow} {cap : Nat} {l : Liveness}
    (h : (f.solve cap l).1.converged = true) : 0 < cap := by
  cases cap with
  | zero => cases h
  | succ cap => exact Nat.succ_pos cap

/-- Outside the program there are neither edges nor live registers, so the equations hold there. -/
theorem solves_of_isFixedPoint {f : Flow} {l : Liveness} (hsize : f.size ≤ l.size)
    (h : f.isFixedPoint l = true) : l.Solves f := by
  intro n
  by_cases hn : n < l.size
  · exact isFixedPoint_iff.mp h n hn
  · have hle : l.size ≤ n := Nat.not_lt.mp hn
    rw [Liveness.get_of_size_le hle, transfer, node_of_size_le (Nat.le_trans hsize hle)]
    rfl

theorem solves_of_converged {f : Flow} {cap : Nat} {l : Liveness} (hsize : f.size ≤ l.size)
    (h : (f.solve cap l).1.converged = true) : (f.solve cap l).2.Solves f :=
  solves_of_isFixedPoint (by rwa [size_solve]) (isFixedPoint_solve h)

end Flow

end RegAlloc
