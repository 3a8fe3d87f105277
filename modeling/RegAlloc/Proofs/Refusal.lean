/-!
# Computations that may be refused

A computation on a state is atomic if an error leaves the state as it was. That is so if all checks
come first and nothing after them can fail.
-/

namespace RegAlloc

variable {ε σ α β : Type}

/-- The state that a computation leaves, with an error or without. -/
def stateAfter (x : EStateM ε σ α) (s : σ) : σ :=
  match x s with
  | .ok _ s' => s'
  | .error _ s' => s'

/-- An error leaves the state as it was. -/
def Atomic (x : EStateM ε σ α) : Prop := ∀ s e s', x s = .error e s' → s' = s

/-- There is no error. -/
def Total (x : EStateM ε σ α) : Prop := ∀ s, ∃ a s', x s = .ok a s'

theorem total_modify (f : σ → σ) : Total (modify f : EStateM ε σ PUnit) :=
  fun s => ⟨_, f s, rfl⟩

theorem total_modifyGet (f : σ → α × σ) : Total (modifyGet f : EStateM ε σ α) :=
  fun s => ⟨(f s).1, (f s).2, rfl⟩

theorem Total.bind {x : EStateM ε σ α} {k : α → EStateM ε σ β} (hx : Total x)
    (hk : ∀ a, Total (k a)) : Total (x >>= k) := by
  intro s
  obtain ⟨a, s', h⟩ := hx s
  obtain ⟨b, s'', h'⟩ := hk a s'
  refine ⟨b, s'', ?_⟩
  rw [← h']
  change EStateM.bind x k s = _
  rw [EStateM.bind, h]

theorem Total.atomic {x : EStateM ε σ α} (h : Total x) : Atomic x := by
  intro s e s' herror
  obtain ⟨a, s'', hok⟩ := h s
  cases hok.symm.trans herror

/-- What a computation does, without its answer. -/
theorem discard_apply (x : EStateM ε σ α) (s : σ) :
    (discard x : EStateM ε σ PUnit) s =
      match x s with
      | .ok _ s' => .ok ⟨⟩ s'
      | .error e s' => .error e s' := by
  change EStateM.map (fun _ => PUnit.unit) x s = _
  rw [EStateM.map]
  rfl

theorem Atomic.discard {x : EStateM ε σ α} (h : Atomic x) :
    Atomic (discard x : EStateM ε σ PUnit) := by
  intro s e s' herror
  rw [discard_apply] at herror
  split at herror
  · cases herror
  · rename_i heq
    cases herror
    exact h s e s' heq

/-- A check does not change the state, whatever it answers. -/
theorem check_apply (check : σ → Except ε α) (k : α → EStateM ε σ β) (s : σ) :
    (do k (← ofExcept (check (← get)))) s =
      match check s with
      | .error e => .error e s
      | .ok a => k a s := by
  change EStateM.bind (ofExcept (check s)) k s = _
  cases check s <;> rfl

theorem atomic_check {check : σ → Except ε α} {k : α → EStateM ε σ β} (h : ∀ a, Atomic (k a)) :
    Atomic (do k (← ofExcept (check (← get)))) := by
  intro s e s' herror
  rw [check_apply] at herror
  split at herror
  · cases herror
    rfl
  · exact h _ s e s' herror

end RegAlloc
