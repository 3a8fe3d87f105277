/-!
# Checked computations

A checked computation makes every access to a list, an array or a text by `xs[i]?` or a like test,
and answers `none` where the access is out of range. It is safe if it follows a computation that
makes no such test: then no access was out of range, and both have the same outcome.
-/

namespace RegAlloc

/-- A checked computation that may end with an error. -/
abbrev Checked (ε α : Type) := ExceptT ε Option α

namespace Checked

variable {ε ε' α β γ δ : Type} {R : α → β → Prop} {S : γ → δ → Prop}

/-- All accesses of `x` are in range, and it ends as `r` does: with the same error or with related
values. -/
inductive Follows (R : α → β → Prop) : Checked ε α → Except ε β → Prop where
  | ok {a : α} {b : β} : R a b → Follows R (pure a) (.ok b)
  | error {e : ε} : Follows R (throw e) (.error e)

namespace Follows

variable {x : Checked ε α} {r : Except ε β}

theorem bind_error {e : ε} {f : α → Checked ε γ} (hx : Follows R x (.error e)) :
    Follows S (x >>= f) (.error e) := by
  cases hx
  exact .error

theorem bind_ok {b : β} {f : α → Checked ε γ} {r' : Except ε δ} (hx : Follows R x (.ok b))
    (hf : ∀ a, R a b → Follows S (f a) r') : Follows S (x >>= f) r' := by
  cases hx with
  | ok hab => exact hf _ hab

theorem bind {f : α → Checked ε γ} {g : β → Except ε δ} (hx : Follows R x r)
    (hf : ∀ a b, r = .ok b → R a b → Follows S (f a) (g b)) : Follows S (x >>= f) (r >>= g) := by
  cases r with
  | error e => exact hx.bind_error
  | ok b => exact hx.bind_ok fun a => hf a b rfl

theorem bind_map {f : α → Checked ε γ} {g : β → δ} (hx : Follows R x r)
    (hf : ∀ a b, r = .ok b → R a b → Follows S (f a) (.ok (g b))) :
    Follows S (x >>= f) (r.map g) := by
  cases r with
  | error e => exact hx.bind_error
  | ok b => exact hx.bind_ok fun a => hf a b rfl

theorem adapt {f : ε → ε'} (hx : Follows R x r) :
    Follows R (ExceptT.adapt f x) (r.mapError f) := by
  cases hx with
  | error => exact .error
  | ok hab => exact .ok hab

theorem ite {p : Prop} [Decidable p] {y : Checked ε α} {r' : Except ε β} (hx : p → Follows R x r)
    (hy : ¬ p → Follows R y r') : Follows R (if p then x else y) (if p then r else r') := by
  split
  · rename_i hp
    exact hx hp
  · rename_i hp
    exact hy hp

/-- An access in range goes on with what it reads. -/
theorem access {o : Option γ} {c : γ} {f : γ → Checked ε α} (ho : o = some c)
    (hf : Follows R (f c) r) : Follows R ((liftM o : Checked ε γ) >>= f) r := by
  rw [ho]
  exact hf

theorem last_access {o : Option α} {a : α} {b : β} (ho : o = some a) (hab : R a b) :
    Follows R (liftM o : Checked ε α) (.ok b) := by
  rw [ho]
  exact .ok hab

theorem lift (r : Except ε α) : Follows Eq (liftExcept r : Checked ε α) r := by
  cases r with
  | error e => exact .error
  | ok a => exact .ok rfl

theorem mapM {xs : List γ} {f : γ → Checked ε α} {g : γ → Except ε α}
    (h : ∀ x ∈ xs, Follows Eq (f x) (g x)) : Follows Eq (xs.mapM f) (xs.mapM g) := by
  induction xs with
  | nil => exact .ok rfl
  | cons x xs ih =>
      rw [List.forall_mem_cons] at h
      rw [List.mapM_cons, List.mapM_cons]
      refine h.1.bind ?_
      rintro a _ _ rfl
      refine (ih h.2).bind ?_
      rintro as _ _ rfl
      exact .ok rfl

theorem run_eq {x : Checked ε α} {r : Except ε α} (h : Follows Eq x r) : x.run = some r := by
  cases h with
  | error => rfl
  | ok hab => rw [hab]; rfl

end Follows

end Checked

/-! ## Loops -/

section Loops

variable {α β : Type} {xs : List α}

theorem mapM_eq_some {f : α → Option β} {g : α → β} (h : ∀ x ∈ xs, f x = some (g x)) :
    xs.mapM f = some (xs.map g) := by
  induction xs with
  | nil => rfl
  | cons x xs ih =>
      rw [List.forall_mem_cons] at h
      simp [List.mapM_cons, h.1, ih h.2]

theorem exists_mapM_eq_some {f : α → Option β} (h : ∀ x ∈ xs, ∃ y, f x = some y) :
    ∃ ys, xs.mapM f = some ys := by
  induction xs with
  | nil => exact ⟨[], rfl⟩
  | cons x xs ih =>
      rw [List.forall_mem_cons] at h
      obtain ⟨y, hy⟩ := h.1
      obtain ⟨ys, hys⟩ := ih h.2
      exact ⟨y :: ys, by simp [List.mapM_cons, hy, hys]⟩

theorem filterM_eq_some {f : α → Option Bool} {g : α → Bool} (h : ∀ x ∈ xs, f x = some (g x)) :
    xs.filterM f = some (xs.filter g) := by
  have haux : ∀ acc, xs.filterAuxM f acc = some ((xs.filter g).reverse ++ acc) := by
    induction xs with
    | nil => exact fun _ => rfl
    | cons x xs ih =>
        rw [List.forall_mem_cons] at h
        intro acc
        cases hx : g x <;> simp [List.filterAuxM, h.1, ih h.2, hx]
  simp [List.filterM, haux]

theorem findM?_eq_some {f : α → Option Bool} {g : α → Bool} (h : ∀ x ∈ xs, f x = some (g x)) :
    xs.findM? f = some (xs.find? g) := by
  induction xs with
  | nil => rfl
  | cons x xs ih =>
      rw [List.forall_mem_cons] at h
      cases hx : g x <;> simp [List.findM?, h.1, ih h.2, hx]

theorem allM_eq_some {f : α → Option Bool} {g : α → Bool} (h : ∀ x ∈ xs, f x = some (g x)) :
    xs.allM f = some (xs.all g) := by
  induction xs with
  | nil => rfl
  | cons x xs ih =>
      rw [List.forall_mem_cons] at h
      cases hx : g x <;> simp [List.allM, h.1, ih h.2, hx]

/-- The accesses of a loop are in range as long as an invariant of its state holds. -/
theorem foldlM_eq_some {f : β → α → Option β} {g : β → α → β} {I : β → Prop} {b : β} (hb : I b)
    (h : ∀ b, I b → ∀ x ∈ xs, f b x = some (g b x) ∧ I (g b x)) :
    xs.foldlM f b = some (xs.foldl g b) ∧ I (xs.foldl g b) := by
  induction xs generalizing b with
  | nil => exact ⟨rfl, hb⟩
  | cons x xs ih =>
      obtain ⟨hstep, hkeep⟩ := h b hb x List.mem_cons_self
      rw [List.foldlM_cons, hstep]
      exact ih hkeep fun b hb y hy => h b hb y (List.mem_cons_of_mem x hy)

end Loops

end RegAlloc
