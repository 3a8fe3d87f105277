import RegAlloc.Liveness
import RegAlloc.Proofs.Flow.Nodes

/-!
# What liveness means

A register is live before an instruction if some path from there reads it before any instruction
writes it. The paths satisfy the equations that `Flow.transfer` states.
-/

namespace RegAlloc

namespace Flow

/-- `f.Path n path m`: the edges of `f` lead from `n` to `m`. The instructions on the way are
`path`, with `n` and without `m`. -/
inductive Path (f : Flow) : InstId → List InstId → InstId → Prop where
  | here (n : InstId) : Path f n [] n
  | edge {n s m : InstId} {path : List InstId} :
      s ∈ (f.node n).succs → Path f s path m → Path f n (n :: path) m

/-- Some path from `n` reads `v` at its end, and no instruction on the way writes it. -/
def LiveIn (f : Flow) (v : VarId) (n : InstId) : Prop :=
  ∃ path m, f.Path n path m ∧ v ∈ (f.node m).uses ∧ ∀ i ∈ path, v ∉ (f.node i).defs

/-- `v` is live before some successor of `n`. -/
def LiveOut (f : Flow) (v : VarId) (n : InstId) : Prop :=
  ∃ s ∈ (f.node n).succs, f.LiveIn v s

/-! ## The equations of the paths -/

theorem liveIn_of_use {f : Flow} {v : VarId} {n : InstId} (h : v ∈ (f.node n).uses) :
    f.LiveIn v n :=
  ⟨[], n, .here n, h, by simp⟩

theorem liveIn_of_liveOut {f : Flow} {v : VarId} {n : InstId} (h : f.LiveOut v n)
    (hdef : v ∉ (f.node n).defs) : f.LiveIn v n := by
  obtain ⟨s, hs, path, m, hpath, huse, hpass⟩ := h
  refine ⟨n :: path, m, .edge hs hpath, huse, ?_⟩
  intro i hi
  rcases List.mem_cons.mp hi with rfl | hi
  · exact hdef
  · exact hpass i hi

theorem liveIn_iff {f : Flow} {v : VarId} {n : InstId} :
    f.LiveIn v n ↔ v ∈ (f.node n).uses ∨ (f.LiveOut v n ∧ v ∉ (f.node n).defs) := by
  constructor
  · rintro ⟨path, m, hpath, huse, hpass⟩
    cases hpath with
    | here => exact Or.inl huse
    | edge hs hpath =>
        refine Or.inr ⟨⟨_, hs, _, m, hpath, huse, ?_⟩, hpass n List.mem_cons_self⟩
        intro i hi
        exact hpass i (List.mem_cons_of_mem n hi)
  · rintro (huse | ⟨hout, hdef⟩)
    · exact liveIn_of_use huse
    · exact liveIn_of_liveOut hout hdef

/-- What is live is read somewhere. -/
theorem LiveIn.exists_use {f : Flow} {v : VarId} {n : InstId} (h : f.LiveIn v n) :
    ∃ m, v ∈ (f.node m).uses := by
  obtain ⟨_, m, _, huse, _⟩ := h
  exact ⟨m, huse⟩

theorem mem_liveOut_transfer {f : Flow} {l : Liveness} {n : InstId} {v : VarId} :
    v ∈ (f.transfer l n).liveOut ↔ ∃ s ∈ (f.node n).succs, v ∈ (l.get s).liveIn := by
  simp only [transfer, IdSet.mem_unions, List.mem_map, IdSet.mem_toList]
  constructor
  · rintro ⟨_, ⟨s, hs, rfl⟩, hv⟩
    exact ⟨s, hs, hv⟩
  · rintro ⟨s, hs, hv⟩
    exact ⟨_, ⟨s, hs, rfl⟩, hv⟩

theorem mem_liveIn_transfer {f : Flow} {l : Liveness} {n : InstId} {v : VarId} :
    v ∈ (f.transfer l n).liveIn ↔
      v ∈ (f.node n).uses ∨ (v ∈ (f.transfer l n).liveOut ∧ v ∉ (f.node n).defs) := by
  simp [transfer, or_comm]

end Flow

/-! ## Live sets and paths -/

namespace Liveness

/-- Every register that the live sets hold is live along some path. -/
structure Sound (l : Liveness) (f : Flow) : Prop where
  liveIn : ∀ {n : InstId} {v : VarId}, v ∈ (l.get n).liveIn → f.LiveIn v n
  liveOut : ∀ {n : InstId} {v : VarId}, v ∈ (l.get n).liveOut → f.LiveOut v n

/-- The live sets hold the registers that are live along some path, and no others. -/
structure Exact (l : Liveness) (f : Flow) : Prop where
  liveIn : ∀ {n : InstId} {v : VarId}, v ∈ (l.get n).liveIn ↔ f.LiveIn v n
  liveOut : ∀ {n : InstId} {v : VarId}, v ∈ (l.get n).liveOut ↔ f.LiveOut v n

/-- The live sets of every instruction solve its equations. -/
def Solves (l : Liveness) (f : Flow) : Prop := ∀ n, l.get n = f.transfer l n

theorem Solves.mem_liveOut {l : Liveness} {f : Flow} (h : l.Solves f) {n : InstId} {v : VarId} :
    v ∈ (l.get n).liveOut ↔ ∃ s ∈ (f.node n).succs, v ∈ (l.get s).liveIn := by
  rw [h n]
  exact Flow.mem_liveOut_transfer

theorem Solves.mem_liveIn {l : Liveness} {f : Flow} (h : l.Solves f) {n : InstId} {v : VarId} :
    v ∈ (l.get n).liveIn ↔
      v ∈ (f.node n).uses ∨ (v ∈ (l.get n).liveOut ∧ v ∉ (f.node n).defs) := by
  rw [h n]
  exact Flow.mem_liveIn_transfer

/-- Any solution holds what is live along a path: the end of the path reads it, and the equations
carry it back over each edge. -/
theorem Solves.mem_liveIn_of_path {l : Liveness} {f : Flow} (h : l.Solves f) {v : VarId}
    {n m : InstId} {path : List InstId} (hpath : f.Path n path m) (huse : v ∈ (f.node m).uses)
    (hpass : ∀ i ∈ path, v ∉ (f.node i).defs) : v ∈ (l.get n).liveIn := by
  induction hpath with
  | here n => exact h.mem_liveIn.mpr (Or.inl huse)
  | @edge n s m path hs _ ih =>
      have hsucc := ih huse fun i hi => hpass i (List.mem_cons_of_mem n hi)
      have hout := h.mem_liveOut.mpr ⟨s, hs, hsucc⟩
      exact h.mem_liveIn.mpr (Or.inr ⟨hout, hpass n List.mem_cons_self⟩)

/-- A sound solution is the least one, so it is exact. -/
theorem Sound.exact {l : Liveness} {f : Flow} (h : l.Sound f) (hsolves : l.Solves f) :
    l.Exact f := by
  have hin : ∀ {n : InstId} {v : VarId}, v ∈ (l.get n).liveIn ↔ f.LiveIn v n := by
    intro n v
    refine ⟨h.liveIn, ?_⟩
    rintro ⟨path, m, hpath, huse, hpass⟩
    exact hsolves.mem_liveIn_of_path hpath huse hpass
  refine ⟨hin, ?_⟩
  intro n v
  refine ⟨h.liveOut, ?_⟩
  rintro ⟨s, hs, hlive⟩
  exact hsolves.mem_liveOut.mpr ⟨s, hs, hin.mpr hlive⟩

end Liveness

end RegAlloc
