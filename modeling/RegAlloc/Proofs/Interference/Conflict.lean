import RegAlloc.Proofs.Graph.Edges

/-!
# The conflict relation of a rule

`Rule.Conflict` says which positions a rule joins at one instruction. The interference graph has
exactly the edges that some instruction asks for.
-/

namespace RegAlloc

/-- Whether a rule lets two positions conflict, out of those that an instruction writes and those
that are live before and after it. -/
def Rule.Conflict (rule : Rule) (defs liveIn liveOut : List Nat) (x y : Nat) : Prop :=
  match rule with
  | .defLiveOut => (x ∈ defs ∨ y ∈ defs) ∧ x ∈ liveOut ∧ y ∈ liveOut
  | .allLive => (x ∈ liveIn ∧ y ∈ liveIn) ∨ (x ∈ liveOut ∧ y ∈ liveOut)

theorem Rule.Conflict.symm {rule : Rule} {defs liveIn liveOut : List Nat} {x y : Nat}
    (h : rule.Conflict defs liveIn liveOut x y) : rule.Conflict defs liveIn liveOut y x := by
  cases rule with
  | defLiveOut => exact ⟨h.1.symm, h.2.2, h.2.1⟩
  | allLive => exact h.imp And.symm And.symm

/-- Under both rules a position that is written and live afterwards conflicts with all others that
are live afterwards. -/
theorem Rule.conflict_of_mem_defs (rule : Rule) {defs liveIn liveOut : List Nat} {x y : Nat}
    (hdef : x ∈ defs) (hx : x ∈ liveOut) (hy : y ∈ liveOut) :
    rule.Conflict defs liveIn liveOut x y := by
  cases rule with
  | defLiveOut => exact ⟨Or.inl hdef, hx, hy⟩
  | allLive => exact Or.inr ⟨hx, hy⟩

/-! ## The edges of a program -/

theorem Rule.adds_join (rule : Rule) (defs liveIn liveOut : List Nat) (g : Graph) :
    g.Adds (rule.join defs liveIn liveOut g) (rule.Conflict defs liveIn liveOut) := by
  cases rule with
  | defLiveOut =>
      apply (Graph.adds_foldl (fun g d => g.adds_joinEach d liveOut) _ g).congr
      intro x y _
      simp only [List.mem_filter, decide_eq_true_eq, Rule.Conflict]
      constructor
      · rintro ⟨d, ⟨hdef, hd⟩, ⟨rfl, hy⟩ | ⟨hx, rfl⟩⟩
        · exact ⟨Or.inl hdef, hd, hy⟩
        · exact ⟨Or.inr hdef, hx, hd⟩
      · rintro ⟨hx | hy, hxout, hyout⟩
        · exact ⟨x, ⟨hx, hxout⟩, Or.inl ⟨rfl, hyout⟩⟩
        · exact ⟨y, ⟨hy, hyout⟩, Or.inr ⟨hxout, rfl⟩⟩
  | allLive => exact (g.adds_joinAll liveIn).trans ((g.joinAll liveIn).adds_joinAll liveOut)

namespace Program

theorem mem_positions {p : Program} {s : IdSet} {x : Nat} :
    x ∈ p.positions s ↔ ∃ v ∈ s, (p.var v).position = some x := by
  simp only [positions, List.mem_filterMap, IdSet.mem_toList]

/-- Whether a rule lets two positions conflict at instruction `i`. -/
def ConflictAt (p : Program) (f : Flow) (l : Liveness) (rule : Rule) (i : InstId) (x y : Nat) :
    Prop :=
  rule.Conflict (p.positions (f.node i).defs) (p.positions (l.get i).liveIn)
    (p.positions (l.get i).liveOut) x y

theorem adds_interference (p : Program) (f : Flow) (l : Liveness) (rule : Rule) :
    (Graph.empty p.registerCount).Adds (p.interference f l rule)
      fun x y => ∃ i ∈ List.range p.size, p.ConflictAt f l rule i x y := by
  have hstep : ∀ (g : Graph) (i : InstId),
      g.Adds (p.interfereAt f l rule g i) (p.ConflictAt f l rule i) :=
    fun g i => rule.adds_join _ _ _ g
  exact Graph.adds_foldl hstep (List.range p.size) (.empty p.registerCount)

theorem size_interference (p : Program) (f : Flow) (l : Liveness) (rule : Rule) :
    (p.interference f l rule).size = p.registerCount :=
  (p.adds_interference f l rule).size_eq

/-- Two positions interfere exactly where some instruction makes them conflict. -/
theorem edge_interference {p : Program} {f : Flow} {l : Liveness} {rule : Rule} {x y : Nat} :
    (p.interference f l rule).Edge x y ↔
      x < p.registerCount ∧ y < p.registerCount ∧ x ≠ y ∧
        ∃ i < p.size, p.ConflictAt f l rule i x y := by
  rw [(p.adds_interference f l rule).edge_iff, or_iff_right (Graph.not_edge_empty _ x y)]
  simp only [List.mem_range]
  rfl

theorem interference_undirected (p : Program) (f : Flow) (l : Liveness) (rule : Rule) :
    (p.interference f l rule).Undirected where
  symm h := by
    obtain ⟨hx, hy, hne, i, hi, hconflict⟩ := edge_interference.mp h
    exact edge_interference.mpr ⟨hy, hx, hne.symm, i, hi, hconflict.symm⟩
  irrefl a h := (edge_interference.mp h).2.2.1 rfl

end Program

end RegAlloc
