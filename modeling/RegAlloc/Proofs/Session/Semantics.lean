import RegAlloc.Proofs.Allocation.Correctness
import RegAlloc.Proofs.Flow.Building
import RegAlloc.Proofs.Interference.Conflict
import RegAlloc.Proofs.Liveness.Correctness
import RegAlloc.Proofs.Program.Parsing
import RegAlloc.Session

/-!
# What the calls of a session do

One lemma for each way in which an analysis or an allocation can end. All later results about
sessions go through them.
-/

namespace RegAlloc

namespace Session

/-- The summary of the liveness pass that an analysis over `f` makes. -/
def summaryOf (s : Session) (f : Flow) : Summary := (f.solve s.config.maxSweeps s.state.live).1

/-- The live sets that an analysis over `f` leaves. -/
def liveOf (s : Session) (f : Flow) : Liveness := (f.solve s.config.maxSweeps s.state.live).2

/-- Whether an analysis over `f` is refused because its live sets did not converge. -/
def Refuses (s : Session) (f : Flow) : Prop :=
  (s.summaryOf f).converged = false ∧ s.config.strict = true

/-! ## Analysis -/

/-- What an analysis over `f` leaves in `t`, refused or not. -/
structure Analyzed (s : Session) (f : Flow) (t : Session) : Prop where
  state_eq : t.state = { s.state with flow := f, live := s.liveOf f }
  liveness_eq : t.liveness = some (s.summaryOf f)
  status_eq : t.status = s.status
  config_eq : t.config = s.config

theorem buildFlow_eq (s : Session) :
    s.buildFlow = match s.state.program.flow with
      | .error e => (.error e, s)
      | .ok flow =>
        (.ok (), { s with
          state := { s.state with flow }
          stats := { s.stats with flowEdges := flow.edgeCount } }) := by
  rw [buildFlow, Annotated.rebuildFlow_apply]
  cases s.state.program.flow <;> rfl

theorem analyze_of_error {s : Session} {e : FlowError} (h : s.state.program.flow = .error e) :
    s.analyze = (.error (.flow e), s) := by
  simp [analyze, buildFlow_eq, h]

theorem analyze_of_refuses {s : Session} {f : Flow} (h : s.state.program.flow = .ok f)
    (hrefuses : s.Refuses f) :
    ∃ t, s.analyze = (.error (.notConverged (s.summaryOf f).sweeps), t) ∧ s.Analyzed f t ∧
      t.graph = s.graph := by
  obtain ⟨hconverged, hstrict⟩ := hrefuses
  unfold summaryOf at hconverged
  simp only [analyze, buildFlow_eq, h, solve, Annotated.solve,
    hconverged, hstrict, Bool.not_false, Bool.and_self, ite_true]
  exact ⟨_, rfl, ⟨rfl, rfl, rfl, rfl⟩, rfl⟩

theorem analyze_of_not_refuses {s : Session} {f : Flow} (h : s.state.program.flow = .ok f)
    (hrefuses : ¬ s.Refuses f) :
    ∃ t, s.analyze = (.ok (s.summaryOf f), t) ∧ s.Analyzed f t ∧
      t.graph = some (t.state.interference t.config.rule) := by
  have hgo :
      (!(f.solve s.config.maxSweeps s.state.live).1.converged && s.config.strict) = false := by
    simpa [Refuses, summaryOf] using hrefuses
  simp only [analyze, buildFlow_eq, h, solve, Annotated.solve, hgo,
    Bool.false_eq_true, ite_false]
  exact ⟨_, rfl, ⟨rfl, rfl, rfl, rfl⟩, rfl⟩

theorem analyzed_analyze {s : Session} {f : Flow} (h : s.state.program.flow = .ok f) :
    s.Analyzed f s.analyze.2 := by
  by_cases hrefuses : s.Refuses f
  · obtain ⟨t, heq, ht, _⟩ := analyze_of_refuses h hrefuses
    rwa [heq]
  · obtain ⟨t, heq, ht, _⟩ := analyze_of_not_refuses h hrefuses
    rwa [heq]

/-! ## Allocation -/

/-- What an allocation over `f` that came to its end leaves in `t`. -/
structure Completed (s : Session) (f : Flow) (status : Status) (t : Session) : Prop where
  program_flow : s.state.program.flow = .ok f
  accepted : ¬ s.Refuses f
  allocate?_eq : s.state.program.allocate? s.config.palette
    (s.state.program.interference f (s.liveOf f) s.config.rule) = some status
  state_eq : t.state = ⟨s.state.program, f, s.liveOf f, status.slots s.state.program.registerCount⟩
  graph_eq : t.graph = some (s.state.program.interference f (s.liveOf f) s.config.rule)
  liveness_eq : t.liveness = some (s.summaryOf f)
  status_eq : t.status = some status
  config_eq : t.config = s.config

theorem allocate_of_error {s : Session} {e : FlowError} (h : s.state.program.flow = .error e) :
    s.allocate = (.error (.flow e), s) := by
  simp [allocate, analyze_of_error h]

theorem allocate_of_refuses {s : Session} {f : Flow} (h : s.state.program.flow = .ok f)
    (hrefuses : s.Refuses f) :
    ∃ t, s.allocate = (.error (.notConverged (s.summaryOf f).sweeps), t) ∧ s.Analyzed f t ∧
      t.graph = s.graph := by
  obtain ⟨t, heq, ht⟩ := analyze_of_refuses h hrefuses
  exact ⟨t, by simp [allocate, heq], ht⟩

/-- The interference graph has a node for each register variable, so an analysis that is not refused
leads to a status. -/
theorem allocate_of_not_refuses {s : Session} {f : Flow} (h : s.state.program.flow = .ok f)
    (hrefuses : ¬ s.Refuses f) :
    ∃ status t, s.allocate = (.ok status, t) ∧ s.Completed f status t := by
  obtain ⟨t, heq, ht, hgraph⟩ := analyze_of_not_refuses h hrefuses
  have hconflicts : t.state.interference t.config.rule =
      s.state.program.interference f (s.liveOf f) s.config.rule := by
    rw [Annotated.interference, ht.state_eq, ht.config_eq]
  rw [hconflicts] at hgraph
  obtain ⟨status, hstatus⟩ := s.state.program.exists_allocate? s.config.palette
    (s.state.program.size_interference f (s.liveOf f) s.config.rule)
  have hcolor : t.color = (.ok status, { t with
      state := { t.state with slots := status.slots s.state.program.registerCount }
      status := some status
      stats := { t.stats with registersUsed := status.registersUsed } }) := by
    simp [color, hgraph, Annotated.allocate?, ht.state_eq, ht.config_eq, hstatus]
  refine ⟨status, _, by simp only [allocate, heq]; exact hcolor, ?_⟩
  exact ⟨h, hrefuses, hstatus, by simp [ht.state_eq], hgraph, ht.liveness_eq, rfl, ht.config_eq⟩

theorem completed_of_allocate {s t : Session} {status : Status}
    (h : s.allocate = (.ok status, t)) : ∃ f, s.Completed f status t := by
  cases hflow : s.state.program.flow with
  | error e =>
      rw [allocate_of_error hflow] at h
      cases h
  | ok f =>
      by_cases hrefuses : s.Refuses f
      · obtain ⟨t', heq, _⟩ := allocate_of_refuses hflow hrefuses
        rw [heq] at h
        cases h
      · obtain ⟨status', t', heq, hcompleted⟩ := allocate_of_not_refuses hflow hrefuses
        rw [heq] at h
        cases h
        exact ⟨f, hcompleted⟩

/-- A completed allocation that succeeded colors the graph that it leaves. -/
theorem Completed.validColoring {s t : Session} {f : Flow} {c : Coloring}
    (h : s.Completed f (.allocated c) t) :
    (s.state.program.interference f (s.liveOf f) s.config.rule).ValidColoring s.config.palette
      t.state.slots := by
  rw [h.state_eq]
  exact Program.allocate?_validColoring (Program.interference_undirected _ _ _ _)
    (Program.size_interference _ _ _ _) h.allocate?_eq

end Session

end RegAlloc
