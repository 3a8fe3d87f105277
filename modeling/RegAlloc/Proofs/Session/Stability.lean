import RegAlloc.Proofs.Session.Output

/-!
# Stability of converged sessions

Once the live sets of a session have converged, a further analysis makes one sweep and finds the
same control-flow graph, live sets and interference graph. An allocation depends on nothing else, so
all later ones end with the same status, slots and output.
-/

namespace RegAlloc.Session

variable {s t : Session} {f : Flow} {g : Graph} {status : Status}

/-! ## The results of the calls -/

/-- The session after an analysis over `f` that is not refused. -/
def analyzed (s : Session) (f : Flow) : Session :=
  let state := { s.state with flow := f, live := s.liveOf f }
  let graph := state.interference s.config.rule
  { s with
    state
    graph := some graph
    liveness := some (s.summaryOf f)
    stats := { s.stats with
      flowEdges := f.edgeCount
      sweeps := (s.summaryOf f).sweeps
      converged := (s.summaryOf f).converged
      interferenceEdges := graph.edgeCount } }

/-- The session after an allocation that came to an end with `status`. -/
def colored (s : Session) (status : Status) : Session :=
  { s with
    state := { s.state with slots := status.slots s.state.program.registerCount }
    status := some status
    stats := { s.stats with registersUsed := status.registersUsed } }

theorem colored_colored (s : Session) (status : Status) :
    (s.colored status).colored status = s.colored status :=
  rfl

theorem analyze_eq (hflow : s.state.program.flow = .ok f) (haccepted : ¬ s.Refuses f) :
    s.analyze = (.ok (s.summaryOf f), s.analyzed f) := by
  have hgo : (!(f.solve s.config.maxSweeps s.state.live).1.converged && s.config.strict) = false := by
    simpa [Refuses, summaryOf] using haccepted
  simp only [analyze, buildFlow_eq, hflow, solve, Annotated.solve, hgo,
    Bool.false_eq_true, ite_false]
  rfl

theorem allocate_eq (hflow : s.state.program.flow = .ok f) (haccepted : ¬ s.Refuses f)
    (hstatus : s.state.program.allocate? s.config.palette
      (s.state.program.interference f (s.liveOf f) s.config.rule) = some status) :
    s.allocate = (.ok status, (s.analyzed f).colored status) := by
  have hgraph : (s.analyzed f).graph =
      some (s.state.program.interference f (s.liveOf f) s.config.rule) := rfl
  have hcolor : (s.analyzed f).state.allocate? (s.analyzed f).config.palette
      (s.state.program.interference f (s.liveOf f) s.config.rule) =
        some (status, ((s.analyzed f).colored status).state) := by
    simp [Annotated.allocate?, analyzed, colored, hstatus]
  rw [allocate, analyze_eq hflow haccepted]
  simp only [color, hgraph, hcolor]
  rfl

/-! ## Settled sessions whose counters are up to date -/

/-- A settled session with graph `g`, whose counters are those of its results. -/
structure Stable (s : Session) (f : Flow) (g : Graph) : Prop extends s.Settled f where
  graph_some : s.graph = some g
  flowEdges_eq : s.stats.flowEdges = f.edgeCount
  converged_eq : s.stats.converged = true
  interferenceEdges_eq : s.stats.interferenceEdges = g.edgeCount

/-- `t` has the results of the analysis of `s`, and the counters that go with them. -/
structure SameAnalysis (s t : Session) : Prop where
  config_eq : t.config = s.config
  program_eq : t.state.program = s.state.program
  flow_eq : t.state.flow = s.state.flow
  live_eq : t.state.live = s.state.live
  graph_eq : t.graph = s.graph
  flowEdges_eq : t.stats.flowEdges = s.stats.flowEdges
  converged_eq : t.stats.converged = s.stats.converged
  interferenceEdges_eq : t.stats.interferenceEdges = s.stats.interferenceEdges

theorem SameAnalysis.refl (s : Session) : s.SameAnalysis s := ⟨rfl, rfl, rfl, rfl, rfl, rfl, rfl, rfl⟩

theorem SameAnalysis.trans {r : Session} (h : r.SameAnalysis s) (h' : s.SameAnalysis t) :
    r.SameAnalysis t where
  config_eq := h'.config_eq.trans h.config_eq
  program_eq := h'.program_eq.trans h.program_eq
  flow_eq := h'.flow_eq.trans h.flow_eq
  live_eq := h'.live_eq.trans h.live_eq
  graph_eq := h'.graph_eq.trans h.graph_eq
  flowEdges_eq := h'.flowEdges_eq.trans h.flowEdges_eq
  converged_eq := h'.converged_eq.trans h.converged_eq
  interferenceEdges_eq := h'.interferenceEdges_eq.trans h.interferenceEdges_eq

theorem Stable.of_sameAnalysis (h : s.Stable f g) (hsame : s.SameAnalysis t) : t.Stable f g where
  program_flow := by rw [hsame.program_eq]; exact h.program_flow
  flow_eq := hsame.flow_eq.trans h.flow_eq
  isFixedPoint := by rw [hsame.live_eq]; exact h.isFixedPoint
  cap_pos := by rw [hsame.config_eq]; exact h.cap_pos
  graph_eq := by
    rw [hsame.graph_eq, h.graph_eq, Annotated.interference, Annotated.interference,
      hsame.program_eq, hsame.flow_eq, hsame.live_eq, hsame.config_eq]
  graph_some := hsame.graph_eq.trans h.graph_some
  flowEdges_eq := hsame.flowEdges_eq.trans h.flowEdges_eq
  converged_eq := hsame.converged_eq.trans h.converged_eq
  interferenceEdges_eq := hsame.interferenceEdges_eq.trans h.interferenceEdges_eq

/-- An analysis whose live sets converge leaves a stable session. -/
theorem stable_analyzed (hflow : s.state.program.flow = .ok f)
    (hconverged : (s.summaryOf f).converged = true) :
    ∃ g, (s.analyzed f).Stable f g :=
  ⟨_, { program_flow := hflow
        flow_eq := rfl
        isFixedPoint := Flow.isFixedPoint_solve hconverged
        cap_pos := Flow.pos_of_converged hconverged
        graph_eq := rfl
        graph_some := rfl
        flowEdges_eq := rfl
        converged_eq := hconverged
        interferenceEdges_eq := rfl }⟩

theorem sameAnalysis_colored (s : Session) (status : Status) : s.SameAnalysis (s.colored status) :=
  ⟨rfl, rfl, rfl, rfl, rfl, rfl, rfl, rfl⟩

namespace Stable

variable (h : s.Stable f g)

include h

theorem interference_eq : s.state.program.interference f (s.liveOf f) s.config.rule = g := by
  have hgraph := h.graph_eq.symm.trans h.graph_some
  rw [Option.some.injEq, Annotated.interference, h.flow_eq, ← h.liveOf_eq] at hgraph
  exact hgraph

theorem summaryOf_eq : s.summaryOf f = ⟨1, true⟩ := congrArg Prod.fst h.solve_eq

/-- An analysis of a stable session finds what is there. -/
theorem sameAnalysis_analyzed : s.SameAnalysis (s.analyzed f) where
  config_eq := rfl
  program_eq := rfl
  flow_eq := h.flow_eq.symm
  live_eq := h.liveOf_eq
  graph_eq := (congrArg some h.interference_eq).trans h.graph_some.symm
  flowEdges_eq := h.flowEdges_eq.symm
  converged_eq := (congrArg Summary.converged h.summaryOf_eq).trans h.converged_eq.symm
  interferenceEdges_eq :=
    (congrArg Graph.edgeCount h.interference_eq).trans h.interferenceEdges_eq.symm

theorem analyze_eq_ok : s.analyze = (.ok ⟨1, true⟩, s.analyzed f) := by
  rw [analyze_eq h.program_flow h.not_refuses, h.summaryOf_eq]

theorem allocate_eq_ok (hstatus : s.state.program.allocate? s.config.palette g = some status) :
    s.allocate = (.ok status, (s.analyzed f).colored status) := by
  apply allocate_eq h.program_flow h.not_refuses
  rw [h.interference_eq]
  exact hstatus

theorem exists_status : ∃ status, s.state.program.allocate? s.config.palette g = some status := by
  apply s.state.program.exists_allocate? s.config.palette
  rw [← h.interference_eq]
  exact Program.size_interference _ _ _ _

/-! ## Later calls -/

theorem sameAnalysis_perform (c : Call) : s.SameAnalysis (s.perform c) := by
  obtain ⟨status, hstatus⟩ := h.exists_status
  have hallocate : s.SameAnalysis s.allocate.2 := by
    rw [h.allocate_eq_ok hstatus]
    exact h.sameAnalysis_analyzed.trans ((s.analyzed f).sameAnalysis_colored status)
  cases c with
  | analyze =>
      rw [perform, h.analyze_eq_ok]
      exact h.sameAnalysis_analyzed
  | allocate => exact hallocate
  | succeed => exact hallocate

theorem sameAnalysis_performAll (calls : List Call) : s.SameAnalysis (s.performAll calls) := by
  induction calls generalizing s with
  | nil => exact SameAnalysis.refl s
  | cons c calls ih =>
      have hsame := h.sameAnalysis_perform c
      exact hsame.trans (ih (h.of_sameAnalysis hsame))

end Stable

/-! ## The first call that converges -/

theorem performAll_of_error {e : FlowError} (hflow : s.state.program.flow = .error e)
    (calls : List Call) : s.performAll calls = s := by
  induction calls with
  | nil => rfl
  | cons c calls ih =>
      rw [performAll, List.foldl_cons, perform_of_error hflow]
      exact ih

/-- The slots of an allocation are written down, and the rest is the analysis. -/
theorem perform_of_converged (hflow : s.state.program.flow = .ok f)
    (hconverged : (s.summaryOf f).converged = true) (c : Call) :
    ∃ g status, (s.perform c).Stable f g ∧
      s.state.program.allocate? s.config.palette g = some status ∧
      (c ≠ .analyze → s.perform c = (s.analyzed f).colored status) := by
  obtain ⟨g, hstable⟩ := stable_analyzed hflow hconverged
  have haccepted : ¬ s.Refuses f := fun hrefuses => by
    rw [hrefuses.1] at hconverged
    cases hconverged
  obtain ⟨status, hstatus⟩ := hstable.exists_status
  have hgraph : s.state.program.interference f (s.liveOf f) s.config.rule = g :=
    Option.some.inj hstable.graph_some
  have hallocate : s.allocate = (.ok status, (s.analyzed f).colored status) :=
    allocate_eq hflow haccepted (by rw [hgraph]; exact hstatus)
  have hcolored := hstable.of_sameAnalysis ((s.analyzed f).sameAnalysis_colored status)
  refine ⟨g, status, ?_, hstatus, ?_⟩
  · cases c with
    | analyze => rwa [perform, analyze_eq hflow haccepted]
    | allocate => rwa [perform, hallocate]
    | succeed => simpa [perform, succeed, hallocate] using hcolored
  · intro hc
    cases c with
    | analyze => exact absurd rfl hc
    | allocate => rw [perform, hallocate]
    | succeed => simp [perform, succeed, hallocate]

/-- The output after an allocation depends on the analysis and the status. -/
theorem SameAnalysis.output_colored (h : s.SameAnalysis t) (status : Status) :
    (t.colored status).output = (s.colored status).output := by
  have hstate : (t.colored status).state = (s.colored status).state := by
    simp only [colored, h.program_eq, h.flow_eq, h.live_eq]
  have hconfig : (t.colored status).config = (s.colored status).config := h.config_eq
  have hassembly : (t.colored status).assembly = (s.colored status).assembly := by
    rw [assembly, assembly, hstate, hconfig]
  have hended : (t.colored status).isAllocated = (s.colored status).isAllocated := rfl
  rw [output, output, hended, hassembly]

theorem Stable.performAll_allocate (h : s.Stable f g)
    (hstatus : s.state.program.allocate? s.config.palette g = some status) (later : List Call) :
    ∃ t, (s.performAll later).allocate = (.ok status, t) ∧
      (s.performAll later).succeed = (.ok status.isSuccess, t) ∧
      t.state.slots = status.slots s.state.program.registerCount ∧
      t.output = (s.colored status).output := by
  have hsame := h.sameAnalysis_performAll later
  have hlater := h.of_sameAnalysis hsame
  rw [← hsame.program_eq, ← hsame.config_eq] at hstatus
  have hallocate := hlater.allocate_eq_ok hstatus
  refine ⟨_, hallocate, by simp [succeed, hallocate, Except.map], ?_, ?_⟩
  · change status.slots (s.performAll later).state.program.registerCount = _
    rw [hsame.program_eq]
  · exact (hsame.trans hlater.sameAnalysis_analyzed).output_colored status

/-- Once the live sets of a session have converged, later calls change nothing that an analysis
found, and all later allocations end in the same way. -/
theorem converged_analysis_stable {a : Annotated} {config : Config} {calls : List Call}
    {summary : Summary}
    (h : ((ofAnnotated a config).performAll calls).liveness = some summary)
    (hconverged : summary.converged = true) :
    let s := (ofAnnotated a config).performAll calls
    s.graph.isSome = true ∧
    ∃ status slots output,
      (∀ later, s.SameAnalysis (s.performAll later) ∧
        (s.performAll later).analyze.1 = .ok ⟨1, true⟩ ∧
        ∃ t, (s.performAll later).allocate = (.ok status, t) ∧
          (s.performAll later).succeed = (.ok status.isSuccess, t) ∧
          t.state.slots = slots ∧ t.output = output) ∧
      ∀ before call, calls = before ++ [call] → call ≠ .analyze →
        s.status = some status ∧ s.state.slots = slots ∧ s.output = output := by
  intro s
  cases hflow : a.program.flow with
  | error e =>
      rw [performAll_of_error hflow] at h
      cases h
  | ok f =>
      cases calls using List.reverseRecOn with
      | nil => cases h
      | append_singleton before call =>
          have hlast : s = ((ofAnnotated a config).performAll before).perform call :=
            performAll_append (ofAnnotated a config) before [call]
          have hprogram : ((ofAnnotated a config).performAll before).state.program.flow = .ok f := by
            rw [program_performAll]
            exact hflow
          have hliveness := (perform_analysis hprogram call).2.1
          rw [← hlast] at hliveness
          obtain rfl := Option.some.inj (hliveness.symm.trans h)
          obtain ⟨g, status, hstable, hstatus, hcolored⟩ :=
            perform_of_converged hprogram hconverged call
          rw [← program_perform _ call, ← config_perform _ call] at hstatus
          rw [← hlast] at hstable hstatus hcolored
          refine ⟨by rw [hstable.graph_some]; rfl, status,
            status.slots s.state.program.registerCount, (s.colored status).output, ?_, ?_⟩
          · intro later
            have hsame := hstable.sameAnalysis_performAll later
            refine ⟨hsame, ?_, hstable.performAll_allocate hstatus later⟩
            rw [(hstable.of_sameAnalysis hsame).analyze_eq_ok]
          · intro before' call' heq hcall
            obtain ⟨_, rfl⟩ := List.append_singleton_inj.mp heq
            -- the slots that the allocation wrote down are those that a second one would write
            rw [hcolored hcall, colored_colored]
            exact ⟨rfl, rfl, rfl⟩

/-- An instruction that repeats itself. -/
def repeatText : String := "_reg r1; _func main; top: bltz r1, top;"

/-- Two sweeps do not find out that a loop is solved, so the live sets converge in the second call. -/
theorem loop_stable_after_second_call :
    ∃ p, Program.parse repeatText = .ok p ∧
      let s := (ofAnnotated (.ofProgram p) { maxSweeps := 2 }).performAll [.analyze, .allocate]
      s.liveness = some ⟨1, true⟩ ∧ s.SameAnalysis (s.performAll [.succeed, .analyze]) ∧
      ∃ t, (s.performAll [.succeed, .analyze]).allocate.2 = t ∧
        t.state.slots = s.state.slots ∧ t.output = s.output := by
  obtain ⟨p, hparse, hliveness⟩ : ∃ p, Program.parse repeatText = .ok p ∧
      ((ofAnnotated (.ofProgram p) { maxSweeps := 2 }).performAll [.analyze, .allocate]).liveness =
        some ⟨1, true⟩ :=
    exists_ok_of_decide (by decide +kernel)
  obtain ⟨_, status, slots, output, hlater, hnow⟩ := converged_analysis_stable hliveness rfl
  obtain ⟨hsame, _, t, hallocate, _, hslots, houtput⟩ := hlater [.succeed, .analyze]
  obtain ⟨_, hslots', houtput'⟩ := hnow [.analyze] .allocate rfl (by decide)
  exact ⟨p, hparse, hliveness, hsame, t, by rw [hallocate], hslots.trans hslots'.symm,
    houtput.trans houtput'.symm⟩

end RegAlloc.Session
