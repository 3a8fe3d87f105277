import Mathlib.Data.List.Induction
import RegAlloc.Proofs.Session.Passes

/-!
# Output and the current graph

A session gives its output after a successful allocation and keeps the slots of that allocation
until the next one. A later analysis may replace the graph that they color. Once the live sets have
converged, nothing that a call computes changes any more.
-/

namespace RegAlloc.Session

/-! ## Settled sessions -/

/-- The control-flow graph is built, the live sets solve their equations, and the graph belongs to
them. -/
structure Settled (s : Session) (f : Flow) : Prop where
  program_flow : s.state.program.flow = .ok f
  flow_eq : s.state.flow = f
  isFixedPoint : f.isFixedPoint s.state.live = true
  cap_pos : 0 < s.config.maxSweeps
  graph_eq : s.graph = some (s.state.interference s.config.rule)

theorem Settled.solve_eq {s : Session} {f : Flow} (h : s.Settled f) :
    f.solve s.config.maxSweeps s.state.live = (⟨1, true⟩, s.state.live) :=
  Flow.solve_of_isFixedPoint h.cap_pos h.isFixedPoint

theorem Settled.liveOf_eq {s : Session} {f : Flow} (h : s.Settled f) :
    s.liveOf f = s.state.live :=
  congrArg Prod.snd h.solve_eq

theorem Settled.not_refuses {s : Session} {f : Flow} (h : s.Settled f) : ¬ s.Refuses f := by
  rintro ⟨hconverged, _⟩
  rw [summaryOf, h.solve_eq] at hconverged
  cases hconverged

theorem Completed.settled {s t : Session} {f : Flow} {status : Status}
    (h : s.Completed f status t) (hconverged : (s.summaryOf f).converged = true) :
    t.Settled f where
  program_flow := by rw [h.state_eq]; exact h.program_flow
  flow_eq := by rw [h.state_eq]
  isFixedPoint := by rw [h.state_eq]; exact Flow.isFixedPoint_solve hconverged
  cap_pos := by rw [h.config_eq]; exact Flow.pos_of_converged hconverged
  graph_eq := by rw [h.graph_eq, Annotated.interference, h.state_eq, h.config_eq]

/-! ## Analyses after an allocation -/

theorem status_perform_analyze (s : Session) : (s.perform .analyze).status = s.status := by
  cases hflow : s.state.program.flow with
  | error e => rw [perform, analyze_of_error hflow]
  | ok f => exact (analyzed_analyze hflow).status_eq

/-- An analysis keeps the slots, and replaces the graph by none other than a graph. -/
theorem perform_analyze_keeps {s : Session} {f : Flow} (h : s.state.program.flow = .ok f) :
    (s.perform .analyze).state.slots = s.state.slots ∧
      (s.graph.isSome = true → (s.perform .analyze).graph.isSome = true) := by
  have ht := analyzed_analyze h
  refine ⟨by rw [perform, ht.state_eq], ?_⟩
  intro hgraph
  by_cases hrefuses : s.Refuses f
  · obtain ⟨t, heq, _, hsame⟩ := analyze_of_refuses h hrefuses
    rw [perform, heq, hsame]
    exact hgraph
  · obtain ⟨t, heq, _, hnew⟩ := analyze_of_not_refuses h hrefuses
    rw [perform, heq, hnew]
    rfl

theorem Settled.perform_analyze {s : Session} {f : Flow} (h : s.Settled f) :
    (s.perform .analyze).Settled f ∧ (s.perform .analyze).graph = s.graph := by
  obtain ⟨t, heq, ht, hgraph⟩ := analyze_of_not_refuses h.program_flow h.not_refuses
  have hstate : t.state = s.state := by
    rw [ht.state_eq, h.liveOf_eq, ← h.flow_eq]
  have hsame : t.graph = s.graph := by
    rw [hgraph, hstate, ht.config_eq, h.graph_eq]
  rw [perform, heq]
  refine ⟨⟨?_, ?_, ?_, ?_, hgraph⟩, hsame⟩
  · rw [hstate]; exact h.program_flow
  · rw [hstate]; exact h.flow_eq
  · rw [hstate]; exact h.isFixedPoint
  · rw [ht.config_eq]; exact h.cap_pos

theorem performAll_analyses_keep {s : Session} {f : Flow} (h : s.state.program.flow = .ok f)
    (hgraph : s.graph.isSome = true) {calls : List Call} (hcalls : ∀ c ∈ calls, c = .analyze) :
    (s.performAll calls).state.slots = s.state.slots ∧
      (s.performAll calls).graph.isSome = true := by
  induction calls generalizing s with
  | nil => exact ⟨rfl, hgraph⟩
  | cons c calls ih =>
      obtain rfl : c = .analyze := hcalls c List.mem_cons_self
      obtain ⟨hslots, hkeep⟩ := perform_analyze_keeps h
      have hrest := ih (s.program_perform .analyze ▸ h) (hkeep hgraph)
        fun d hd => hcalls d (List.mem_cons_of_mem _ hd)
      exact ⟨hrest.1.trans hslots, hrest.2⟩

theorem Settled.performAll_analyses {s : Session} {f : Flow} (h : s.Settled f)
    {calls : List Call} (hcalls : ∀ c ∈ calls, c = .analyze) :
    (s.performAll calls).Settled f ∧ (s.performAll calls).graph = s.graph := by
  induction calls generalizing s with
  | nil => exact ⟨h, rfl⟩
  | cons c calls ih =>
      obtain rfl : c = .analyze := hcalls c List.mem_cons_self
      obtain ⟨hsettled, hgraph⟩ := h.perform_analyze
      have hrest := ih hsettled fun d hd => hcalls d (List.mem_cons_of_mem _ hd)
      exact ⟨hrest.1, hrest.2.trans hgraph⟩

/-! ## The last allocation -/

/-- Of the calls `before ++ call :: after`, the one in the middle allocates successfully and those
after it only analyze. -/
structure LastAllocation (s₀ : Session) (before : List Call) (call : Call) (after : List Call)
    (f : Flow) (c : Coloring) : Prop where
  call_ne : call ≠ .analyze
  after_eq : ∀ d ∈ after, d = .analyze
  completed : (s₀.performAll before).Completed f (.allocated c)
    (s₀.performAll (before ++ [call]))

namespace LastAllocation

variable {s₀ : Session} {before after : List Call} {call : Call} {f : Flow} {c : Coloring}

theorem performAll_eq (s₀ : Session) (before : List Call) (call : Call) (after : List Call) :
    s₀.performAll (before ++ call :: after) =
      (s₀.performAll (before ++ [call])).performAll after := by
  rw [← performAll_append, List.append_assoc, List.singleton_append]

theorem program_flow (h : LastAllocation s₀ before call after f c) :
    s₀.state.program.flow = .ok f := by
  have hflow := h.completed.program_flow
  rwa [program_performAll] at hflow

/-- Under a strict session the live sets of an allocation have converged. -/
theorem settled (h : LastAllocation s₀ before call after f c)
    (hconverged : s₀.config.strict = true ∨
      ((s₀.performAll before).summaryOf f).converged = true) :
    (s₀.performAll (before ++ [call])).Settled f := by
  apply h.completed.settled
  rcases hconverged with hstrict | hconverged
  · by_contra hnot
    apply h.completed.accepted
    rw [Refuses, config_performAll]
    exact ⟨Bool.eq_false_iff.mpr hnot, hstrict⟩
  · exact hconverged

/-- A strict session that has allocated once is settled from then on. -/
theorem not_refuses (h : LastAllocation s₀ before call after f c) :
    ¬ (s₀.performAll (before ++ call :: after)).Refuses f := by
  intro hrefuses
  have hstrict := hrefuses.2
  rw [config_performAll] at hstrict
  have hsettled := ((h.settled (Or.inl hstrict)).performAll_analyses h.after_eq).1
  rw [← performAll_eq] at hsettled
  exact hsettled.not_refuses hrefuses

theorem analyze (h : LastAllocation s₀ before call after f c) :
    LastAllocation s₀ before call (after ++ [.analyze]) f c := by
  refine ⟨h.call_ne, ?_, h.completed⟩
  intro d hd
  rcases List.mem_append.mp hd with hd | hd
  · exact h.after_eq d hd
  · exact List.mem_singleton.mp hd

/-- When later analyses leave the graph of the allocation as it is. -/
theorem graph_eq (h : LastAllocation s₀ before call after f c)
    (hcurrent : after = [] ∨ s₀.config.strict = true ∨
      ∃ summary, (s₀.performAll (before ++ [call])).liveness = some summary ∧
        summary.converged = true) :
    (s₀.performAll (before ++ call :: after)).graph =
      (s₀.performAll (before ++ [call])).graph := by
  rw [performAll_eq]
  rcases hcurrent with rfl | hcurrent
  · rfl
  · have hconverged : s₀.config.strict = true ∨
        ((s₀.performAll before).summaryOf f).converged = true := by
      refine hcurrent.imp_right ?_
      rintro ⟨summary, hsummary, hconverged⟩
      obtain rfl := Option.some.inj (h.completed.liveness_eq.symm.trans hsummary)
      exact hconverged
    exact ((h.settled hconverged).performAll_analyses h.after_eq).2

end LastAllocation

theorem isAllocated_iff {s : Session} :
    s.isAllocated = true ↔ ∃ c, s.status = some (.allocated c) := by
  unfold isAllocated
  cases s.status with
  | none => simp
  | some status => cases status <;> simp [Status.isSuccess]

/-- The status of a session comes from its last allocation: an allocation that an error stops would
have been stopped before, because the program stays and converged live sets do too. -/
theorem exists_lastAllocation {s₀ : Session} (hstart : s₀.status = none) {calls : List Call}
    (h : (s₀.performAll calls).isAllocated = true) :
    ∃ before call after f c, calls = before ++ call :: after ∧
      LastAllocation s₀ before call after f c := by
  induction calls using List.reverseRecOn with
  | nil =>
      obtain ⟨c, hc⟩ := isAllocated_iff.mp h
      rw [performAll, List.foldl_nil, hstart] at hc
      cases hc
  | append_singleton calls call ih =>
      have hlast : s₀.performAll (calls ++ [call]) = (s₀.performAll calls).perform call :=
        performAll_append s₀ calls [call]
      by_cases hcall : call = .analyze
      · subst hcall
        have hbefore : (s₀.performAll calls).isAllocated = true := by
          rw [hlast, isAllocated, status_perform_analyze] at h
          exact h
        obtain ⟨before, call, after, f, c, rfl, hc⟩ := ih hbefore
        exact ⟨before, call, after ++ [.analyze], f, c, by simp, hc.analyze⟩
      · have hallocate : (s₀.performAll calls).perform call = (s₀.performAll calls).allocate.2 := by
          cases call with
          | analyze => exact absurd rfl hcall
          | allocate => rfl
          | succeed => rfl
        rw [hlast, hallocate] at h
        cases hflow : (s₀.performAll calls).state.program.flow with
        | error e =>
            -- the earlier allocation found a control-flow graph, and the program is still the same
            rw [allocate_of_error hflow] at h
            obtain ⟨before, call, after, f, c, rfl, hc⟩ := ih h
            rw [program_performAll, hc.program_flow] at hflow
            cases hflow
        | ok f =>
            by_cases hrefuses : (s₀.performAll calls).Refuses f
            · -- the status would be left over, but only a strict session refuses
              obtain ⟨t, heq, ht, _⟩ := allocate_of_refuses hflow hrefuses
              rw [heq, isAllocated, ht.status_eq] at h
              obtain ⟨before, call, after, f', c, rfl, hc⟩ := ih h
              rw [program_performAll] at hflow
              obtain rfl := Except.ok.inj (hc.program_flow.symm.trans hflow)
              exact absurd hrefuses hc.not_refuses
            · obtain ⟨status, t, heq, ht⟩ := allocate_of_not_refuses hflow hrefuses
              rw [heq] at h
              obtain ⟨c, hc⟩ := isAllocated_iff.mp h
              obtain rfl : status = .allocated c := Option.some.inj (ht.status_eq.symm.trans hc)
              refine ⟨calls, call, [], f, c, rfl, hcall, by simp, ?_⟩
              rw [hlast, hallocate, heq]
              exact ht

/-- Where a session gives its output, the slots color the graph of the last allocation. They color
the graph that the session holds unless an analysis came after an allocation whose live sets had not
converged, which a strict session excludes. -/
theorem output_colors_graph {a : Annotated} {config : Config} {calls : List Call} {text : String}
    (h : ((ofAnnotated a config).performAll calls).output = .ok text) :
    let s := (ofAnnotated a config).performAll calls
    ∃ before call after g last,
      let t := (ofAnnotated a config).performAll (before ++ [call])
      calls = before ++ call :: after ∧ call ≠ .analyze ∧ (∀ d ∈ after, d = .analyze) ∧
        s.graph = some g ∧ t.graph = some last ∧
        s.state.isValidColoring? config.palette last = some true ∧
        ((after = [] ∨ config.strict = true ∨
            ∃ summary, t.liveness = some summary ∧ summary.converged = true) →
          s.state.isValidColoring? config.palette g = some true) := by
  intro s
  have hallocated : s.isAllocated = true := by
    by_contra hnot
    rw [output, ite_cond_eq_false _ _ (eq_false hnot)] at h
    cases h
  obtain ⟨before, call, after, f, c, rfl, hlast⟩ := exists_lastAllocation rfl hallocated
  have hcompleted := hlast.completed
  have hvalid := hcompleted.validColoring
  have hflow := hlast.program_flow
  have hpalette := congrArg Config.palette ((ofAnnotated a config).config_performAll before)
  have hs : s = ((ofAnnotated a config).performAll (before ++ [call])).performAll after :=
    LastAllocation.performAll_eq _ before call after
  obtain ⟨hslots, hgraph⟩ := performAll_analyses_keep
    ((ofAnnotated a config).program_performAll (before ++ [call]) ▸ hflow)
    (by rw [hcompleted.graph_eq]; rfl) hlast.after_eq
  rw [← hs] at hslots hgraph
  rw [← hslots, hpalette] at hvalid
  obtain ⟨g, hg⟩ := Option.isSome_iff_exists.mp hgraph
  refine ⟨before, call, after, g, _, rfl, hlast.call_ne, hlast.after_eq, hg, hcompleted.graph_eq,
    hvalid.isValidColoring?, ?_⟩
  intro hcurrent
  have hsame := hlast.graph_eq hcurrent
  rw [hg, hcompleted.graph_eq] at hsame
  rw [Option.some.inj hsame]
  exact hvalid.isValidColoring?

theorem output_colors_graph_of_strict :
    ∃ p, Program.parse loopText = .ok p ∧
      let s := (ofAnnotated (.ofProgram p) { strict := true }).performAll
        [.analyze, .allocate, .analyze]
      ∃ g, s.graph = some g ∧ s.state.isValidColoring? .standard g = some true := by
  obtain ⟨p, hparse, hallocated⟩ : ∃ p, Program.parse loopText = .ok p ∧
      ((ofAnnotated (.ofProgram p) { strict := true }).performAll
        [.analyze, .allocate, .analyze]).isAllocated = true :=
    exists_ok_of_decide (by decide +kernel)
  refine ⟨p, hparse, ?_⟩
  obtain ⟨_, _, _, g, _, _, _, _, hgraph, _, _, hvalid⟩ :=
    output_colors_graph (ite_cond_eq_true _ _ (eq_true hallocated))
  exact ⟨g, hgraph, hvalid (Or.inr (Or.inl rfl))⟩

/-- A loop carries `r1` over its second instruction, which one sweep does not find out. -/
theorem output_of_stale_slots :
    ∃ p, Program.parse loopText = .ok p ∧
      let s := (ofAnnotated (.ofProgram p) { maxSweeps := 1 }).performAll [.allocate, .analyze]
      s.output = .ok s.assembly ∧
        ∃ g, s.graph = some g ∧ s.state.isValidColoring? s.config.palette g = some false := by
  obtain ⟨p, hparse, hallocated, hinvalid⟩ : ∃ p, Program.parse loopText = .ok p ∧
      let s := (ofAnnotated (.ofProgram p) { maxSweeps := 1 }).performAll [.allocate, .analyze]
      s.isAllocated = true ∧
        s.graph.bind (s.state.isValidColoring? s.config.palette) = some false :=
    exists_ok_of_decide (by decide +kernel)
  refine ⟨p, hparse, ?_, ?_⟩
  · rw [output, ite_cond_eq_true _ _ (eq_true hallocated)]
  · exact Option.bind_eq_some_iff.mp hinvalid

end RegAlloc.Session
