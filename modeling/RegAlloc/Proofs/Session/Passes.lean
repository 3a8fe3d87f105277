import RegAlloc.Proofs.Session.Semantics

/-!
# Sequences of passes

A program goes through passes in any order: passes over the program itself, the calls of a session,
and new sessions over what earlier ones left. The live sets are never cleared on the way; they stay
sound, and are exact after each liveness pass over the control-flow graph that converges.
-/

namespace RegAlloc

/-- The calls that change a session. -/
inductive Call where
  | analyze
  | allocate
  | succeed
deriving DecidableEq, Repr

/-- One step on a program: a pass over it, a new session, or a call of the current session. -/
inductive Pass where
  | buildFlow
  | solve (cap : Nat)
  | interfere (rule : Rule)
  | color (palette : Palette) (graph : Graph)
  | reopen (config : Config)
  | call (c : Call)

/-- Whether the step begins with building the control-flow graph. -/
def Pass.builds : Pass → Bool
  | .buildFlow | .call _ => true
  | .solve _ | .interfere _ | .color _ _ | .reopen _ => false

namespace Session

/-- The session after a call. -/
def perform (s : Session) : Call → Session
  | .analyze => s.analyze.2
  | .allocate => s.allocate.2
  | .succeed => s.succeed.2

/-- The session after some calls. -/
def performAll (s : Session) (calls : List Call) : Session := calls.foldl perform s

/-- The session that a step leaves, refused or not. An interference graph is returned and not
kept. -/
def apply (s : Session) : Pass → Session
  | .buildFlow => { s with state := stateAfter Annotated.rebuildFlow s.state }
  | .solve cap => { s with state := (s.state.solve cap).2 }
  | .interfere _ => s
  | .color palette graph =>
    match s.state.allocate? palette graph with
    | some (_, state) => { s with state }
    | none => s
  | .reopen config => ofAnnotated s.state config
  | .call c => s.perform c

/-- The session after some steps. -/
def applyAll (s : Session) (passes : List Pass) : Session := passes.foldl apply s

/-- The summary that the liveness pass of a step reports, if the step has one. -/
def report? (s : Session) : Pass → Option Summary
  | .solve cap => some (s.state.solve cap).1
  | .call c => (s.perform c).liveness
  | .buildFlow | .interfere _ | .color _ _ | .reopen _ => none

theorem apply_buildFlow (s : Session) :
    s.apply .buildFlow = match s.state.program.flow with
      | .error _ => s
      | .ok flow => { s with state := { s.state with flow } } := by
  rw [apply, stateAfter, Annotated.rebuildFlow_apply]
  cases s.state.program.flow <;> rfl

/-! ## Calls -/

theorem perform_of_error {s : Session} {e : FlowError} (h : s.state.program.flow = .error e)
    (c : Call) : s.perform c = s := by
  cases c with
  | analyze => rw [perform, analyze_of_error h]
  | allocate => rw [perform, allocate_of_error h]
  | succeed => simp [perform, succeed, allocate_of_error h]

/-- Every call leaves the control-flow graph and live sets of an analysis, whatever it answers. -/
theorem perform_analysis {s : Session} {f : Flow} (h : s.state.program.flow = .ok f) (c : Call) :
    (∃ slots, (s.perform c).state = ⟨s.state.program, f, s.liveOf f, slots⟩) ∧
      (s.perform c).liveness = some (s.summaryOf f) ∧ (s.perform c).config = s.config := by
  have hallocate : (∃ slots, s.allocate.2.state = ⟨s.state.program, f, s.liveOf f, slots⟩) ∧
      s.allocate.2.liveness = some (s.summaryOf f) ∧ s.allocate.2.config = s.config := by
    by_cases hrefuses : s.Refuses f
    · obtain ⟨t, heq, ht, _⟩ := allocate_of_refuses h hrefuses
      rw [heq]
      exact ⟨⟨_, ht.state_eq⟩, ht.liveness_eq, ht.config_eq⟩
    · obtain ⟨status, t, heq, ht⟩ := allocate_of_not_refuses h hrefuses
      rw [heq]
      exact ⟨⟨_, ht.state_eq⟩, ht.liveness_eq, ht.config_eq⟩
  cases c with
  | analyze =>
      have ht := analyzed_analyze h
      exact ⟨⟨_, ht.state_eq⟩, ht.liveness_eq, ht.config_eq⟩
  | allocate => exact hallocate
  | succeed => exact hallocate

theorem program_perform (s : Session) (c : Call) :
    (s.perform c).state.program = s.state.program := by
  cases hflow : s.state.program.flow with
  | error e => rw [perform_of_error hflow]
  | ok f =>
      obtain ⟨⟨slots, hstate⟩, _⟩ := perform_analysis hflow c
      rw [hstate]

theorem config_perform (s : Session) (c : Call) : (s.perform c).config = s.config := by
  cases hflow : s.state.program.flow with
  | error e => rw [perform_of_error hflow]
  | ok f => exact (perform_analysis hflow c).2.2

theorem performAll_append (s : Session) (calls rest : List Call) :
    s.performAll (calls ++ rest) = (s.performAll calls).performAll rest :=
  List.foldl_append

theorem program_performAll (s : Session) (calls : List Call) :
    (s.performAll calls).state.program = s.state.program := by
  induction calls generalizing s with
  | nil => rfl
  | cons c calls ih => exact (ih (s.perform c)).trans (s.program_perform c)

theorem config_performAll (s : Session) (calls : List Call) :
    (s.performAll calls).config = s.config := by
  induction calls generalizing s with
  | nil => rfl
  | cons c calls ih => exact (ih (s.perform c)).trans (s.config_perform c)

theorem program_apply (s : Session) (pass : Pass) :
    (s.apply pass).state.program = s.state.program := by
  cases pass with
  | buildFlow =>
      rw [apply_buildFlow]
      cases s.state.program.flow <;> rfl
  | color palette graph =>
      simp only [apply, Annotated.allocate?]
      cases s.state.program.allocate? palette graph <;> rfl
  | call c => exact s.program_perform c
  | solve cap => rfl
  | interfere rule => rfl
  | reopen config => rfl

theorem program_applyAll (s : Session) (passes : List Pass) :
    (s.applyAll passes).state.program = s.state.program := by
  induction passes generalizing s with
  | nil => rfl
  | cons pass passes ih => exact (ih (s.apply pass)).trans (s.program_apply pass)

/-! ## Soundness along every sequence -/

/-- A session over `p`, whose control-flow graph is `f`. The graph may not have been built yet; the
live sets hold only what is live along its paths. -/
structure Tracks (s : Session) (p : Program) (f : Flow) : Prop where
  program_eq : s.state.program = p
  flow_eq : s.state.flow = f ∨ s.state.flow = .blank p.size
  size_live : s.state.live.size = p.size
  sound : s.state.live.Sound f

theorem tracks_ofProgram (p : Program) (f : Flow) (config : Config) :
    (ofAnnotated (.ofProgram p) config).Tracks p f :=
  ⟨rfl, Or.inr rfl, Liveness.size_blank p.size, Liveness.sound_blank p.size f⟩

theorem Tracks.perform {s : Session} {p : Program} {f : Flow} (h : s.Tracks p f)
    (hflow : p.flow = .ok f) (c : Call) : (s.perform c).Tracks p f := by
  obtain ⟨⟨slots, hstate⟩, _⟩ := perform_analysis (h.program_eq ▸ hflow) c
  refine ⟨by rw [hstate]; exact h.program_eq, Or.inl (by rw [hstate]), ?_, ?_⟩
  · rw [hstate]
    exact (f.size_solve s.config.maxSweeps s.state.live).trans h.size_live
  · rw [hstate]
    exact Flow.sound_solve s.config.maxSweeps h.sound

theorem Tracks.apply {s : Session} {p : Program} {f : Flow} (h : s.Tracks p f)
    (hflow : p.flow = .ok f) (pass : Pass) : (s.apply pass).Tracks p f := by
  cases pass with
  | buildFlow =>
      rw [apply_buildFlow, h.program_eq, hflow]
      exact ⟨h.program_eq, Or.inl rfl, h.size_live, h.sound⟩
  | solve cap =>
      refine ⟨h.program_eq, h.flow_eq, ?_, ?_⟩
      · exact (s.state.flow.size_solve cap s.state.live).trans h.size_live
      · change (s.state.flow.solve cap s.state.live).2.Sound f
        rcases h.flow_eq with heq | heq
        · rw [heq]
          exact Flow.sound_solve cap h.sound
        · rw [heq]
          exact Flow.sound_solve_blank p.size cap h.sound
  | interfere rule => exact h
  | color palette graph =>
      simp only [Session.apply, Annotated.allocate?]
      cases s.state.program.allocate? palette graph with
      | none => exact h
      | some status => exact ⟨h.program_eq, h.flow_eq, h.size_live, h.sound⟩
  | reopen config => exact ⟨h.program_eq, h.flow_eq, h.size_live, h.sound⟩
  | call c => exact h.perform hflow c

theorem Tracks.applyAll {s : Session} {p : Program} {f : Flow} (h : s.Tracks p f)
    (hflow : p.flow = .ok f) (passes : List Pass) : (s.applyAll passes).Tracks p f := by
  induction passes generalizing s with
  | nil => exact h
  | cons pass passes ih => exact ih (h.apply hflow pass)

/-! ## The control-flow graph, once built, stays -/

theorem Tracks.flow_apply {s : Session} {p : Program} {f : Flow} (h : s.Tracks p f)
    (hflow : p.flow = .ok f) (pass : Pass) (hbuilt : pass.builds = true ∨ s.state.flow = f) :
    (s.apply pass).state.flow = f := by
  cases pass with
  | buildFlow =>
      rw [apply_buildFlow, h.program_eq, hflow]
  | call c =>
      obtain ⟨⟨slots, hstate⟩, _⟩ := perform_analysis (h.program_eq ▸ hflow) c
      exact congrArg Annotated.flow hstate
  | color palette graph =>
      simp only [Session.apply, Annotated.allocate?]
      cases s.state.program.allocate? palette graph with
      | none => exact hbuilt.resolve_left Bool.false_ne_true
      | some status => exact hbuilt.resolve_left Bool.false_ne_true
  | solve cap => exact hbuilt.resolve_left Bool.false_ne_true
  | interfere rule => exact hbuilt.resolve_left Bool.false_ne_true
  | reopen config => exact hbuilt.resolve_left Bool.false_ne_true

theorem Tracks.flow_applyAll {s : Session} {p : Program} {f : Flow} (h : s.Tracks p f)
    (hflow : p.flow = .ok f) (passes : List Pass)
    (hbuilt : (∃ pass ∈ passes, pass.builds = true) ∨ s.state.flow = f) :
    (s.applyAll passes).state.flow = f := by
  induction passes generalizing s with
  | nil => exact hbuilt.resolve_left (by simp)
  | cons pass passes ih =>
      apply ih (h.apply hflow pass)
      rcases hbuilt with ⟨q, hq, hbuilds⟩ | hbuilt
      · rcases List.mem_cons.mp hq with rfl | hq
        · exact Or.inr (h.flow_apply hflow q (Or.inl hbuilds))
        · exact Or.inl ⟨q, hq, hbuilds⟩
      · exact Or.inr (h.flow_apply hflow pass (Or.inr hbuilt))

/-! ## Exactness after convergence -/

theorem Tracks.exact_of_converged {s : Session} {p : Program} {f : Flow} (h : s.Tracks p f)
    (hflow : p.flow = .ok f) {cap : Nat}
    (hconverged : (f.solve cap s.state.live).1.converged = true) :
    (f.solve cap s.state.live).2.Exact f := by
  have hsize : f.size = s.state.live.size := (Program.size_flow hflow).trans h.size_live.symm
  apply (Flow.sound_solve cap h.sound).exact
  exact Flow.solves_of_converged (Nat.le_of_eq hsize) hconverged

theorem Tracks.exact_apply {s : Session} {p : Program} {f : Flow} (h : s.Tracks p f)
    (hflow : p.flow = .ok f) {pass : Pass} {summary : Summary}
    (hbuilt : pass.builds = true ∨ s.state.flow = f) (hreport : s.report? pass = some summary)
    (hconverged : summary.converged = true) : (s.apply pass).state.live.Exact f := by
  cases pass with
  | solve cap =>
      have heq : s.state.flow = f := hbuilt.resolve_left Bool.false_ne_true
      cases hreport
      change (s.state.flow.solve cap s.state.live).2.Exact f
      change (s.state.flow.solve cap s.state.live).1.converged = true at hconverged
      rw [heq] at hconverged ⊢
      exact h.exact_of_converged hflow hconverged
  | call c =>
      obtain ⟨⟨slots, hstate⟩, hliveness, _⟩ := perform_analysis (h.program_eq ▸ hflow) c
      change (s.perform c).liveness = some summary at hreport
      change (s.perform c).state.live.Exact f
      rw [hliveness] at hreport
      cases hreport
      rw [hstate]
      exact h.exact_of_converged hflow hconverged
  | buildFlow => cases hreport
  | interfere rule => cases hreport
  | color palette graph => cases hreport
  | reopen config => cases hreport

/-- After any steps the live sets hold only registers that are live along some path, and a liveness
pass that comes after the control-flow graph was built and converges makes them exact. -/
theorem live_sets_of_passes {p : Program} {f : Flow} (hflow : p.flow = .ok f) (config : Config)
    (passes : List Pass) :
    let s := (ofAnnotated (.ofProgram p) config).applyAll passes
    s.state.live.Sound f ∧
      ∀ (pass : Pass) (summary : Summary),
        (pass.builds = true ∨ ∃ q ∈ passes, q.builds = true) → s.report? pass = some summary →
        summary.converged = true → (s.apply pass).state.live.Exact f := by
  have hstart := tracks_ofProgram p f config
  have htracks := hstart.applyAll hflow passes
  refine ⟨htracks.sound, ?_⟩
  intro pass summary hbuilt hreport hconverged
  refine htracks.exact_apply hflow ?_ hreport hconverged
  exact hbuilt.imp_right fun h => hstart.flow_applyAll hflow passes (Or.inl h)

/-- A loop that stores `r1` each time round and writes `r2` in between. One sweep does not find out
that `r1` is live across the write. -/
def loopText : String :=
  "_reg r1; _reg r2; _func main; li r1, 1; top: sw r1, 0(r1); li r2, 2; bltz r2, top;"

/-- A loop that one sweep leaves unsolved is solved from where that sweep stopped. -/
theorem live_sets_of_resumed_solve :
    ∃ p f, Program.parse loopText = .ok p ∧
      p.flow = .ok f ∧
      let s := (ofAnnotated (.ofProgram p) {}).applyAll [.buildFlow, .solve 1]
      (s.apply (.solve 10)).state.live.Exact f := by
  obtain ⟨p, hparse, hok, hreport⟩ : ∃ p, Program.parse loopText = .ok p ∧
      p.flow.isOk = true ∧
      ((ofAnnotated (.ofProgram p) {}).applyAll [.buildFlow, .solve 1]).report? (.solve 10) =
        some ⟨2, true⟩ :=
    exists_ok_of_decide (by decide +kernel)
  cases hflow : p.flow with
  | error e =>
      rw [hflow] at hok
      cases hok
  | ok f =>
      refine ⟨p, f, hparse, hflow, ?_⟩
      have hbuilt : ∃ q ∈ [Pass.buildFlow, Pass.solve 1], q.builds = true :=
        ⟨.buildFlow, List.mem_cons_self, rfl⟩
      exact (live_sets_of_passes hflow {} [.buildFlow, .solve 1]).2 (.solve 10) ⟨2, true⟩
        (Or.inr hbuilt) hreport rfl

end Session

end RegAlloc
