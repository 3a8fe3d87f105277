import RegAlloc.Proofs.Safety.Allocation
import RegAlloc.Proofs.Safety.Emission
import RegAlloc.Proofs.Safety.Records
import RegAlloc.Proofs.Session.Contract

/-!
# Accesses of sessions

A session is asked for analyses, allocations, texts, counters and checks in any order. From reading
the text to the last answer no access to a list, an array or a text is out of range, whatever a
reader of the journal sees: the checked run answers what the session answers.
-/

namespace RegAlloc

namespace Session

/-- What may be asked of a session without naming an index. -/
inductive Operation where
  | analyze
  | allocate
  | succeed
  | output
  | assembly
  | stats
  | displayGraph
  | isFixedPoint
  | isValidColoring
deriving DecidableEq, Repr

/-- All operations, those that change the session last. -/
def Operation.all : List Operation :=
  [.output, .assembly, .stats, .displayGraph, .isFixedPoint, .isValidColoring, .analyze, .allocate,
    .succeed]

/-- What a session answers. Without a graph there is nothing to display or to check. -/
inductive Answer where
  | summary (result : Except SessionError Summary)
  | status (result : Except SessionError Status)
  | success (result : Except SessionError Bool)
  | output (result : Except SessionError String)
  | assembly (text : String)
  | stats (stats : Stats)
  | graph (text : Option String)
  | fixedPoint (holds : Bool)
  | validColoring (result : Option (Option Bool))

/-- The answers that a session gives instead of one that needs an access out of range. -/
def Answer.OutOfRange : Answer → Prop
  | .summary result => result = .error .outOfRange
  | .status result => result = .error .outOfRange
  | .success result => result = .error .outOfRange
  | .output result => result = .error .outOfRange
  | .validColoring result => result = some none
  | .assembly _ | .stats _ | .graph _ | .fixedPoint _ => False

/-- The answer to an operation, and the session afterwards. -/
def answer (s : Session) : Operation → Answer × Session
  | .analyze => s.analyze.map .summary id
  | .allocate => s.allocate.map .status id
  | .succeed => s.succeed.map .success id
  | .output => (.output s.output, s)
  | .assembly => (.assembly s.assembly, s)
  | .stats => (.stats s.stats, s)
  | .displayGraph => (.graph (s.graph.map Graph.render), s)
  | .isFixedPoint => (.fixedPoint s.state.isFixedPoint, s)
  | .isValidColoring =>
    (.validColoring (s.graph.map (s.state.isValidColoring? s.config.palette)), s)

/-- The answers to some operations, one after the other, and the session afterwards. -/
def answers (s : Session) : List Operation → List Answer × Session
  | [] => ([], s)
  | op :: ops =>
    let (a, s) := s.answer op
    (s.answers ops).map (a :: ·) id

/-- The answers to some operations by the session of a text. -/
def run (text : String) (config : Config) (ops : List Operation) :
    Except SourceError (List Answer × Session) :=
  (ofSource text config).map fun s => s.answers ops

/-- The journal of an operation. -/
def journal (s : Session) : Operation → Journal
  | .analyze => s.analyzeJournal
  | .allocate | .succeed => s.allocateJournal
  | .output | .assembly | .stats | .displayGraph | .isFixedPoint | .isValidColoring => []

/-- The journal of some operations. -/
def journals (s : Session) : List Operation → Journal
  | [] => []
  | op :: ops => s.journal op ++ (s.answer op).2.journals ops

/-- The journal of a run. -/
def runJournal (text : String) (config : Config) (ops : List Operation) : Journal :=
  Program.parseJournal text ++
    match ofSource text config with
    | .ok s => s.journals ops
    | .error _ => []

end Session

namespace Checked

/-! ## Sessions -/

def buildFlow (limit : Level) (s : Session) : Option (Except FlowError Unit × Session) := do
  match ← (flow limit s.state.program).run with
  | .error e => return (.error e, s)
  | .ok flow =>
    return (.ok (), { s with
      state := { s.state with flow }
      stats := { s.stats with flowEdges := flow.edgeCount } })

def solve (s : Session) : Option (Summary × Session) := do
  let (summary, live) ← solveFrom s.state.flow s.config.maxSweeps 0 s.state.live
  return (summary, { s with
    state := { s.state with live }
    liveness := some summary
    stats := { s.stats with sweeps := summary.sweeps, converged := summary.converged } })

def interfere (limit : Level) (s : Session) : Option Session := do
  let graph ← interference s.state.program s.state.flow s.state.live s.config.rule
  let _ ← logged .debug limit ((render graph).map fun _ => ())
  return { s with
    graph := some graph
    stats := { s.stats with interferenceEdges := graph.edgeCount } }

def analyze (limit : Level) (s : Session) : Option (Except SessionError Summary × Session) := do
  match ← buildFlow limit s with
  | (.error e, s) => return (.error (.flow e), s)
  | (.ok (), s) =>
    let (summary, s) ← solve s
    if !summary.converged && s.config.strict then
      return (.error (.notConverged summary.sweeps), s)
    else
      let s ← interfere limit s
      return (.ok summary, s)

def color (limit : Level) (s : Session) : Option (Except SessionError Status × Session) :=
  match s.graph with
  | none => return (.error .notAllocated, s)
  | some g => do
    let status ← allocate limit s.state.program s.config.palette g
    return (.ok status, { s with
      state := { s.state with slots := status.slots s.state.program.registerCount }
      status := some status
      stats := { s.stats with registersUsed := status.registersUsed } })

/-- Runs all passes. -/
def compile (limit : Level) (s : Session) : Option (Except SessionError Status × Session) := do
  match ← analyze limit s with
  | (.error e, s) => return (.error e, s)
  | (.ok _, s) => color limit s

def output (s : Session) : Option (Except SessionError String) :=
  if s.isAllocated then do
    let text ← assembly s.state s.config.palette s.config.globl
    return .ok text
  else return .error .notAllocated

def answer (limit : Level) (s : Session) : Session.Operation → Option (Session.Answer × Session)
  | .analyze => do
    let (result, s) ← analyze limit s
    return (.summary result, s)
  | .allocate => do
    let (result, s) ← compile limit s
    return (.status result, s)
  | .succeed => do
    let (result, s) ← compile limit s
    return (.success (result.map Status.isSuccess), s)
  | .output => do
    let result ← output s
    return (.output result, s)
  | .assembly => do
    let text ← assembly s.state s.config.palette s.config.globl
    return (.assembly text, s)
  | .stats => return (.stats s.stats, s)
  | .displayGraph =>
    match s.graph with
    | none => return (.graph none, s)
    | some g => do
      let text ← render g
      return (.graph (some text), s)
  | .isFixedPoint => do
    let holds ← isFixedPoint s.state.flow s.state.live
    return (.fixedPoint holds, s)
  | .isValidColoring =>
    match s.graph with
    | none => return (.validColoring none, s)
    | some g => do
      let valid ← isValidColoring s.state s.config.palette g
      return (.validColoring (some (some valid)), s)

def answers (limit : Level) (s : Session) :
    List Session.Operation → Option (List Session.Answer × Session)
  | [] => return ([], s)
  | op :: ops => do
    let (a, s) ← answer limit s op
    let (as, s) ← answers limit s ops
    return (a :: as, s)

/-- Reads a text and runs some operations on it, and makes the accesses for the records that a
reader of level `limit` sees. -/
def session (limit : Level) (text : String) (config : Config) (ops : List Session.Operation) :
    Checked SourceError (List Session.Answer × Session) := do
  let p ← parse text
  liftM (answers limit (.ofAnnotated (.ofProgram p) config) ops)

end Checked

/-! ## Annotations keep the sizes of their program -/

theorem Status.length_slots (status : Status) (n : Nat) : (status.slots n).length = n := by
  cases status <;> simp [slots]

namespace Session

variable {s : Session} {p : Program} {f : Flow}

/-- A session over `p` with control-flow graph `f`, whose slots and graph have a place for each
register variable. -/
structure Fits (s : Session) (p : Program) (f : Flow) : Prop where
  tracks : s.Tracks p f
  length_slots : s.state.slots.length = p.registerCount
  size_graph : ∀ g, s.graph = some g → g.size = p.registerCount

theorem fits_ofProgram (p : Program) (f : Flow) (config : Config) :
    (ofAnnotated (.ofProgram p) config).Fits p f where
  tracks := tracks_ofProgram p f config
  length_slots := List.length_replicate
  size_graph := nofun

theorem Fits.analyzed {t : Session} (h : s.Fits p f) (ht : s.Analyzed f t) (htracks : t.Tracks p f)
    (hgraph : t.graph = s.graph ∨ t.graph = some (t.state.interference t.config.rule)) :
    t.Fits p f := by
  refine ⟨htracks, ?_, fun g hg => ?_⟩
  · rw [ht.state_eq]
    exact h.length_slots
  · rcases hgraph with heq | heq
    · exact h.size_graph g (heq ▸ hg)
    · obtain rfl := Option.some.inj (heq.symm.trans hg)
      rw [← htracks.program_eq]
      exact Program.size_interference _ _ _ _

theorem Fits.analyze (h : s.Fits p f) (hflow : p.flow = .ok f) : s.analyze.2.Fits p f := by
  have hflow' : s.state.program.flow = .ok f := h.tracks.program_eq ▸ hflow
  have htracks : s.analyze.2.Tracks p f := h.tracks.perform hflow .analyze
  refine h.analyzed (analyzed_analyze hflow') htracks ?_
  by_cases hrefuses : s.Refuses f
  · obtain ⟨t, heq, _, hgraph⟩ := analyze_of_refuses hflow' hrefuses
    rw [heq]
    exact Or.inl hgraph
  · obtain ⟨t, heq, _, hgraph⟩ := analyze_of_not_refuses hflow' hrefuses
    rw [heq]
    exact Or.inr hgraph

theorem Fits.allocate (h : s.Fits p f) (hflow : p.flow = .ok f) : s.allocate.2.Fits p f := by
  have hflow' : s.state.program.flow = .ok f := h.tracks.program_eq ▸ hflow
  have htracks : s.allocate.2.Tracks p f := h.tracks.perform hflow .allocate
  by_cases hrefuses : s.Refuses f
  · obtain ⟨t, heq, ht, hgraph⟩ := allocate_of_refuses hflow' hrefuses
    rw [heq] at htracks ⊢
    exact h.analyzed ht htracks (Or.inl hgraph)
  · obtain ⟨status, t, heq, ht⟩ := allocate_of_not_refuses hflow' hrefuses
    rw [heq] at htracks ⊢
    refine ⟨htracks, ?_, fun g hg => ?_⟩
    · rw [ht.state_eq, ← h.tracks.program_eq]
      exact Status.length_slots _ _
    · obtain rfl := Option.some.inj (ht.graph_eq.symm.trans hg)
      rw [← h.tracks.program_eq]
      exact Program.size_interference _ _ _ _

theorem Fits.answer (h : s.Fits p f) (hflow : p.flow = .ok f) (op : Operation) :
    (s.answer op).2.Fits p f := by
  cases op with
  | analyze => exact h.analyze hflow
  | allocate => exact h.allocate hflow
  | succeed => exact h.allocate hflow
  | _ => exact h

end Session

/-! ## Sessions are safe -/

namespace Checked

section Session

variable {s : Session} {p : Program} {f : Flow}

theorem buildFlow_eq_some (h : s.state.program.Indexed) (limit : Level) :
    buildFlow limit s = some s.buildFlow := by
  rw [buildFlow, (flow_follows h limit).run_eq, Session.buildFlow_eq]
  cases s.state.program.flow <;> rfl

theorem solve_eq_some (hclosed : s.state.flow.Closed)
    (hsize : s.state.live.size = s.state.flow.size) : solve s = some s.solve := by
  rw [solve, solveFrom_eq_some hclosed _ 0 hsize]
  rfl

theorem interfere_eq_some (h : s.state.program.Indexed)
    (hflow : s.state.program.flow = .ok s.state.flow)
    (hsize : s.state.live.size = s.state.program.size) (hsound : s.state.live.Sound s.state.flow)
    (limit : Level) : interfere limit s = some s.interfere := by
  have hlogged : logged .debug limit ((render (s.state.interference s.config.rule)).map
      fun _ => ()) = some () :=
    logged_eq_some (by rw [render_eq_some]; rfl)
  rw [interfere, interference_eq_some h hflow hsize hsound, Option.bind_eq_bind, Option.bind_some]
  exact congrArg (· >>= fun _ => _) hlogged

theorem analyze_eq_some (h : s.Fits p f) (hp : p.Indexed) (hflow : p.flow = .ok f)
    (limit : Level) : analyze limit s = some s.analyze := by
  obtain rfl := h.tracks.program_eq
  have hsize := h.tracks.size_live
  obtain ⟨t, hbuild, ht⟩ :
      ∃ t, s.buildFlow = (.ok (), t) ∧ t.state = { s.state with flow := f } := by
    simp [Session.buildFlow_eq, hflow]
  have hsolve : solve t = some t.solve := by
    refine solve_eq_some ?_ ?_ <;> rw [ht]
    · exact closed_flow hflow
    · exact hsize.trans (Program.size_flow hflow).symm
  have hstate : t.solve.2.state = { s.state with
      flow := f, live := (f.solve t.config.maxSweeps s.state.live).2 } := by
    change { t.state with live := (t.state.flow.solve t.config.maxSweeps t.state.live).2 } = _
    rw [ht]
  -- the sets that a capped solve leaves are still sound, so they hold registers only
  have hinterfere : interfere limit t.solve.2 = some t.solve.2.interfere := by
    refine interfere_eq_some ?_ ?_ ?_ ?_ limit <;> rw [hstate]
    · exact hp
    · exact hflow
    · exact (f.size_solve _ _).trans hsize
    · exact Flow.sound_solve _ h.tracks.sound
  rw [analyze, buildFlow_eq_some hp limit, Session.analyze, hbuild]
  simp only [Option.bind_eq_bind, Option.bind_some, hsolve, hinterfere]
  split <;> rfl

theorem color_eq_some (h : s.Fits p f) (hp : p.Indexed) (limit : Level) :
    color limit s = some s.color := by
  obtain rfl := h.tracks.program_eq
  unfold color Session.color
  cases hgraph : s.graph with
  | none => rfl
  | some g =>
      obtain ⟨status, hstatus, hchecked⟩ :=
        allocate_eq_some hp (h.size_graph g hgraph) limit s.config.palette
      simp [hchecked, Annotated.allocate?, hstatus]

theorem compile_eq_some (h : s.Fits p f) (hp : p.Indexed) (hflow : p.flow = .ok f)
    (limit : Level) : compile limit s = some s.allocate := by
  have hfits := h.analyze hflow
  rw [compile, analyze_eq_some h hp hflow, Option.bind_eq_bind, Option.bind_some, Session.allocate]
  generalize s.analyze = run at hfits ⊢
  obtain ⟨result, t⟩ := run
  cases result with
  | error e => rfl
  | ok summary => exact color_eq_some hfits hp limit

theorem output_eq_some (h : s.state.program.Indexed) : output s = some s.output := by
  unfold output Session.output Session.assembly
  rw [assembly_eq_some h]
  split <;> rfl

theorem closed_of_fits (h : s.Fits p f) (hflow : p.flow = .ok f) :
    s.state.flow.Closed ∧ s.state.live.size = s.state.flow.size := by
  rw [h.tracks.size_live]
  rcases h.tracks.flow_eq with heq | heq <;> rw [heq]
  · exact ⟨closed_flow hflow, (Program.size_flow hflow).symm⟩
  · exact ⟨closed_blank p.size, Array.size_replicate.symm⟩

theorem isValidColoring_of_fits (h : s.Fits p f) (hp : p.Indexed) {g : Graph}
    (hgraph : s.graph = some g) :
    ∃ valid, s.state.isValidColoring? s.config.palette g = some valid ∧
      isValidColoring s.state s.config.palette g = some valid := by
  obtain rfl := h.tracks.program_eq
  exact isValidColoring_eq_some hp h.length_slots (h.size_graph g hgraph) s.config.palette

/-- An operation makes no access out of range. -/
theorem answer_eq_some (h : s.Fits p f) (hp : p.Indexed) (hflow : p.flow = .ok f) (limit : Level)
    (op : Session.Operation) : answer limit s op = some (s.answer op) := by
  have hp' : s.state.program.Indexed := h.tracks.program_eq ▸ hp
  cases op with
  | analyze =>
      rw [answer, analyze_eq_some h hp hflow]
      rfl
  | allocate =>
      rw [answer, compile_eq_some h hp hflow]
      rfl
  | succeed =>
      rw [answer, compile_eq_some h hp hflow]
      rfl
  | output =>
      rw [answer, output_eq_some hp']
      rfl
  | assembly =>
      rw [answer, assembly_eq_some hp']
      rfl
  | stats => rfl
  | displayGraph =>
      unfold answer Session.answer
      cases s.graph with
      | none => rfl
      | some g =>
          dsimp only
          rw [render_eq_some]
          rfl
  | isFixedPoint =>
      obtain ⟨hclosed, hsize⟩ := closed_of_fits h hflow
      rw [answer, isFixedPoint_eq_some hclosed hsize]
      rfl
  | isValidColoring =>
      unfold answer Session.answer
      cases hgraph : s.graph with
      | none => rfl
      | some g =>
          obtain ⟨valid, hvalid, hchecked⟩ := isValidColoring_of_fits h hp hgraph
          dsimp only
          rw [hchecked, Option.map_some, hvalid]
          rfl

theorem answers_eq_some (h : s.Fits p f) (hp : p.Indexed) (hflow : p.flow = .ok f) (limit : Level)
    (ops : List Session.Operation) : answers limit s ops = some (s.answers ops) := by
  induction ops generalizing s with
  | nil => rfl
  | cons op ops ih =>
      have hfits := h.answer hflow op
      rw [answers, answer_eq_some h hp hflow, Session.answers]
      generalize s.answer op = step at hfits ⊢
      obtain ⟨a, t⟩ := step
      simp only [Option.bind_eq_bind, Option.bind_some, ih hfits]
      rfl

end Session

end Checked

namespace Session

variable {s : Session} {p : Program} {f : Flow}

theorem refusal?_ne_outOfRange (hflow : s.state.program.flow = .ok f) (c : Call) :
    s.refusal? c ≠ some .outOfRange := by
  intro hrefusal
  obtain ⟨_, summary, _, _, heq⟩ := refusal?_eq_some hflow hrefusal
  cases heq

/-- No answer stands for an access out of range. -/
theorem not_outOfRange_answer (h : s.Fits p f) (hp : p.Indexed) (hflow : p.flow = .ok f)
    (op : Operation) : ¬ (s.answer op).1.OutOfRange := by
  have hrefusal := refusal?_ne_outOfRange (h.tracks.program_eq ▸ hflow)
  cases op with
  | analyze =>
      intro (hresult : s.analyze.1 = .error .outOfRange)
      exact hrefusal .analyze (congrArg refusal?.failure? hresult)
  | allocate =>
      intro (hresult : s.allocate.1 = .error .outOfRange)
      exact hrefusal .allocate (congrArg refusal?.failure? hresult)
  | succeed =>
      intro (hresult : s.succeed.1 = .error .outOfRange)
      exact hrefusal .succeed (congrArg refusal?.failure? hresult)
  | output =>
      intro (hresult : s.output = .error .outOfRange)
      unfold output at hresult
      split at hresult <;> cases hresult
  | isValidColoring =>
      intro (hresult : s.graph.map _ = some none)
      obtain ⟨g, hgraph, hnone⟩ := Option.map_eq_some_iff.mp hresult
      obtain ⟨valid, hvalid, _⟩ := Checked.isValidColoring_of_fits h hp hgraph
      rw [hvalid] at hnone
      cases hnone
  | assembly => exact id
  | stats => exact id
  | displayGraph => exact id
  | isFixedPoint => exact id

theorem not_outOfRange_answers (h : s.Fits p f) (hp : p.Indexed) (hflow : p.flow = .ok f)
    (ops : List Operation) : ∀ a ∈ (s.answers ops).1, ¬ a.OutOfRange := by
  induction ops generalizing s with
  | nil => exact nofun
  | cons op ops ih =>
      intro a ha
      rcases List.mem_cons.mp ha with rfl | ha
      · exact not_outOfRange_answer h hp hflow op
      · exact ih (h.answer hflow op) a ha

theorem writable_journal (s : Session) (op : Operation) : (s.journal op).Writable := by
  cases op with
  | analyze => exact s.writable_analyzeJournal
  | allocate => exact s.writable_allocateJournal
  | succeed => exact s.writable_allocateJournal
  | _ => exact Journal.writable_nil

theorem writable_journals (s : Session) (ops : List Operation) : (s.journals ops).Writable := by
  induction ops generalizing s with
  | nil => exact Journal.writable_nil
  | cons op ops ih => exact (s.writable_journal op).append (ih _)

theorem fits_of_parse {text : String} (h : Program.parse text = .ok p) (config : Config) :
    p.Indexed ∧ ∃ f, p.flow = .ok f ∧ (ofAnnotated (.ofProgram p) config).Fits p f := by
  obtain ⟨f, hflow⟩ := (Program.linked_of_parse h).exists_flow
  exact ⟨(Program.finished_of_parse h).indexed, f, hflow, fits_ofProgram p f config⟩

theorem session_follows (text : String) (config : Config) (limit : Level) (ops : List Operation) :
    Checked.Follows Eq (Checked.session limit text config ops) (run text config ops) := by
  have hread := Checked.parse_follows text
  unfold run ofSource
  cases hparse : Program.parse text with
  | error e =>
      rw [hparse] at hread
      exact hread.bind_error
  | ok p =>
      rw [hparse] at hread
      obtain ⟨hp, f, hflow, hfits⟩ := fits_of_parse hparse config
      refine hread.bind_ok ?_
      rintro _ rfl
      exact .last_access (Checked.answers_eq_some hfits hp hflow limit ops) rfl

theorem writable_runJournal (text : String) (config : Config) (ops : List Operation) :
    (runJournal text config ops).Writable := by
  refine (Program.writable_parseJournal text).append ?_
  split
  · exact writable_journals _ ops
  · exact Journal.writable_nil

/-- Reading any text and asking for any operations makes no access out of range at any level of the
journal: all accesses come to the answers of the session, or to the error of the text. No answer
stands for an access out of range, and every record can be written. -/
theorem accesses_in_range (text : String) (config : Config) (limit : Level)
    (ops : List Operation) :
    (Checked.session limit text config ops).run = some (run text config ops) ∧
      (∀ as s, run text config ops = .ok (as, s) → ∀ a ∈ as, ¬ a.OutOfRange) ∧
      ((runJournal text config ops).read limit).2 = true := by
  refine ⟨(session_follows text config limit ops).run_eq, ?_,
    (writable_runJournal text config ops).read limit⟩
  intro as s hrun
  obtain ⟨start, hstart, hanswers⟩ := Parser.map_eq_ok.mp hrun
  obtain ⟨p, hparse, rfl⟩ := Parser.map_eq_ok.mp hstart
  obtain ⟨hp, f, hflow, hfits⟩ := fits_of_parse hparse config
  have hsafe := not_outOfRange_answers hfits hp hflow ops
  rwa [hanswers] at hsafe

/-- A loop is asked for everything twice, before and after its allocation, with all records seen. -/
theorem loop_accesses_in_range :
    ∃ as s, run loopText {} (Operation.all ++ Operation.all) = .ok (as, s) ∧
      s.isAllocated = true ∧
      (Checked.session .trace loopText {} (Operation.all ++ Operation.all)).run =
        some (.ok (as, s)) ∧
      ∀ a ∈ as, ¬ a.OutOfRange := by
  obtain ⟨⟨as, s⟩, hrun, hallocated⟩ : ∃ x,
      run loopText {} (Operation.all ++ Operation.all) = .ok x ∧ x.2.isAllocated = true :=
    exists_ok_of_decide (by decide +kernel)
  obtain ⟨hchecked, hsafe, _⟩ :=
    accesses_in_range loopText {} .trace (Operation.all ++ Operation.all)
  exact ⟨as, s, hrun, hallocated, hrun ▸ hchecked, hsafe as s hrun⟩

end Session

end RegAlloc
