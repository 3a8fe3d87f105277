import RegAlloc.Journal
import RegAlloc.Session

/-!
# Journals of sessions

The records of the passes in the order in which a session runs them.
-/

namespace RegAlloc.Session

/-- The records of building the interference graph. -/
def interfereJournal (s : Session) : Journal :=
  let g := s.state.interference s.config.rule
  g.journal s.config.rule ++ [Level.debug.record ("Interference matrix:\n" ++ g.render)]

/-- The journal of `analyze`. -/
def analyzeJournal (s : Session) : Journal :=
  let p := s.state.program
  [Level.info.record
    s!"Analyzing {p.size} instructions, {p.registerCount} register variables"]
  ++ p.flowJournal ++
    match s.buildFlow with
    | (.error _, _) => []
    | (.ok (), s) =>
      let (summary, s) := s.solve
      summary.journal ++
        if !summary.converged && s.config.strict then [] else s.interfereJournal

/-- The journal of `allocate`. -/
def allocateJournal (s : Session) : Journal :=
  s.analyzeJournal ++
    match s.analyze with
    | (.error _, _) => []
    | (.ok _, s) =>
      match s.graph with
      | none => []
      | some g => s.state.program.allocateJournal s.config.palette g

end RegAlloc.Session
