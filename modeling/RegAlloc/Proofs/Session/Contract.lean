import RegAlloc.Proofs.Program.Faults
import RegAlloc.Proofs.Program.Linked
import RegAlloc.Proofs.Session.Passes

/-!
# What parsing promises to a session

A text is refused by its tokens or statements, or it is a linked program. On a linked program, after
any passes, a call of a session fails in one way only: its live sets did not converge and the
session asks that they do.
-/

namespace RegAlloc

namespace Session

/-- The error that a call returns, if it returns one. -/
def refusal? (s : Session) : Call → Option SessionError
  | .analyze => failure? s.analyze.1
  | .allocate => failure? s.allocate.1
  | .succeed => failure? s.succeed.1
where
  failure? {α : Type} : Except SessionError α → Option SessionError
    | .error e => some e
    | .ok _ => none

theorem refusal?_of_refuses {s : Session} {f : Flow} (h : s.state.program.flow = .ok f)
    (hrefuses : s.Refuses f) (c : Call) :
    s.refusal? c = some (.notConverged (s.summaryOf f).sweeps) := by
  obtain ⟨t, hanalyze, _⟩ := analyze_of_refuses h hrefuses
  obtain ⟨u, hallocate, _⟩ := allocate_of_refuses h hrefuses
  cases c with
  | analyze => simp [refusal?, hanalyze, refusal?.failure?]
  | allocate => simp [refusal?, hallocate, refusal?.failure?]
  | succeed => simp [refusal?, succeed, hallocate, Except.map, refusal?.failure?]

theorem refusal?_of_not_refuses {s : Session} {f : Flow} (h : s.state.program.flow = .ok f)
    (hrefuses : ¬ s.Refuses f) (c : Call) : s.refusal? c = none := by
  obtain ⟨t, hanalyze, _⟩ := analyze_of_not_refuses h hrefuses
  obtain ⟨status, u, hallocate, _⟩ := allocate_of_not_refuses h hrefuses
  cases c with
  | analyze => simp [refusal?, hanalyze, refusal?.failure?]
  | allocate => simp [refusal?, hallocate, refusal?.failure?]
  | succeed => simp [refusal?, succeed, hallocate, Except.map, refusal?.failure?]

/-- A call fails only if it asks for live sets that converge and reports that they did not. -/
theorem refusal?_eq_some {s : Session} {f : Flow} (h : s.state.program.flow = .ok f) {c : Call}
    {e : SessionError} (herror : s.refusal? c = some e) :
    s.config.strict = true ∧ ∃ summary, (s.perform c).liveness = some summary ∧
      summary.converged = false ∧ e = .notConverged summary.sweeps := by
  by_cases hrefuses : s.Refuses f
  · rw [refusal?_of_refuses h hrefuses, Option.some.injEq] at herror
    exact ⟨hrefuses.2, s.summaryOf f, (perform_analysis h c).2.1, hrefuses.1, herror.symm⟩
  · rw [refusal?_of_not_refuses h hrefuses] at herror
    cases herror

end Session

namespace Program

/-- Every text is refused by its tokens or statements, or is a program on which the passes of a
session cannot fail, but for live sets that do not converge. -/
theorem parse_establishes_contract (text : String) :
    (∀ p, Program.parse text = .ok p →
      p.instrs.countP Instruction.isEntry = 1 ∧ (p.instrs[0]?.map Instruction.isEntry) = some true ∧
      (∀ i < p.size, (p.instr i).branch ≠ .straight → (∃ label, p.branchLabel? i = some label) ∧
        ∀ label ∈ (p.instr i).src, (p.var label).kind = .label →
          ∃! j, j < p.size ∧ (p.instr j).label = some label) ∧
      (∃ f, p.flow = .ok f) ∧
      ∀ config passes c e,
        let s := (Session.ofAnnotated (.ofProgram p) config).applyAll passes
        s.refusal? c = some e → s.config.strict = true ∧ ∃ summary,
          (s.perform c).liveness = some summary ∧ summary.converged = false ∧
            e = .notConverged summary.sweeps) ∧
    ∀ e, Program.parse text = .error e → (∃ fault, e = .lex fault) ∨ ∃ fault, e = .parse fault := by
  refine ⟨fun p hparse => ?_, fun e => fault_of_parse⟩
  have hlinked := linked_of_parse hparse
  obtain ⟨f, hflow⟩ := hlinked.exists_flow
  refine ⟨hlinked.one_entry, ?_, ?_, ⟨f, hflow⟩, ?_⟩
  · simp [getElem?_instr hlinked.size_pos, hlinked.entry_first]
  · intro i hi hbranch
    refine ⟨hlinked.branchLabel hi hbranch, fun label hmem hkind => ?_⟩
    obtain ⟨j, hj, hcarries⟩ := hlinked.labeled hi (List.mem_append_right _ hmem) hkind
    refine ⟨j, ⟨hj, hcarries⟩, ?_⟩
    rintro k ⟨hk, hkcarries⟩
    exact hlinked.label_inj hk hj hkcarries hcarries
  · intro config passes c e s herror
    refine Session.refusal?_eq_some (f := f) ?_ herror
    rw [Session.program_applyAll]
    exact hflow

/-- A strict session that may not sweep refuses a loop; a label that nothing carries is found while
reading. -/
theorem contract_of_loop :
    (∃ p summary, Program.parse "_reg r1; _func main; loop: bltz r1, loop;" = .ok p ∧
      let s := Session.ofAnnotated (.ofProgram p) { maxSweeps := 0, strict := true }
      (s.perform .allocate).liveness = some summary ∧ summary.converged = false ∧
        s.refusal? .allocate = some (.notConverged summary.sweeps)) ∧
    ∃ e, Program.parse "_func main; b loop;" = .error e ∧
      ((∃ fault, e = .lex fault) ∨ ∃ fault, e = .parse fault) := by
  constructor
  · obtain ⟨p, hparse, herror⟩ : ∃ p, Program.parse
        "_reg r1; _func main; loop: bltz r1, loop;" = .ok p ∧
        ((Session.ofAnnotated (.ofProgram p) { maxSweeps := 0, strict := true }).refusal?
          .allocate).isSome = true :=
      exists_ok_of_decide (by decide +kernel)
    obtain ⟨e, he⟩ := Option.isSome_iff_exists.mp herror
    obtain ⟨_, summary, hsummary, hconverged, rfl⟩ :=
      ((parse_establishes_contract _).1 p hparse).2.2.2.2 _ [] .allocate e he
    exact ⟨p, summary, hparse, hsummary, hconverged, he⟩
  · have herror : Program.parse "_func main; b loop;" =
        .error (.parse (.labelNeverDefined "loop")) := by decide +kernel
    exact ⟨_, herror, (parse_establishes_contract _).2 _ herror⟩

end Program

end RegAlloc
