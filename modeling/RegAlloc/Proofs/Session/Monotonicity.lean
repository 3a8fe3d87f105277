import RegAlloc.Proofs.Coloring.Completeness
import RegAlloc.Proofs.Interference.Rules
import RegAlloc.Proofs.Session.Clobbering
import RegAlloc.Proofs.Session.Contract

/-!
# More slots and fewer conflicts

The order in which simplification removes nodes changes with the number of slots and with the edges.
Whether it comes to its end does not depend on the order: a session succeeds exactly if its graph has
no dense set. A dense set stays dense when slots are taken away or edges are added.
-/

namespace RegAlloc.Session

variable {s s' : Session} {f : Flow} {text : String} {config config' : Config}

theorem succeed_iff_not_dense (hflow : s.state.program.flow = .ok f)
    (hstrict : s.config.strict = false) :
    s.succeed.1 = .ok true ↔ ∀ nodes,
      ¬ (s.state.program.interference f (s.liveOf f) s.config.rule).Dense s.config.palette.size
        nodes := by
  have haccepted : ¬ s.Refuses f := fun hrefuses => by
    rw [hrefuses.2] at hstrict
    cases hstrict
  obtain ⟨status, t, hallocate, hcompleted⟩ := allocate_of_not_refuses hflow haccepted
  rw [← Program.isSuccess_allocate?_iff hcompleted.allocate?_eq]
  simp [succeed, hallocate, Except.map]

theorem ofSource_eq_ok (h : ofSource text config = .ok s) :
    ∃ p, Program.parse text = .ok p ∧ s = ofAnnotated (.ofProgram p) config := by
  obtain ⟨p, hparse, rfl⟩ := Parser.map_eq_ok.mp h
  exact ⟨p, hparse, rfl⟩

/-- A session over a text that succeeds still does so with more slots, and under the rule with fewer
conflicts. -/
theorem success_monotone (hs : ofSource text config = .ok s) (hs' : ofSource text config' = .ok s')
    (hstrict : config.strict = false) (hstrict' : config'.strict = false)
    (hcap : config.maxSweeps = config'.maxSweeps) :
    (config.rule = config'.rule → config.palette.size ≤ config'.palette.size →
      s.succeed.1 = .ok true → s'.succeed.1 = .ok true) ∧
    (config.palette = config'.palette → config.rule = .allLive → config'.rule = .defLiveOut →
      s.succeed.1 = .ok true → s'.succeed.1 = .ok true) := by
  obtain ⟨p, hparse, rfl⟩ := ofSource_eq_ok hs
  obtain ⟨p', hparse', rfl⟩ := ofSource_eq_ok hs'
  obtain rfl := Except.ok.inj (hparse.symm.trans hparse')
  obtain ⟨f, hflow⟩ := (Program.linked_of_parse hparse).exists_flow
  -- with the same cap both sessions color graphs of the same live sets
  have hlive : (ofAnnotated (.ofProgram p) config').liveOf f =
      (ofAnnotated (.ofProgram p) config).liveOf f := by
    simp only [liveOf, ofAnnotated, hcap]
  rw [succeed_iff_not_dense hflow hstrict, succeed_iff_not_dense hflow hstrict', hlive]
  simp only [ofAnnotated, Annotated.ofProgram]
  constructor
  · intro hrule hsize hnone nodes hdense
    rw [← hrule] at hdense
    exact hnone nodes (hdense.of_le hsize)
  · intro hpalette hrule hrule' hnone nodes hdense
    rw [hrule] at hnone
    rw [hrule', ← hpalette] at hdense
    refine hnone nodes (hdense.of_edge ?_ fun a b => Program.allLive_of_defLiveOut)
    rw [Program.size_interference, Program.size_interference]

/-- Two registers. -/
def pair : Palette := ⟨["a0", "a1"], ⟨by decide, by decide, by decide, by decide⟩⟩

theorem sum_succeeds_with_more_slots :
    ∃ s s' s'', ofSource sumText { palette := pair, rule := .allLive } = .ok s ∧
      ofSource sumText { rule := .allLive } = .ok s' ∧
      ofSource sumText { palette := pair } = .ok s'' ∧
      s.succeed.1 = .ok true ∧ s'.succeed.1 = .ok true ∧ s''.succeed.1 = .ok true := by
  obtain ⟨p, hparse, hsucceed⟩ : ∃ p, Program.parse sumText = .ok p ∧
      (ofAnnotated (.ofProgram p) { palette := pair, rule := .allLive }).succeed.1 = .ok true :=
    exists_ok_of_decide (by decide +kernel)
  have hsource : ∀ config, ofSource sumText config = .ok (ofAnnotated (.ofProgram p) config) := by
    intro config
    rw [ofSource, hparse]
    rfl
  have htwo := hsource { palette := pair, rule := .allLive }
  have hfour := hsource { rule := .allLive }
  have hfewer := hsource { palette := pair }
  refine ⟨_, _, _, htwo, hfour, hfewer, hsucceed, ?_, ?_⟩
  · exact (success_monotone htwo hfour rfl rfl rfl).1 rfl (by decide) hsucceed
  · exact (success_monotone htwo hfewer rfl rfl rfl).2 rfl rfl rfl hsucceed

end RegAlloc.Session
