import RegAlloc.Proofs.Session.Passes
import RegAlloc.Session.Journal

/-!
# Records that can be written

A record that names a register variable needs the variable at its position. The positions that a
selection reports are those of its stack, so every journal of a session is read to its end.
-/

namespace RegAlloc

namespace Journal

/-- Every record has its text. -/
def Writable (j : Journal) : Prop := ∀ r ∈ j, r.text?.isSome = true

theorem writable_nil : Writable [] := nofun

theorem Writable.append {j k : Journal} (hj : j.Writable) (hk : k.Writable) :
    Writable (j ++ k) := by
  intro r hr
  exact (List.mem_append.mp hr).elim (hj r) (hk r)

theorem writable_record (level : Level) (text : String) : Writable [level.record text] := by
  intro r hr
  rw [List.mem_singleton.mp hr]
  rfl

theorem writable_map {α : Type} {f : α → Record} {xs : List α}
    (h : ∀ x ∈ xs, (f x).text?.isSome = true) : Writable (xs.map f) := by
  intro r hr
  obtain ⟨x, hx, rfl⟩ := List.mem_map.mp hr
  exact h x hx

theorem writable_flatMap {α : Type} {f : α → Journal} {xs : List α}
    (h : ∀ x ∈ xs, (f x).Writable) : Writable (xs.flatMap f) := by
  intro r hr
  obtain ⟨x, hx, hr⟩ := List.mem_flatMap.mp hr
  exact h x hx r hr

/-- A reader of any level comes to the end of such a journal. -/
theorem Writable.read {j : Journal} (h : j.Writable) (limit : Level) :
    (j.read limit).2 = true := by
  induction j with
  | nil => rfl
  | cons r rs ih =>
      have hrest := ih fun r' hr' => h r' (List.mem_cons_of_mem r hr')
      obtain ⟨text, htext⟩ := Option.isSome_iff_exists.mp (h r List.mem_cons_self)
      rw [Journal.read]
      split
      · rw [htext]
        exact hrest
      · exact hrest

end Journal

open Journal

/-! ## Journals of the passes -/

theorem Program.writable_parseJournal (text : String) : (Program.parseJournal text).Writable := by
  refine .append ?_ ?_
  · unfold tokenizeJournal
    split
    · exact writable_record _ _
    · exact writable_nil
  · split
    · exact writable_record _ _
    · exact writable_nil

theorem Program.writable_flowJournal (p : Program) : p.flowJournal.Writable := by
  unfold Program.flowJournal
  split
  · exact writable_nil
  · refine .append (writable_flatMap fun i _ => ?_) ?_
    · unfold Program.deadBranchRecords
      split
      · exact writable_record _ _
      · exact writable_nil
    · split
      · exact writable_nil
      · refine .append (writable_flatMap fun i _ => ?_) (writable_record _ _)
        unfold Program.branchRecords
        split
        · exact writable_record _ _
        · exact writable_nil

theorem Summary.writable_journal (s : Summary) : s.journal.Writable := by
  refine .append (writable_map fun _ _ => rfl) ?_
  split <;> exact writable_record _ _

/-! ## Journals of allocations -/

theorem Graph.mem_of_mem_picks {g : Graph} {palette : Palette} {colors : Array (Option Slot)}
    {nodes : List Nat} {pick : Pick} (h : pick ∈ (g.selectFrom palette colors nodes).picks) :
    pick.node ∈ nodes := by
  induction nodes generalizing colors with
  | nil => cases h
  | cons node nodes ih =>
      rw [Graph.selectFrom] at h
      split at h
      · split at h
        · cases h
        · rcases List.mem_cons.mp h with rfl | h
          · exact List.mem_cons_self
          · exact List.mem_cons_of_mem node (ih h)
      · cases h

theorem Program.writable_selectJournal {p : Program} (palette : Palette) {g : Graph}
    {stack : List Nat} (hsize : g.size = p.registerCount) (hstack : ∀ m ∈ stack, m < g.size) :
    (p.selectJournal palette g stack).Writable := by
  have hnodes : ∀ m ∈ stack.reverse, m < g.size := fun m hm => hstack m (List.mem_reverse.mp hm)
  have hpicks : reportedPicks (g.select palette stack) = (g.select palette stack).picks := by
    unfold reportedPicks
    split
    · rename_i node _ hend
      exact absurd hend (Graph.selectFrom_inside hnodes node)
    · rfl
  refine writable_map fun pick hpick => ?_
  rw [hpicks] at hpick
  have hlt : pick.node < p.registers.length := by
    have hnode := hnodes pick.node (Graph.mem_of_mem_picks hpick)
    rwa [hsize] at hnode
  simp [Program.pickRecord, Program.registerName?, Program.registerAt?, hlt]

theorem Program.writable_allocateJournal {p : Program} (palette : Palette) {g : Graph}
    (hsize : g.size = p.registerCount) : (p.allocateJournal palette g).Writable := by
  refine .append (.append (writable_map fun _ _ => rfl) ?_) ?_
  · split
    · rename_i stack hstack
      refine writable_selectJournal palette hsize fun m hm => ?_
      exact List.mem_range.mp ((Graph.simplify_perm hstack).mem_iff.mp hm)
    · exact writable_nil
  · cases p.allocate? palette g with
    | none => exact writable_nil
    | some status => cases status <;> exact writable_record _ _

/-! ## Journals of sessions -/

namespace Session

theorem writable_analyzeJournal (s : Session) : s.analyzeJournal.Writable := by
  refine .append (.append (writable_record _ _) (Program.writable_flowJournal _)) ?_
  split
  · exact writable_nil
  · refine .append (Summary.writable_journal _) ?_
    split
    · exact writable_nil
    · exact .append (writable_record _ _) (writable_record _ _)

theorem writable_allocateJournal (s : Session) : s.allocateJournal.Writable := by
  refine .append s.writable_analyzeJournal ?_
  cases hflow : s.state.program.flow with
  | error e =>
      rw [analyze_of_error hflow]
      exact writable_nil
  | ok f =>
      by_cases hrefuses : s.Refuses f
      · obtain ⟨t, hanalyze, _⟩ := analyze_of_refuses hflow hrefuses
        rw [hanalyze]
        exact writable_nil
      · obtain ⟨t, hanalyze, ht, hgraph⟩ := analyze_of_not_refuses hflow hrefuses
        rw [hanalyze]
        dsimp only
        rw [hgraph]
        exact Program.writable_allocateJournal _ (Program.size_interference _ _ _ _)

end Session

end RegAlloc
