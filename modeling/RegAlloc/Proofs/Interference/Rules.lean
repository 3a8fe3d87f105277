import RegAlloc.Proofs.Interference.Conflict
import RegAlloc.Proofs.Liveness.Correctness
import RegAlloc.Proofs.Program.Kinds
import RegAlloc.Proofs.Program.Parsing
import RegAlloc.Proofs.Session.Semantics

/-!
# Where the two rules differ

Every edge of the rule `defLiveOut` is one of `allLive`. The converse holds for registers that are
live together at an instruction that the entry marker leads to: on the way there some instruction
writes one of them while the other is live, unless both are live before the marker.
-/

namespace RegAlloc

namespace Flow

/-- The edges of `f` lead from `n` to `m`. -/
def Reaches (f : Flow) (n m : InstId) : Prop := ∃ path, f.Path n path m

theorem Reaches.step {f : Flow} {n m s : InstId} (h : f.Reaches n m)
    (hs : s ∈ (f.node m).succs) : f.Reaches n s := by
  obtain ⟨path, hpath⟩ := h
  induction hpath with
  | here n => exact ⟨[n], .edge hs (.here s)⟩
  | edge hedge _ ih =>
      obtain ⟨path, hpath⟩ := ih hs
      exact ⟨_, .edge hedge hpath⟩

end Flow

namespace Liveness

/-- `a` and `b` are both live before `n`, or both live after it. -/
def Together (l : Liveness) (a b : VarId) (n : InstId) : Prop :=
  (a ∈ (l.get n).liveIn ∧ b ∈ (l.get n).liveIn) ∨ (a ∈ (l.get n).liveOut ∧ b ∈ (l.get n).liveOut)

/-- Instruction `n` writes one of `a` and `b`, and both are live after it. -/
def Splits (l : Liveness) (f : Flow) (a b : VarId) (n : InstId) : Prop :=
  (a ∈ (f.node n).defs ∨ b ∈ (f.node n).defs) ∧ a ∈ (l.get n).liveOut ∧ b ∈ (l.get n).liveOut

variable {l : Liveness} {f : Flow} {a b : VarId} {n m : InstId}

theorem Solves.liveIn_or_splits (h : l.Solves f) (ha : a ∈ (l.get n).liveOut)
    (hb : b ∈ (l.get n).liveOut) :
    (a ∈ (l.get n).liveIn ∧ b ∈ (l.get n).liveIn) ∨ l.Splits f a b n := by
  by_cases hdef : a ∈ (f.node n).defs ∨ b ∈ (f.node n).defs
  · exact Or.inr ⟨hdef, ha, hb⟩
  · rw [not_or] at hdef
    exact Or.inl ⟨h.mem_liveIn.mpr (Or.inr ⟨ha, hdef.1⟩), h.mem_liveIn.mpr (Or.inr ⟨hb, hdef.2⟩)⟩

/-- Two registers that are live together behind a path were so at its start, or from some
instruction of the path on. -/
theorem Solves.liveIn_or_splits_of_path (h : l.Solves f) {path : List InstId}
    (hpath : f.Path n path m) (ha : a ∈ (l.get m).liveIn) (hb : b ∈ (l.get m).liveIn) :
    (a ∈ (l.get n).liveIn ∧ b ∈ (l.get n).liveIn) ∨ ∃ k, l.Splits f a b k := by
  induction hpath with
  | here n => exact Or.inl ⟨ha, hb⟩
  | @edge n s m path hs _ ih =>
      rcases ih ha hb with ⟨has, hbs⟩ | hsplits
      · have haout := h.mem_liveOut.mpr ⟨s, hs, has⟩
        have hbout := h.mem_liveOut.mpr ⟨s, hs, hbs⟩
        exact (h.liveIn_or_splits haout hbout).imp_right fun hsplits => ⟨n, hsplits⟩
      · exact Or.inr hsplits

theorem Solves.liveIn_or_splits_of_together (h : l.Solves f) (hreach : f.Reaches n m)
    (htogether : l.Together a b m) :
    (a ∈ (l.get n).liveIn ∧ b ∈ (l.get n).liveIn) ∨ ∃ k, l.Splits f a b k := by
  obtain ⟨path, hpath⟩ := hreach
  rcases htogether with ⟨ha, hb⟩ | ⟨ha, hb⟩
  · exact h.liveIn_or_splits_of_path hpath ha hb
  · rcases h.liveIn_or_splits ha hb with ⟨hain, hbin⟩ | hsplits
    · exact h.liveIn_or_splits_of_path hpath hain hbin
    · exact Or.inr ⟨m, hsplits⟩

end Liveness

namespace Program

variable {p : Program} {f : Flow} {l : Liveness}

theorem exists_entry?_of_flow (hflow : p.flow = .ok f) : ∃ e, p.entry? = some e := by
  have hcheck : p.checkEntry = .ok () := by
    unfold flow at hflow
    cases h : p.checkEntry with
    | error e =>
        rw [h] at hflow
        cases hflow
    | ok _ => rfl
  have hpos : 0 < p.instrs.countP Instruction.isEntry := by
    refine Nat.pos_of_ne_zero fun hzero => ?_
    rw [checkEntry, hzero] at hcheck
    cases hcheck
  obtain ⟨i, hi, hentry⟩ := Array.countP_pos_iff.mp hpos
  exact ⟨_, Array.findIdx?_eq_some_of_exists ⟨i, hi, hentry⟩⟩

/-! ## One rule contains the other -/

theorem allLive_of_defLiveOut {x y : Nat} (h : (p.interference f l .defLiveOut).Edge x y) :
    (p.interference f l .allLive).Edge x y := by
  obtain ⟨hx, hy, hne, n, hn, _, hxout, hyout⟩ := edge_interference.mp h
  exact edge_interference.mpr ⟨hx, hy, hne, n, hn, Or.inr ⟨hxout, hyout⟩⟩

/-! ## The edges of split pairs -/

theorem defLiveOut_of_splits (hnumbered : p.Numbered) (hsize : l.size = p.size) {a b : VarId}
    (ha : (p.var a).isRegister = true) (hb : (p.var b).isRegister = true) (hne : a ≠ b)
    {n : InstId} (h : l.Splits f a b n) :
    ∃ x y, (p.var a).position = some x ∧ (p.var b).position = some y ∧
      (p.interference f l .defLiveOut).Edge x y := by
  obtain ⟨x, hx, hregx⟩ := hnumbered a ha
  obtain ⟨y, hy, hregy⟩ := hnumbered b hb
  obtain ⟨hdef, haout, hbout⟩ := h
  have hxy : x ≠ y := by
    rintro rfl
    exact hne (hnumbered.position_inj ha hb hx hy)
  have hn : n < p.size := by
    refine Nat.lt_of_not_le fun hle => ?_
    rw [Liveness.get_of_size_le (hsize ▸ hle)] at haout
    exact IdSet.not_mem_empty a haout
  refine ⟨x, y, hx, hy, edge_interference.mpr ⟨(List.getElem?_eq_some_iff.mp hregx).1,
    (List.getElem?_eq_some_iff.mp hregy).1, hxy, n, hn, ?_, ?_, ?_⟩⟩
  · exact hdef.imp (fun h => mem_positions.mpr ⟨a, h, hx⟩) fun h => mem_positions.mpr ⟨b, h, hy⟩
  · exact mem_positions.mpr ⟨a, haout, hx⟩
  · exact mem_positions.mpr ⟨b, hbout, hy⟩

theorem together_of_allLive {x y : Nat} (h : (p.interference f l .allLive).Edge x y) :
    ∃ a b n, n < p.size ∧ (p.var a).position = some x ∧ (p.var b).position = some y ∧ a ≠ b ∧
      l.Together a b n := by
  obtain ⟨_, _, hne, n, hn, hconflict⟩ := edge_interference.mp h
  have hdiffer : ∀ {a b : VarId}, (p.var a).position = some x → (p.var b).position = some y →
      a ≠ b := by
    rintro a b ha hb rfl
    exact hne (Option.some.inj (ha.symm.trans hb))
  rcases hconflict with ⟨hx, hy⟩ | ⟨hx, hy⟩
  · obtain ⟨a, hain, ha⟩ := mem_positions.mp hx
    obtain ⟨b, hbin, hb⟩ := mem_positions.mp hy
    exact ⟨a, b, n, hn, ha, hb, hdiffer ha hb, Or.inl ⟨hain, hbin⟩⟩
  · obtain ⟨a, haout, ha⟩ := mem_positions.mp hx
    obtain ⟨b, hbout, hb⟩ := mem_positions.mp hy
    exact ⟨a, b, n, hn, ha, hb, hdiffer ha hb, Or.inr ⟨haout, hbout⟩⟩

/-! ## The two graphs -/

/-- Registers that are live together where the entry marker leads are joined under both rules,
unless both are live before the marker. -/
theorem rules_differ_at_entry (hp : p.Finished) (hflow : p.flow = .ok f) :
    (∀ (l : Liveness) (x y : Nat), (p.interference f l .defLiveOut).Edge x y →
      (p.interference f l .allLive).Edge x y) ∧
    ∃ e, p.entry? = some e ∧ ∀ (cap : Nat) (start : Liveness), start.size = p.size →
      (f.solve cap start).1.converged = true →
      let live := (f.solve cap start).2
      (∀ (a b : VarId) (n : InstId), (p.var a).isRegister = true → (p.var b).isRegister = true →
        a ≠ b → f.Reaches e n → live.Together a b n →
        (a ∈ (live.get e).liveIn ∧ b ∈ (live.get e).liveIn) ∨
          ∃ x y, (p.var a).position = some x ∧ (p.var b).position = some y ∧
            (p.interference f live .defLiveOut).Edge x y) ∧
      ((∀ n < p.size, f.Reaches e n) →
        (∀ a b, (p.var a).isRegister = true → (p.var b).isRegister = true →
          a ∈ (live.get e).liveIn → b ∈ (live.get e).liveIn → a = b) →
        p.interference f live .defLiveOut = p.interference f live .allLive) := by
  refine ⟨fun l x y => allLive_of_defLiveOut, ?_⟩
  obtain ⟨e, he⟩ := exists_entry?_of_flow hflow
  refine ⟨e, he, ?_⟩
  intro cap start hsize hconverged live
  have hsolves : live.Solves f := Flow.solves_of_converged
    (Nat.le_of_eq ((size_flow hflow).trans hsize.symm)) hconverged
  have hlive : live.size = p.size := (f.size_solve cap start).trans hsize
  have hjoined : ∀ (a b : VarId) (n : InstId), (p.var a).isRegister = true →
      (p.var b).isRegister = true → a ≠ b → f.Reaches e n → live.Together a b n →
      (a ∈ (live.get e).liveIn ∧ b ∈ (live.get e).liveIn) ∨
        ∃ x y, (p.var a).position = some x ∧ (p.var b).position = some y ∧
          (p.interference f live .defLiveOut).Edge x y := by
    intro a b n ha hb hne hreach htogether
    refine (hsolves.liveIn_or_splits_of_together hreach htogether).imp_right ?_
    rintro ⟨k, hsplits⟩
    exact defLiveOut_of_splits hp.numbered hlive ha hb hne hsplits
  refine ⟨hjoined, ?_⟩
  intro hreach hentry
  refine Graph.eq_of_edge_iff (by rw [size_interference, size_interference]) fun x y => ?_
  refine ⟨allLive_of_defLiveOut, fun hedge => ?_⟩
  obtain ⟨a, b, n, hn, hx, hy, hne, htogether⟩ := together_of_allLive hedge
  have ha := hp.isRegister_of_position hx
  have hb := hp.isRegister_of_position hy
  rcases hjoined a b n ha hb hne (hreach n hn) htogether with ⟨hain, hbin⟩ | ⟨x', y', hx', hy', h⟩
  · exact absurd (hentry a b ha hb hain hbin) hne
  · rw [hx] at hx'
    rw [hy] at hy'
    cases hx'
    cases hy'
    exact h

/-- Both constants are live before the sum, and neither is live before the marker. -/
theorem rules_agree_on_sum :
    ∃ p f, Program.parse
        "_reg r1; _reg r2; _func main; li r1, 1; li r2, 2; add r1, r1, r2;" = .ok p ∧
      p.flow = .ok f ∧
      let live := (f.solve 10 (.blank p.size)).2
      p.interference f live .defLiveOut = p.interference f live .allLive ∧
        (p.interference f live .allLive).adjacent 0 1 = true := by
  obtain ⟨p, hparse, hflow⟩ : ∃ p, Program.parse
      "_reg r1; _reg r2; _func main; li r1, 1; li r2, 2; add r1, r1, r2;" = .ok p ∧
      (match p.flow with
        | .ok f => decide (p.entry? = some 0 ∧ (f.solve 10 (.blank p.size)).1.converged = true ∧
            (∀ n < p.size, n = 0 ∨ n ∈ (f.node (n - 1)).succs) ∧
            ((f.solve 10 (.blank p.size)).2.get 0).liveIn = ∅ ∧
            (p.interference f (f.solve 10 (.blank p.size)).2 .allLive).adjacent 0 1 = true)
        | .error _ => false) = true :=
    exists_ok_of_decide (by decide +kernel)
  split at hflow
  case h_2 => cases hflow
  rename_i f hf
  obtain ⟨hentry, hconverged, hline, hlive, hadjacent⟩ := of_decide_eq_true hflow
  refine ⟨p, f, hparse, hf, ?_, hadjacent⟩
  obtain ⟨_, e, he, hrules⟩ := rules_differ_at_entry (finished_of_parse hparse) hf
  rw [hentry] at he
  cases he
  refine (hrules 10 (.blank p.size) (Liveness.size_blank p.size) hconverged).2 ?_ ?_
  · intro n hn
    induction n with
    | zero => exact ⟨[], .here 0⟩
    | succ n ih => exact (ih (by omega)).step ((hline (n + 1) hn).resolve_left (by omega))
  · intro a b _ _ ha
    rw [hlive] at ha
    exact absurd ha (IdSet.not_mem_empty a)

end Program

end RegAlloc
