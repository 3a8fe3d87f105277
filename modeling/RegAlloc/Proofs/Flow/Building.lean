import RegAlloc.Annotated
import RegAlloc.Proofs.Refusal

/-!
# Building the control-flow graph in place

The program is checked first; then the graph is cleared and gets its edges one by one. In the end
it is the control-flow graph of the program, whatever there was before, or all is as it was.
-/

namespace RegAlloc

theorem forM_modify {ε σ α : Type} (f : σ → α → σ) (xs : List α) (s : σ) :
    (xs.forM (fun x => modify fun s => f s x) : EStateM ε σ PUnit) s =
      .ok ⟨⟩ (xs.foldl f s) := by
  induction xs generalizing s with
  | nil => rfl
  | cons x xs ih => exact ih (f s x)

namespace Annotated

variable (a : Annotated)

theorem node_clearEdges {i : InstId} (h : i < a.program.instrs.size) :
    a.clearEdges.flow.node i = { a.flow.node i with succs := ∅, preds := ∅ } := by
  have hsize : i < a.clearEdges.flow.nodes.size := Array.size_mapIdx.symm ▸ h
  rw [Flow.node, ← Array.getElem_eq_getD (h := hsize)]
  exact Array.getElem_mapIdx ..

theorem computeUses_clearEdges :
    a.clearEdges.computeUses = { a with flow := ⟨a.program.instrs.map a.program.flowNode⟩ } := by
  refine congrArg (fun nodes => { a with flow := ⟨nodes⟩ }) ?_
  refine Array.ext (by simp [clearEdges]) fun i h _ => ?_
  have hi : i < a.program.instrs.size := Array.size_mapIdx ▸ h
  rw [Array.getElem_mapIdx, node_clearEdges a hi, Array.getElem_map]
  rfl

theorem foldl_link (edges : List (InstId × InstId)) :
    edges.foldl link a = { a with flow := edges.foldl Flow.link a.flow } := by
  induction edges generalizing a with
  | nil => rfl
  | cons edge edges ih => exact ih (a.link edge)

theorem linkTargets_apply (targets : List (Option InstId)) :
    linkTargets targets a = .ok () { a with
      flow := ((List.range a.program.size).zip targets |>.flatMap fun (i, target) =>
        a.program.edgesFrom i target).foldl Flow.link a.flow } := by
  change (((List.range a.program.size).zip targets).forM fun (i, target) =>
    (a.program.edgesFrom i target).forM fun edge => modify fun a => link a edge : EStateM _ _ _) a = _
  rw [← foldl_link]
  generalize (List.range a.program.size).zip targets = pairs
  generalize a.program = p
  induction pairs generalizing a with
  | nil => rfl
  | cons pair pairs ih =>
      obtain ⟨i, target⟩ := pair
      rw [List.flatMap_cons, List.foldl_append, ← ih]
      change EStateM.bind ((p.edgesFrom i target).forM _) _ a = _
      rw [EStateM.bind, forM_modify link]

/-- A program that has no control-flow graph is left as it was. -/
theorem rebuildFlow_apply :
    rebuildFlow a = match a.program.flow with
      | .error e => .error e a
      | .ok flow => .ok flow.edgeCount { a with flow } := by
  have hentry : rebuildFlow a = _ := check_apply (fun a : Annotated => a.program.checkEntry) _ a
  rw [hentry, Program.flow]
  cases a.program.checkEntry with
  | error e => rfl
  | ok u =>
      refine (check_apply (fun a : Annotated => a.program.branchTargets) _ a).trans ?_
      cases a.program.branchTargets with
      | error e => rfl
      | ok targets =>
          change EStateM.bind (linkTargets targets) _ a.clearEdges.computeUses = _
          rw [EStateM.bind, linkTargets_apply, computeUses_clearEdges]
          rfl

theorem buildFlow_eq : a.buildFlow = a.program.flow.map fun flow => { a with flow } := by
  rw [buildFlow, rebuildFlow_apply]
  cases a.program.flow <;> rfl

variable {a}

theorem buildFlow_eq_ok_iff {a' : Annotated} :
    a.buildFlow = .ok a' ↔ ∃ flow, a.program.flow = .ok flow ∧ { a with flow } = a' := by
  rw [buildFlow_eq]
  cases a.program.flow <;> simp [Except.map]

end Annotated

end RegAlloc
