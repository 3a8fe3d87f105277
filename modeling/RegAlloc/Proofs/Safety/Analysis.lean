import RegAlloc.Journal
import RegAlloc.Proofs.Flow.Edges
import RegAlloc.Proofs.Safety.Parsing
import RegAlloc.Proofs.Session.Clobbering

/-!
# Accesses of the analyses

Control flow, live sets and interference are computed from indices: of operands into the variables,
of successors into the instructions, and of positions into the matrix of the graph. The records that
a reader of level `limit` sees read some instructions once more.
-/

namespace RegAlloc

/-! ## Indices in a program -/

/-- Every index in the program is one of its variables, and every position is one of a register. -/
structure Program.Indexed (p : Program) : Prop where
  operand : ∀ {i v}, i < p.size → v ∈ (p.instr i).operands → v < p.vars.size
  label : ∀ {i v}, i < p.size → (p.instr i).label = some v → v < p.vars.size
  memory : ∀ {v}, v ∈ p.memory → v < p.vars.size
  register : ∀ {v}, v ∈ p.registers → v < p.vars.size
  position : ∀ {v x}, (p.var v).position = some x → x < p.registerCount

theorem Program.Finished.indexed {p : Program} (h : p.Finished) : p.Indexed := by
  obtain ⟨b, hb, rfl⟩ := h
  have hkinded := hb.kinded
  have hfits : ∀ {i}, i < b.program.size → Builder.Fits b.program (b.program.instr i) := fun hi =>
    hkinded.fits _ (Program.instr_mem hi)
  refine ⟨?_, ?_, @Builder.Kinded.lt_size b hkinded .memory,
    @Builder.Kinded.lt_size b hkinded .register, ?_⟩
  · intro i v hi hv
    cases hop : (b.program.instr i).opcode with
    | some op => exact (hfits hi).lt_size hop hv
    | none =>
        rw [((hfits hi).marker hop).2] at hv
        cases hv
  · intro i v hi hv
    exact Program.lt_size_of_kind (by simp [(hfits hi).label v hv])
  · intro v x hx
    obtain ⟨y, hy, hget⟩ := hb.numbered.numbered v (hkinded.isRegister_of_position hx)
    obtain rfl := Option.some.inj (hx.symm.trans hy)
    exact (List.getElem?_eq_some_iff.mp hget).1

/-- All successors are instructions. -/
def Flow.Closed (f : Flow) : Prop := ∀ i, ∀ s ∈ (f.node i).succs, s < f.size

theorem Flow.getElem?_nodes {f : Flow} {i : InstId} (h : i < f.size) :
    f.nodes[i]? = some (f.node i) := by
  have hi : i < f.nodes.size := h
  simp [node, hi]

theorem Liveness.getElem?_sets {l : Liveness} {i : InstId} (h : i < l.size) :
    l.sets[i]? = some (l.get i) := by
  have hi : i < l.sets.size := h
  simp [get, hi]

namespace Checked

/-! ## Control flow -/

/-- Makes some accesses for a record, if a reader of level `limit` sees it. -/
def logged (level limit : Level) (accesses : Option Unit) : Option Unit :=
  if level.isShown limit then accesses else some ()

def branchLabel (p : Program) (i : InstId) : Option (Option VarId) := do
  let x ← p.instr? i
  if x.branch = .straight then return none
  else x.src.reverse.findM? fun v => do
    let v ← p.var? v
    return v.kind == .label

def branchTarget (limit : Level) (p : Program) (i : InstId) :
    Checked FlowError (Option InstId) := do
  match ← branchLabel p i with
  | none => return none
  | some label =>
    match p.carrier? label with
    | none => do
      let v ← p.var? label
      throw (.labelNotFound v.name)
    | some target => do
      let x ← p.instr? target
      if x.isEntry then
        if target + 1 < p.size then return some (target + 1)
        else do
          let _ ← logged .warn limit ((p.instr? i).map fun _ => ())
          return none
      else return some target

/-- The registers among some operands. -/
def registersOf (p : Program) (operands : List VarId) : Option IdSet := do
  let registers ← operands.filterM fun v => do
    let v ← p.var? v
    return v.isRegister
  return .ofList registers

def flowNode (p : Program) (x : Instruction) : Option FlowNode := do
  let uses ← registersOf p x.src
  let defs ← registersOf p x.dst
  return { uses, defs }

def fallsThrough (p : Program) (i : InstId) : Option Bool :=
  if i + 1 < p.size then do
    let x ← p.instr? i
    if x.branch = .unconditional then return false
    else do
      let y ← p.instr? (i + 1)
      return !y.isEntry
  else return false

def link (f : Flow) (edge : InstId × InstId) : Option Flow := do
  let _ ← f.nodes[edge.1]?
  let _ ← f.nodes[edge.2]?
  return f.link edge

/-- Adds the edge from `i` to the instruction after it, if control falls through. -/
def linkNext (p : Program) (f : Flow) (i : InstId) : Option Flow := do
  let falls ← fallsThrough p i
  if falls then link f (i, i + 1) else return f

/-- Adds the edges that leave `i`. -/
def connect (limit : Level) (p : Program) (targets : List (Option InstId)) (f : Flow) (i : InstId) :
    Option Flow := do
  let f ← linkNext p f i
  match ← targets[i]? with
  | none => return f
  | some target => do
    let _ ← logged .trace limit do
      let _ ← p.instr? i
      let _ ← p.instr? target
      return ()
    link f (i, target)

/-- The graph with the edges of all instructions. -/
def connectAll (limit : Level) (p : Program) (targets : List (Option InstId)) : Option Flow := do
  let nodes ← p.instrs.toList.mapM (flowNode p)
  (List.range p.size).foldlM (connect limit p targets) ⟨nodes.toArray⟩

def flow (limit : Level) (p : Program) : Checked FlowError Flow := do
  let _ ← liftExcept p.checkEntry
  let targets ← (List.range p.size).mapM (branchTarget limit p)
  liftM (connectAll limit p targets)

/-! ## Live sets -/

def transfer (f : Flow) (l : Liveness) (i : InstId) : Option LiveSets := do
  let node ← f.nodes[i]?
  let ins ← node.succs.toList.mapM fun s => (l.sets[s]?).map LiveSets.liveIn
  let out := IdSet.unions ins
  return ⟨(out \ node.defs) ∪ node.uses, out⟩

def visit (f : Flow) (s : Sweep) (i : InstId) : Option Sweep := do
  let sets ← transfer f s.live i
  let old ← s.live.sets[i]?
  if old = sets then return s else return ⟨s.live.set i sets, true⟩

def sweep (f : Flow) (l : Liveness) : Option Sweep :=
  (List.range l.size).reverse.foldlM (visit f) ⟨l, false⟩

def solveFrom (f : Flow) : (cap made : Nat) → Liveness → Option (Summary × Liveness)
  | 0, made, l => return (⟨made, false⟩, l)
  | cap + 1, made, l => do
    let s ← sweep f l
    if s.changed then solveFrom f cap (made + 1) s.live else return (⟨made + 1, true⟩, s.live)

def isFixedPoint (f : Flow) (l : Liveness) : Option Bool :=
  (List.range l.size).allM fun i => do
    let sets ← transfer f l i
    let old ← l.sets[i]?
    return decide (old = sets)

/-! ## Interference -/

def positions (p : Program) (s : IdSet) : Option (List Nat) := do
  let vars ← s.toList.mapM p.var?
  return vars.filterMap Variable.position

def joinEach (g : Graph) (a : Nat) (bs : List Nat) : Option Graph :=
  bs.foldlM (fun g b => (g.addEdge? a b).map Prod.fst) g

/-- The elements from index `n` on. -/
def suffix? {α : Type} (xs : List α) (n : Nat) : Option (List α) :=
  if n ≤ xs.length then some (xs.drop n) else none

/-- Joins the node at index `i` to all that come after it. -/
def joinAt (nodes : List Nat) (g : Graph) (i : Nat) : Option Graph := do
  let a ← nodes[i]?
  let rest ← suffix? nodes (i + 1)
  joinEach g a rest

def joinAll (g : Graph) (nodes : List Nat) : Option Graph :=
  (List.range nodes.length).foldlM (joinAt nodes) g

def join (rule : Rule) (defs liveIn liveOut : List Nat) (g : Graph) : Option Graph :=
  match rule with
  | .defLiveOut =>
    (defs.filter fun d => decide (d ∈ liveOut)).foldlM (fun g d => joinEach g d liveOut) g
  | .allLive => do
    let g ← joinAll g liveIn
    joinAll g liveOut

def interfereAt (p : Program) (f : Flow) (l : Liveness) (rule : Rule) (g : Graph) (i : InstId) :
    Option Graph := do
  let node ← f.nodes[i]?
  let sets ← l.sets[i]?
  let defs ← positions p node.defs
  let liveIn ← positions p sets.liveIn
  let liveOut ← positions p sets.liveOut
  join rule defs liveIn liveOut g

def interference (p : Program) (f : Flow) (l : Liveness) (rule : Rule) : Option Graph :=
  (List.range p.size).foldlM (interfereAt p f l rule) (Graph.empty p.registerCount)

/-! ## Control flow is safe -/

theorem logged_eq_some {level limit : Level} {accesses : Option Unit} (h : accesses = some ()) :
    logged level limit accesses = some () := by
  rw [logged, h]
  split <;> rfl

section Flow

variable {p : Program} {i : InstId}

theorem branchLabel_eq_some (h : p.Indexed) (hi : i < p.size) :
    branchLabel p i = some (p.branchLabel? i) := by
  unfold branchLabel Program.branchLabel?
  rw [Program.instr?_eq_some hi, Option.bind_eq_bind, Option.bind_some]
  split
  · rfl
  · refine findM?_eq_some fun v hv => ?_
    have hmem : v ∈ (p.instr i).operands := List.mem_append_right _ (List.mem_reverse.mp hv)
    rw [Program.var?_eq_some (h.operand hi hmem)]
    rfl

theorem branchTarget_follows (h : p.Indexed) (limit : Level) (hi : i < p.size) :
    Follows Eq (branchTarget limit p i) (p.branchTarget? i) := by
  refine .access (branchLabel_eq_some h hi) ?_
  unfold Program.branchTarget?
  cases hlabel : p.branchLabel? i with
  | none => exact .ok rfl
  | some label =>
      dsimp only
      cases htarget : p.carrier? label with
      | none =>
          have hmem := List.mem_append_right (p.instr i).dst (Program.branchLabel?_eq_some hlabel).1
          exact .access (Program.var?_eq_some (h.operand hi hmem)) .error
      | some target =>
          have hlt : target < p.size := (Program.of_carrier? htarget).1
          refine .access (Program.instr?_eq_some hlt) ?_
          dsimp only [Program.landing?]
          split
          · split
            · exact .ok rfl
            · refine .access (logged_eq_some ?_) (.ok rfl)
              rw [Program.instr?_eq_some hi]
              rfl
          · exact .ok rfl

theorem registersOf_eq_some (h : p.Indexed) {operands : List VarId} (hi : i < p.size)
    (hmem : ∀ v ∈ operands, v ∈ (p.instr i).operands) :
    registersOf p operands = some (p.registersOf operands) := by
  have hfilter : (operands.filterM fun v => do
      let v ← p.var? v
      return v.isRegister) = some (operands.filter fun v => (p.var v).isRegister) := by
    refine filterM_eq_some fun v hv => ?_
    rw [Program.var?_eq_some (h.operand hi (hmem v hv))]
    rfl
  rw [registersOf, hfilter]
  rfl

theorem flowNode_eq_some (h : p.Indexed) (hi : i < p.size) :
    flowNode p (p.instr i) = some (p.flowNode (p.instr i)) := by
  rw [flowNode, registersOf_eq_some h hi fun v hv => List.mem_append_right _ hv,
    registersOf_eq_some h hi fun v hv => List.mem_append_left _ hv]
  rfl

theorem fallsThrough_eq_some (hi : i < p.size) :
    fallsThrough p i = some (p.fallsThrough i) := by
  unfold fallsThrough Program.fallsThrough
  by_cases hnext : i + 1 < p.size
  · rw [if_pos hnext, Program.instr?_eq_some hi, Program.instr?_eq_some hnext]
    by_cases hbranch : (p.instr i).branch = .unconditional <;> simp [hnext, hbranch]
  · rw [if_neg hnext]
    simp [hnext]

theorem lt_size_of_fallsThrough (h : p.fallsThrough i = true) : i + 1 < p.size := by
  simp only [Program.fallsThrough, Bool.and_eq_true, decide_eq_true_eq] at h
  exact h.1.1

theorem lt_size_of_branchTarget? {target : InstId} (ht : p.branchTarget? i = .ok (some target)) :
    target < p.size := by
  unfold Program.branchTarget? at ht
  split at ht
  · cases ht
  · split at ht
    · cases ht
    · rename_i carrier hcarrier
      have hlt : carrier < p.size := (Program.of_carrier? hcarrier).1
      unfold Program.landing? at ht
      grind

theorem link_eq_some {f : Flow} {edge : InstId × InstId} (hsource : edge.1 < f.size)
    (htarget : edge.2 < f.size) : link f edge = some (f.link edge) := by
  have hs : edge.1 < f.nodes.size := hsource
  have ht : edge.2 < f.nodes.size := htarget
  simp [link, hs, ht]

theorem linkNext_eq_some {f : Flow} (hsize : f.size = p.size) (hi : i < p.size) :
    linkNext p f i =
      some ((if p.fallsThrough i then [(i, i + 1)] else []).foldl Flow.link f) := by
  rw [linkNext, fallsThrough_eq_some hi, Option.bind_eq_bind, Option.bind_some]
  cases hfalls : p.fallsThrough i with
  | false => rfl
  | true =>
      exact link_eq_some (hsize ▸ hi) (hsize ▸ lt_size_of_fallsThrough hfalls)

theorem connect_eq_some (limit : Level) {targets : List (Option InstId)} {target : Option InstId}
    {f : Flow} (hsize : f.size = p.size) (hi : i < p.size) (hget : targets[i]? = some target)
    (htarget : ∀ t, target = some t → t < p.size) :
    connect limit p targets f i = some ((p.edgesFrom i target).foldl Flow.link f) := by
  rw [connect, linkNext_eq_some hsize hi, hget, Program.edgesFrom, List.foldl_append]
  generalize hf' : (if p.fallsThrough i then [(i, i + 1)] else []).foldl Flow.link f = f'
  have hsize' : f'.size = p.size := by rw [← hf', Flow.size_foldl_link, hsize]
  cases target with
  | none => rfl
  | some t =>
      have ht := htarget t rfl
      have hlogged : logged .trace limit (do
          let _ ← p.instr? i
          let _ ← p.instr? t
          return ()) = some () := by
        apply logged_eq_some
        rw [Program.instr?_eq_some hi, Program.instr?_eq_some ht]
        rfl
      simp only [Option.bind_eq_bind, Option.bind_some] at hlogged ⊢
      rw [hlogged, Option.bind_some, link_eq_some (hsize' ▸ hi) (hsize' ▸ ht)]
      rfl

theorem connectAll_eq_some (h : p.Indexed) (limit : Level) {targets : List (Option InstId)}
    (htargets : List.Forall₂ (fun i target => p.branchTarget? i = .ok target)
      (List.range p.size) targets) :
    connectAll limit p targets = some ((((List.range p.size).zip targets).flatMap
      fun (i, target) => p.edgesFrom i target).foldl Flow.link ⟨p.instrs.map p.flowNode⟩) := by
  have hnodes : p.instrs.toList.mapM (flowNode p) = some (p.instrs.toList.map p.flowNode) := by
    refine mapM_eq_some fun x hx => ?_
    obtain ⟨i, hi, rfl⟩ := Program.exists_instr_of_mem (Array.mem_toList_iff.mp hx)
    exact flowNode_eq_some h hi
  have hstart : (Flow.mk (p.instrs.toList.map p.flowNode).toArray) =
      ⟨p.instrs.map p.flowNode⟩ := by
    rw [← Array.toList_map, Array.toArray_toList]
  have hlength : targets.length = p.size := by
    rw [← htargets.length_eq, List.length_range]
  have hpairs : (List.range p.size).zip targets =
      (List.range p.size).map fun i => (i, (targets[i]?).join) := by
    refine List.ext_getElem (by simp [hlength]) fun n hn hn' => ?_
    have hlt : n < targets.length := by simpa [hlength] using hn'
    simp [hlt]
  have hloop := @foldlM_eq_some _ _ (List.range p.size) (connect limit p targets)
    (fun f i => (p.edgesFrom i (targets[i]?).join).foldl Flow.link f) (fun f => f.size = p.size)
    ⟨p.instrs.map p.flowNode⟩ Array.size_map ?_
  · rw [connectAll, hnodes, Option.bind_eq_bind, Option.bind_some, hstart, hloop.1, hpairs,
      List.flatMap_map, List.foldl_flatMap]
  · intro f hsize i hi
    have hi := List.mem_range.mp hi
    obtain ⟨target, hget⟩ : ∃ target, targets[i]? = some target :=
      ⟨_, List.getElem?_eq_getElem (hlength.symm ▸ hi)⟩
    have htarget : p.branchTarget? i = .ok target := by
      obtain ⟨hlt, rfl⟩ := List.getElem?_eq_some_iff.mp hget
      simpa using htargets.get (by simpa using hi) hlt
    rw [hget]
    refine ⟨connect_eq_some limit hsize hi hget ?_, ?_⟩
    · rintro t rfl
      exact lt_size_of_branchTarget? htarget
    · rw [Flow.size_foldl_link, hsize]

/-- Building the control-flow graph makes no access out of range. -/
theorem flow_follows (h : p.Indexed) (limit : Level) : Follows Eq (flow limit p) p.flow := by
  refine (Follows.lift p.checkEntry).bind fun _ _ _ _ => ?_
  refine (Follows.mapM fun i hi => branchTarget_follows h limit (List.mem_range.mp hi)).bind ?_
  rintro targets _ htargets rfl
  exact .last_access (connectAll_eq_some h limit (Program.mapM_eq_ok_iff.mp htargets)) rfl

end Flow

/-! ## Live sets are safe -/

theorem closed_blank (n : Nat) : (Flow.blank n).Closed := by
  intro i s hs
  rw [Flow.node_blank] at hs
  exact absurd hs (IdSet.not_mem_empty s)

theorem closed_flow {p : Program} {f : Flow} (hflow : p.flow = .ok f) : f.Closed := by
  intro i s hs
  have hsize := Program.size_flow hflow
  by_cases hi : i < p.size
  · rcases (Program.mem_succs_flow hflow hi).mp hs with ⟨hfalls, rfl⟩ | htarget
    · exact hsize ▸ lt_size_of_fallsThrough hfalls
    · exact hsize ▸ lt_size_of_branchTarget? htarget
  · rw [Flow.node_of_size_le (hsize ▸ Nat.le_of_not_lt hi)] at hs
    exact absurd hs (IdSet.not_mem_empty s)

section Liveness

variable {f : Flow} {l : Liveness} {i : InstId}

theorem transfer_eq_some (h : f.Closed) (hsize : l.size = f.size) (hi : i < f.size) :
    transfer f l i = some (f.transfer l i) := by
  have hnode : f.nodes[i]? = some (f.node i) := Flow.getElem?_nodes hi
  have hins : ((f.node i).succs.toList.mapM fun s => (l.sets[s]?).map LiveSets.liveIn) =
      some ((f.node i).succs.toList.map fun s => (l.get s).liveIn) := by
    refine mapM_eq_some fun s hs => ?_
    rw [Liveness.getElem?_sets (hsize.symm ▸ h i s hs)]
    rfl
  rw [transfer, hnode, Option.bind_eq_bind, Option.bind_some, hins]
  rfl

theorem visit_eq_some (h : f.Closed) {s : Sweep} (hsize : s.live.size = f.size) (hi : i < f.size) :
    visit f s i = some (f.visit s i) := by
  rw [visit, transfer_eq_some h hsize hi, Liveness.getElem?_sets (hsize.symm ▸ hi)]
  simp only [Option.bind_eq_bind, Option.bind_some, Flow.visit]
  split <;> rfl

theorem sweep_eq_some (h : f.Closed) (hsize : l.size = f.size) :
    sweep f l = some (f.sweep l) ∧ (f.sweep l).live.size = f.size := by
  refine foldlM_eq_some (I := fun s : Sweep => s.live.size = f.size) hsize fun s hs i hi => ?_
  have hi : i < f.size := by simpa [hsize] using hi
  refine ⟨visit_eq_some h hs hi, ?_⟩
  exact Flow.visit_preserves (P := fun m => m.size = f.size)
    (fun m i hm => (m.size_set i _).trans hm) hs i

theorem solveFrom_eq_some (h : f.Closed) (cap made : Nat) (hsize : l.size = f.size) :
    solveFrom f cap made l = some (f.solveFrom cap made l) := by
  induction cap generalizing made l with
  | zero => rfl
  | succ cap ih =>
      obtain ⟨hsweep, hsize'⟩ := sweep_eq_some h hsize
      rw [solveFrom, hsweep, Option.bind_eq_bind, Option.bind_some, Flow.solveFrom]
      split
      · exact ih (made + 1) hsize'
      · rfl

theorem isFixedPoint_eq_some (h : f.Closed) (hsize : l.size = f.size) :
    isFixedPoint f l = some (f.isFixedPoint l) := by
  refine allM_eq_some fun i hi => ?_
  have hi : i < l.size := List.mem_range.mp hi
  rw [transfer_eq_some h hsize (hsize ▸ hi), Liveness.getElem?_sets hi]
  rfl

end Liveness

/-! ## Interference is safe -/

section Interference

variable {p : Program} {g : Graph}

theorem positions_eq_some {s : IdSet} (h : ∀ v ∈ s, v < p.vars.size) :
    positions p s = some (p.positions s) := by
  have hvars : s.toList.mapM p.var? = some (s.toList.map p.var) :=
    mapM_eq_some fun v hv => Program.var?_eq_some (h v hv)
  rw [positions, hvars, Option.bind_eq_bind, Option.bind_some, List.filterMap_map]
  rfl

theorem joinEach_eq_some {a : Nat} {bs : List Nat} (ha : a < g.size) (hbs : ∀ b ∈ bs, b < g.size) :
    joinEach g a bs = some (g.joinEach a bs) := by
  refine (foldlM_eq_some (I := fun g' => g'.size = g.size) rfl fun g' hg' b hb => ?_).1
  refine ⟨?_, (g'.adds_addEdge a b).size_eq.trans hg'⟩
  rw [Graph.addEdge?_eq_some (hg' ▸ ha) (hg' ▸ hbs b hb)]
  rfl

theorem joinAt_cons_zero (a : Nat) (nodes : List Nat) (g : Graph) :
    joinAt (a :: nodes) g 0 = joinEach g a nodes := by
  simp [joinAt, suffix?]

theorem joinAt_cons_succ (a : Nat) (nodes : List Nat) (g : Graph) (i : Nat) :
    joinAt (a :: nodes) g (i + 1) = joinAt nodes g i := by
  simp [joinAt, suffix?]

theorem joinAll_eq_some {nodes : List Nat} (h : ∀ a ∈ nodes, a < g.size) :
    joinAll g nodes = some (g.joinAll nodes) := by
  induction nodes generalizing g with
  | nil => rfl
  | cons a nodes ih =>
      rw [List.forall_mem_cons] at h
      have hsize : (g.joinEach a nodes).size = g.size := (g.adds_joinEach a nodes).size_eq
      -- past the first index the loop is that over the tail
      have hrest := ih (g := g.joinEach a nodes) (hsize.symm ▸ h.2)
      rw [joinAll, List.length_cons, List.range_succ_eq_map, List.foldlM_cons, joinAt_cons_zero,
        joinEach_eq_some h.1 h.2, Option.bind_eq_bind, Option.bind_some, List.foldlM_map]
      simp only [joinAt_cons_succ]
      exact hrest

theorem join_eq_some (rule : Rule) {defs liveIn liveOut : List Nat} (hdefs : ∀ a ∈ defs, a < g.size)
    (hin : ∀ a ∈ liveIn, a < g.size) (hout : ∀ a ∈ liveOut, a < g.size) :
    join rule defs liveIn liveOut g = some (rule.join defs liveIn liveOut g) := by
  cases rule with
  | defLiveOut =>
      refine (foldlM_eq_some (I := fun g' => g'.size = g.size) rfl fun g' hg' d hd => ?_).1
      have hd := hdefs d (List.mem_of_mem_filter hd)
      exact ⟨joinEach_eq_some (hg' ▸ hd) (hg' ▸ hout),
        (g'.adds_joinEach d liveOut).size_eq.trans hg'⟩
  | allLive =>
      have hsize : (g.joinAll liveIn).size = g.size := (g.adds_joinAll liveIn).size_eq
      rw [join, joinAll_eq_some hin, Option.bind_eq_bind, Option.bind_some,
        joinAll_eq_some (hsize ▸ hout)]
      rfl

/-- Sets of registers have positions in the graph. -/
theorem lt_registerCount_of_mem_positions (h : p.Indexed) {s : IdSet} {x : Nat}
    (hx : x ∈ p.positions s) : x < p.registerCount := by
  obtain ⟨v, _, hposition⟩ := Program.mem_positions.mp hx
  exact h.position hposition

theorem lt_size_of_isRegister {v : VarId} (h : (p.var v).isRegister = true) : v < p.vars.size := by
  refine Program.lt_size_of_kind ?_
  rw [eq_of_beq h]
  exact nofun

/-- Building the interference graph makes no access out of range. -/
theorem interference_eq_some (h : p.Indexed) {f : Flow} {l : Liveness} (hflow : p.flow = .ok f)
    (hsize : l.size = p.size) (hsound : l.Sound f) (rule : Rule) :
    interference p f l rule = some (p.interference f l rule) := by
  refine (foldlM_eq_some (I := fun g : Graph => g.size = p.registerCount) rfl ?_).1
  intro g hg i hi
  have hi : i < p.size := List.mem_range.mp hi
  have hdefs : ∀ v ∈ (f.node i).defs, v < p.vars.size := by
    intro v hv
    rw [Program.defs_flow hflow, Program.mem_registersOf] at hv
    exact lt_size_of_isRegister hv.2
  have hin : ∀ v ∈ (l.get i).liveIn, v < p.vars.size := fun v hv =>
    lt_size_of_isRegister (Program.isRegister_of_liveIn hflow (hsound.liveIn hv))
  have hout : ∀ v ∈ (l.get i).liveOut, v < p.vars.size := fun v hv =>
    lt_size_of_isRegister (Program.isRegister_of_liveOut hflow (hsound.liveOut hv))
  have hnode := Flow.getElem?_nodes (f := f) (Program.size_flow hflow ▸ hi)
  have hsets := Liveness.getElem?_sets (l := l) (hsize ▸ hi)
  refine ⟨?_, (rule.adds_join _ _ _ g).size_eq.trans hg⟩
  rw [interfereAt, hnode, hsets]
  simp only [Option.bind_eq_bind, Option.bind_some, positions_eq_some hdefs,
    positions_eq_some hin, positions_eq_some hout]
  refine join_eq_some rule ?_ ?_ ?_ <;> intro a ha <;> rw [hg] <;>
    exact lt_registerCount_of_mem_positions h ha

end Interference

end Checked

end RegAlloc
