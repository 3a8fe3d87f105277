import RegAlloc.Proofs.Allocation.Outcome
import RegAlloc.Proofs.Palette.Registers
import RegAlloc.Proofs.Program.Renaming
import RegAlloc.Proofs.Session.Emission

/-!
# Sessions and the names of registers

The passes number registers and never look at their names, and a document that can be had shows the
registers of the palette in their place. So sessions over texts that differ in the names of their
registers answer every call in the same way.
-/

namespace RegAlloc

variable (f : String ↪ String)

/-! ## Passes over the program -/

namespace Program

variable (p : Program)

theorem registersOf_renamed (operands : List VarId) :
    (p.renamed f).registersOf operands = p.registersOf operands := by
  simp only [registersOf, var_renamed]
  rfl

theorem flowNode_renamed : (p.renamed f).flowNode = p.flowNode := by
  funext i
  rw [flowNode, flowNode, registersOf_renamed, registersOf_renamed]

theorem branchLabel?_renamed (i : InstId) : (p.renamed f).branchLabel? i = p.branchLabel? i := by
  simp only [branchLabel?, var_renamed]
  rfl

/-- A fault names a label, and labels keep their names. -/
theorem branchTarget?_renamed : (p.renamed f).branchTarget? = p.branchTarget? := by
  funext i
  unfold branchTarget?
  rw [branchLabel?_renamed]
  cases hlabel : p.branchLabel? i with
  | none => rfl
  | some label =>
      have hkind := (branchLabel?_eq_some hlabel).2
      simp only [var_renamed, Variable.renamed, hkind, reduceCtorEq, ite_false]
      rfl

theorem flow_renamed : (p.renamed f).flow = p.flow := by
  unfold flow branchTargets
  rw [branchTarget?_renamed, flowNode_renamed]
  rfl

theorem positions_renamed (s : IdSet) : (p.renamed f).positions s = p.positions s := by
  simp only [positions, var_renamed]
  rfl

theorem interference_renamed (flow : Flow) (l : Liveness) (rule : Rule) :
    (p.renamed f).interference flow l rule = p.interference flow l rule := by
  have hat : (p.renamed f).interfereAt flow l rule = p.interfereAt flow l rule := by
    funext g i
    simp only [interfereAt, positions_renamed]
  rw [interference, hat]
  rfl

/-- Selection of a simplified graph never fails, so no name of a register is reported. -/
theorem allocate?_renamed (palette : Palette) (g : Graph) :
    (p.renamed f).allocate? palette g = p.allocate? palette g := by
  unfold allocate?
  cases hstack : g.simplify palette.size with
  | error remaining => rfl
  | ok stack =>
      simp only [select?_of_simplify _ hstack]
      rfl

end Program

/-! ## Documents -/

theorem Program.Finished.kind_of_mem_memory {p : Program} (h : p.Finished) :
    ∀ v ∈ p.memory, (p.var v).kind = .memory := by
  obtain ⟨b, hb, rfl⟩ := h
  intro v hv
  exact @Builder.Kinded.kind_of_mem b hb.kinded .memory v hv

namespace Annotated

def renamed (a : Annotated) : Annotated := { a with program := a.program.renamed f }

variable {f} {a : Annotated} {palette : Palette}

theorem var_renamed (a : Annotated) (v : VarId) :
    (a.renamed f).program.var v = (a.program.var v).renamed f :=
  a.program.var_renamed f v

theorem slotOf_renamed (a : Annotated) (v : VarId) : (a.renamed f).slotOf v = a.slotOf v := by
  rw [slotOf, var_renamed]
  rfl

theorem allocate?_renamed (a : Annotated) (palette : Palette) (g : Graph) :
    (a.renamed f).allocate? palette g =
      (a.allocate? palette g).map (Prod.map id (Annotated.renamed f)) := by
  have hallocate : (a.renamed f).program.allocate? palette g = a.program.allocate? palette g :=
    a.program.allocate?_renamed f palette g
  rw [allocate?, allocate?, hallocate]
  cases a.program.allocate? palette g <;> rfl

theorem operand_renamed
    (hslots : ∀ v, (a.program.var v).kind = .register →
      ((a.slotOf v).bind palette.render?).isSome = true) :
    (a.renamed f).operand palette = a.operand palette := by
  funext v
  unfold operand
  rw [var_renamed, slotOf_renamed]
  cases hkind : (a.program.var v).kind with
  | register =>
      obtain ⟨text, htext⟩ := Option.isSome_iff_exists.mp (hslots v hkind)
      simp [Variable.renamed, hkind, htext]
  | memory | label | constant | untyped => simp [Variable.renamed, hkind]

theorem dataLine_renamed {v : VarId} (h : (a.program.var v).kind = .memory) :
    (a.renamed f).dataLine v = a.dataLine v := by
  simp [dataLine, var_renamed, Variable.renamed, h]

/-- A document in which every register is shown by its slot. -/
theorem assembly_renamed
    (hslots : ∀ v, (a.program.var v).kind = .register →
      ((a.slotOf v).bind palette.render?).isSome = true)
    (hkinds : ∀ v ∈ a.program.memory, (a.program.var v).kind = .memory) (globl : Bool) :
    (a.renamed f).assembly palette globl = a.assembly palette globl := by
  have hoperand := operand_renamed (f := f) hslots
  have hdata : a.program.memory.map (a.renamed f).dataLine = a.program.memory.map a.dataLine :=
    List.map_congr_left fun v hv => dataLine_renamed (hkinds v hv)
  have hlines : (a.renamed f).line palette = a.line palette := by
    funext i
    rw [line, line, body, body, hoperand]
    rfl
  have hheader : (a.renamed f).globalHeader palette = a.globalHeader palette := by
    rw [globalHeader, globalHeader, hoperand]
    rfl
  have hmemory : (a.renamed f).program.memory = a.program.memory := rfl
  unfold assembly
  rw [hheader, hlines, hmemory, hdata]
  rfl

end Annotated

/-! ## Calls -/

namespace Session

def renamed (s : Session) : Session := { s with state := s.state.renamed f }

variable {f} (s : Session)

theorem buildFlow_renamed : (s.renamed f).buildFlow = Prod.map id (renamed f) s.buildFlow := by
  have hflow : (s.renamed f).state.program.flow = s.state.program.flow :=
    s.state.program.flow_renamed f
  rw [buildFlow_eq, buildFlow_eq, hflow]
  cases s.state.program.flow <;> rfl

theorem interfere_renamed : (s.renamed f).interfere = s.interfere.renamed f := by
  have hgraph : (s.renamed f).state.interference s.config.rule =
      s.state.interference s.config.rule :=
    s.state.program.interference_renamed f _ _ _
  simp only [interfere, renamed] at hgraph ⊢
  rw [hgraph]

theorem solve_renamed : (s.renamed f).solve = Prod.map id (renamed f) s.solve := rfl

theorem analyze_renamed : (s.renamed f).analyze = Prod.map id (renamed f) s.analyze := by
  unfold analyze
  rw [buildFlow_renamed]
  generalize s.buildFlow = built
  obtain ⟨result, t⟩ := built
  cases result with
  | error e => rfl
  | ok u =>
      simp only [solve_renamed, Prod.map_apply, Prod.map_fst, Prod.map_snd, id, interfere_renamed]
      rw [apply_ite (Prod.map id (renamed f))]
      rfl

theorem color_renamed : (s.renamed f).color = Prod.map id (renamed f) s.color := by
  have hgraph : (s.renamed f).graph = s.graph := rfl
  have hallocate : ∀ g, (s.renamed f).state.allocate? (s.renamed f).config.palette g =
      (s.state.allocate? s.config.palette g).map (Prod.map id (Annotated.renamed f)) :=
    s.state.allocate?_renamed s.config.palette
  unfold color
  rw [hgraph]
  cases s.graph with
  | none => rfl
  | some g =>
      simp only [hallocate]
      cases s.state.allocate? s.config.palette g <;> rfl

theorem allocate_renamed : (s.renamed f).allocate = Prod.map id (renamed f) s.allocate := by
  unfold allocate
  rw [analyze_renamed]
  rcases s.analyze with ⟨e | summary, t⟩
  · rfl
  · exact t.color_renamed

theorem perform_renamed (c : Call) : (s.renamed f).perform c = (s.perform c).renamed f := by
  cases c with
  | analyze => exact congrArg Prod.snd s.analyze_renamed
  | allocate => exact congrArg Prod.snd s.allocate_renamed
  | succeed => exact congrArg Prod.snd s.allocate_renamed

theorem performAll_renamed (calls : List Call) :
    (s.renamed f).performAll calls = (s.performAll calls).renamed f := by
  induction calls generalizing s with
  | nil => rfl
  | cons c calls ih =>
      rw [performAll, List.foldl_cons, perform_renamed]
      exact ih (s.perform c)

/-! ## Output -/

variable {p : Program} {text text' : String}

/-- A document can be had only when every register has a slot. -/
theorem output_renamed (hparse : Program.parse text = .ok p) (config : Config)
    (calls : List Call) :
    (((ofAnnotated (.ofProgram p) config).performAll calls).renamed f).output =
      ((ofAnnotated (.ofProgram p) config).performAll calls).output := by
  have hprogram := program_performAll (ofAnnotated (.ofProgram p) config) calls
  have hconfig := config_performAll (ofAnnotated (.ofProgram p) config) calls
  have hslots := @exists_slotOf_of_isAllocated p text config calls hparse
  generalize (ofAnnotated (.ofProgram p) config).performAll calls = t at hprogram hconfig hslots ⊢
  have hallocated : (t.renamed f).isAllocated = t.isAllocated := rfl
  have hassembly : (t.renamed f).assembly =
      (t.state.renamed f).assembly t.config.palette t.config.globl := rfl
  unfold output
  rw [hallocated, hassembly]
  split
  · rename_i hsuccess
    rw [Annotated.assembly_renamed]
    · rfl
    · intro v hv
      rw [hprogram] at hv
      obtain ⟨slot, hslot, hcontains⟩ := hslots hsuccess (beq_iff_eq.mpr hv)
      rw [hslot, hconfig]
      exact Palette.isSome_render?_iff.mpr hcontains
    · rw [hprogram]
      exact (Program.finished_of_parse hparse).kind_of_mem_memory
  · rfl

/-- Register names do not matter. Texts that differ in the names of their registers are both
programs or both none, and sessions over them answer an allocation in the same way after any calls,
with the same counters and the same output. -/
theorem register_names_irrelevant {f : RegisterName ↪ RegisterName} {ts us : List Token}
    (hts : tokenize text = .ok ts) (hus : tokenize text' = .ok us)
    (hrenames : List.Forall₂ (Token.Renames f) ts us) :
    ((∃ p, Program.parse text = .ok p) ↔ ∃ p, Program.parse text' = .ok p) ∧
    ∀ config s s' calls, ofSource text config = .ok s → ofSource text' config = .ok s' →
      (s.performAll calls).allocate.1 = (s'.performAll calls).allocate.1 ∧
      (s.performAll calls).stats = (s'.performAll calls).stats ∧
      (s.performAll calls).output = (s'.performAll calls).output := by
  have hmirrors := Program.mirrors_parse hts hus hrenames
  constructor
  · exact hmirrors.exists_ok_iff
  · intro config s s' calls hs hs'
    obtain ⟨p, hparse, rfl⟩ := Parser.map_eq_ok.mp hs
    obtain ⟨p', hparse', rfl⟩ := Parser.map_eq_ok.mp hs'
    rw [hparse, hparse'] at hmirrors
    cases hmirrors
    have hsession : ofAnnotated (.ofProgram (p.renamed (RegisterName.onNames f))) config =
        (ofAnnotated (.ofProgram p) config).renamed (RegisterName.onNames f) := rfl
    rw [hsession, performAll_renamed, allocate_renamed, output_renamed hparse]
    exact ⟨rfl, rfl, rfl⟩

/-- A number is stored at an address, from one register through another. -/
def storeFrom (value address : String) : String :=
  "_reg " ++ value ++ "; _reg " ++ address ++ "; _func main; li " ++ value ++ ", 1; li " ++
    address ++ ", 2; sw " ++ value ++ ", 0(" ++ address ++ ");"

/-- The registers `r1` and `r2` in each other's place. -/
def swapped : RegisterName ↪ RegisterName :=
  (Equiv.swap ⟨"r1", by decide⟩ ⟨"r2", by decide⟩).toEmbedding

theorem store_from_swapped_registers :
    ∃ s s' out, ofSource (storeFrom "r1" "r2") {} = .ok s ∧
      ofSource (storeFrom "r2" "r1") {} = .ok s' ∧ s.allocate.1 = s'.allocate.1 ∧
      (s.performAll [.allocate]).output = .ok out ∧
      (s'.performAll [.allocate]).output = .ok out := by
  obtain ⟨ts, hts, htokens⟩ : ∃ ts, tokenize (storeFrom "r1" "r2") = .ok ts ∧
      succeedsWith (fun us : List Token =>
        decide (ts.length = us.length ∧ ∀ q ∈ ts.zip us, q.1.Renames swapped q.2))
        (tokenize (storeFrom "r2" "r1")) = true :=
    exists_ok_of_decide (by decide +kernel)
  obtain ⟨us, hus, hlength, hpairs⟩ := exists_ok_of_decide htokens
  obtain ⟨haccepts, hagree⟩ := register_names_irrelevant hts hus
    (List.forall₂_iff_zip.mpr ⟨hlength, fun hq => hpairs _ hq⟩)
  obtain ⟨s, hs, hout⟩ : ∃ s, ofSource (storeFrom "r1" "r2") {} = .ok s ∧
      (s.performAll [.allocate]).output = .ok
        ".data\n\n.text\nmain:\n\tli $t1, 1\n\tli $t0, 2\n\tsw $t1, 0($t0)\n\tjr $ra" :=
    exists_ok_of_decide (by decide +kernel)
  obtain ⟨p, hparse, _⟩ := Parser.map_eq_ok.mp hs
  obtain ⟨p', hparse'⟩ := haccepts.mp ⟨p, hparse⟩
  have hs' : ofSource (storeFrom "r2" "r1") {} = .ok (ofAnnotated (.ofProgram p') {}) :=
    Parser.map_eq_ok.mpr ⟨p', hparse', rfl⟩
  exact ⟨s, _, _, hs, hs', (hagree _ _ _ [] hs hs').1, hout,
    (hagree _ _ _ [.allocate] hs hs').2.2 ▸ hout⟩

end Session

end RegAlloc
