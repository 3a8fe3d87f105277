import RegAlloc.Proofs.Assembly.Decoding
import RegAlloc.Proofs.Session.Clobbering
import RegAlloc.Proofs.Session.Output

/-!
# What the output of a session shows

A session that gives its output has a slot for each register, so its document can be read back. Two
sessions with the same document have the same code and data, up to the names that were written in
place of the registers.
-/

namespace RegAlloc.Session

variable {s s' : Session} {p : Program} {text text' out : String} {config config' : Config}
  {calls calls' : List Call}

theorem output_eq_ok (h : s.output = .ok out) : s.isAllocated = true ∧ s.assembly = out := by
  unfold output at h
  split at h
  · rename_i hallocated
    exact ⟨hallocated, Except.ok.inj h⟩
  · cases h

theorem Tracks.performAll {f : Flow} (h : s.Tracks p f) (hflow : p.flow = .ok f)
    (calls : List Call) : (s.performAll calls).Tracks p f := by
  induction calls generalizing s with
  | nil => exact h
  | cons c calls ih => exact ih (h.perform hflow c)

/-- The slots of the last allocation are still there. -/
theorem exists_slotOf_of_isAllocated (hparse : Program.parse text = .ok p)
    (h : ((ofAnnotated (.ofProgram p) config).performAll calls).isAllocated = true) {v : VarId}
    (hv : (p.var v).isRegister = true) :
    ∃ slot, ((ofAnnotated (.ofProgram p) config).performAll calls).state.slotOf v = some slot ∧
      config.palette.contains slot = true := by
  obtain ⟨before, call, after, f, c, rfl, hlast⟩ := exists_lastAllocation rfl h
  have hflow : p.flow = .ok f := hlast.program_flow
  have htracks := (tracks_ofProgram p f config).performAll hflow before
  obtain ⟨slot, hslot, hcontains⟩ :=
    hlast.completed.exists_slotOf htracks (Program.finished_of_parse hparse).numbered hv
  obtain ⟨hslots, _⟩ := performAll_analyses_keep
    ((ofAnnotated (.ofProgram p) config).program_performAll (before ++ [call]) ▸
      hlast.program_flow)
    (by rw [hlast.completed.graph_eq]; rfl) hlast.after_eq
  refine ⟨slot, ?_, ?_⟩
  · rw [LastAllocation.performAll_eq, Annotated.slotOf, hslots, program_performAll]
    exact hslot
  · rw [config_performAll] at hcontains
    exact hcontains

/-- A session that gives its output has a document that can be read back. -/
theorem legible_of_output (hs : ofSource text config = .ok s)
    (halphanumeric : ∀ name ∈ config.palette.names, ∀ c ∈ name.toList, c.isAlphanum = true)
    (hout : (s.performAll calls).output = .ok out) :
    (s.performAll calls).state.Legible config.palette ∧
      (s.performAll calls).state.assembly config.palette config.globl = out := by
  obtain ⟨p, hparse, rfl⟩ := Parser.map_eq_ok.mp hs
  obtain ⟨hallocated, htext⟩ := output_eq_ok hout
  rw [assembly, config_performAll] at htext
  have hprogram := program_performAll (ofAnnotated (.ofProgram p) config) calls
  refine ⟨⟨?_, ?_, ?_, halphanumeric⟩, htext⟩
  · rw [hprogram]
    exact Program.linked_of_parse hparse
  · rw [hprogram]
    exact Program.named_of_parse hparse
  · intro v hv
    rw [hprogram] at hv
    exact exists_slotOf_of_isAllocated hparse hallocated (beq_iff_eq.mpr hv)

/-- Sessions with the same output have the same visibility, memory variables and instructions. Each
register is printed as the name of its slot, and the line of an instruction has all its operands. -/
theorem output_determines_program (hs : ofSource text config = .ok s)
    (hs' : ofSource text' config' = .ok s')
    (hnames : ∀ name ∈ config.palette.names, ∀ c ∈ name.toList, c.isAlphanum = true)
    (hnames' : ∀ name ∈ config'.palette.names, ∀ c ∈ name.toList, c.isAlphanum = true)
    (hout : (s.performAll calls).output = .ok out)
    (hout' : (s'.performAll calls').output = .ok out) :
    let a := (s.performAll calls).state
    let b := (s'.performAll calls').state
    config.globl = config'.globl ∧
    a.program.memory.map (fun v => ((a.program.var v).name, (a.program.var v).value)) =
      b.program.memory.map (fun v => ((b.program.var v).name, (b.program.var v).value)) ∧
    a.program.size = b.program.size ∧
    (∀ i < a.program.size, a.printed config.palette i = b.printed config'.palette i) ∧
    (∀ i < a.program.size, ∀ v ∈ (a.program.instr i).operands,
      (a.program.var v).kind = .register →
        ∃ slot name, a.slotOf v = some slot ∧ config.palette.name? slot = some name ∧
          a.operand config.palette v = "$" ++ name ∧
          a.operand config.palette v ≠ (a.program.var v).name) ∧
    ∀ i < a.program.size, (a.program.instr i).isEntry = false →
      (Listing.read out)[a.program.lineOf i]?.map Listing.Row.operands =
        some ((a.program.instr i).operands.map (a.operand config.palette)) := by
  intro a b
  obtain ⟨ha, htext⟩ := legible_of_output hs hnames hout
  obtain ⟨hb, htext'⟩ := legible_of_output hs' hnames' hout'
  have hsame := htext.trans htext'.symm
  obtain ⟨hglobl, hmemory⟩ := Annotated.Legible.globl_eq_and_memory_eq ha hb hsame
  refine ⟨hglobl, hmemory, Annotated.Legible.size_eq ha hb hsame,
    fun i hi => Annotated.Legible.printed_eq ha hb hsame hi, ?_, ?_⟩
  · intro i hi v hv hkind
    obtain ⟨slot, name, hslot, hname, hoperand, _, _⟩ := ha.exists_name hkind
    exact ⟨slot, name, hslot, hname, hoperand, ha.operand_ne_name hi hv hkind⟩
  · intro i hi hentry
    have hne := ha.linked.ne_zero_of_isEntry hentry
    rw [← htext, Annotated.getElem?_read ha.linked ha.named ha.unbroken config.globl hi hne,
      Option.map_some, ha.operands_body hi hne]

/-- A memory variable is read again and again through one of two registers. -/
def pollText (register : String) : String :=
  "_mem m1 -7; _reg r1; _reg r2; _func main; la " ++ register ++ ", m1; top: lw " ++ register ++
    ", 4(" ++ register ++ "); b top;"

theorem polls_show_same_program :
    ∃ s s' out, ofSource (pollText "r1") {} = .ok s ∧ ofSource (pollText "r2") {} = .ok s' ∧
      (s.performAll [.allocate]).output = .ok out ∧ (s'.performAll [.succeed]).output = .ok out ∧
      (s.performAll [.allocate]).state.printed .standard 2 =
        (s'.performAll [.succeed]).state.printed .standard 2 := by
  let out := ".data\nm1:\t.word -7\n\n.text\nmain:\n\tla $t0, m1\ntop:\n\tlw $t0, 4($t0)\n" ++
    "\tb top\n\tjr $ra"
  obtain ⟨s, hs, hout, hsize⟩ : ∃ s, ofSource (pollText "r1") {} = .ok s ∧
      (s.performAll [.allocate]).output = .ok out ∧
      2 < (s.performAll [.allocate]).state.program.size :=
    exists_ok_of_decide (by decide +kernel)
  obtain ⟨s', hs', hout'⟩ : ∃ s, ofSource (pollText "r2") {} = .ok s ∧
      (s.performAll [.succeed]).output = .ok out :=
    exists_ok_of_decide (by decide +kernel)
  have hall : (Palette.standard.names.all fun name => name.toList.all Char.isAlphanum) = true := by
    decide +kernel
  have hnames : ∀ name ∈ Palette.standard.names, ∀ c ∈ name.toList, c.isAlphanum = true := by
    simpa only [List.all_eq_true] using hall
  obtain ⟨_, _, _, hprinted, _⟩ := output_determines_program hs hs' hnames hnames hout hout'
  exact ⟨s, s', out, hs, hs', hout, hout', hprinted 2 hsize⟩

end RegAlloc.Session
