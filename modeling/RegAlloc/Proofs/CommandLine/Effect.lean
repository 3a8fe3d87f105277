import RegAlloc.CommandLine.Terminal
import RegAlloc.Proofs.CommandLine.Configuration
import RegAlloc.Proofs.CommandLine.Extension
import RegAlloc.Proofs.FileTree.Creation
import RegAlloc.Proofs.Session.Emission

/-!
# The effect of a run on the files

A compile run ends with exit code 0 exactly if the input compiles and the output file can be
created. Then the output path holds the document, and all other files are as they were. Every other
run leaves all files as they were. Nothing depends on how arguments are read and how records are
shown.
-/

namespace RegAlloc

/-- A session gives its output right after an allocation that succeeded. -/
theorem Session.output_of_allocate {s t : Session} {c : Coloring}
    (h : s.allocate = (.ok (.allocated c), t)) : t.output = .ok t.assembly := by
  obtain ⟨f, hcompleted⟩ := completed_of_allocate h
  have hallocated : t.isAllocated = true := by
    rw [isAllocated, hcompleted.status_eq]
    rfl
  rw [output, if_pos hallocated]

/-- A file that can be read has a name. -/
theorem FileTree.fileName_ne_nil_of_readText {t : FileTree} {path text : String}
    (h : t.readText path = .ok text) : CommandLine.Path.fileName path.toList ≠ [] := by
  have hfile : ∃ target, t.names.locate false path = .ok target ∧
      (∀ place, target ≠ .directory place) ∧ ∀ place name, target ≠ .vacant place name := by
    obtain ⟨content, hread⟩ := exists_read_of_readText h
    obtain ⟨hlocate, _⟩ | ⟨place, id, hlocate, _⟩ := exists_locate_of_read hread
    · exact ⟨_, hlocate, fun _ => nofun, fun _ _ => nofun⟩
    · exact ⟨_, hlocate, fun _ => nofun, fun _ _ => nofun⟩
  obtain ⟨target, hlocate, hdirectory, hvacant⟩ := hfile
  exact CommandLine.Path.fileName_ne_nil (NameTree.locate_eq_ok_iff.mp hlocate).1.1
    (NameTree.asksDirectory_of_locate hlocate hdirectory hvacant)

namespace CommandLine

variable {o : Options} {ui : Interface} {files files' : FileTree} {source : Except FileError String}
  {out out' path : String}

/-! ## The output path -/

/-- The path of the output: the one that is asked for, or that of the input with the extension `s`. -/
structure Options.WritesTo (o : Options) (path : String) : Prop where
  given : ∀ asked, o.output = some asked → path = asked
  beside : o.output = none → Path.IsWithExtension o.input.toList ['s'] path.toList

theorem Options.WritesTo.eq_outputPath (h : o.WritesTo path) : path = o.outputPath := by
  rw [outputPath]
  cases houtput : o.output with
  | some asked => exact h.given asked houtput
  | none =>
      rw [Option.getD_none, ← String.toList_inj, String.toList_ofList]
      exact (Path.isWithExtension_iff.mp (h.beside houtput)).2

theorem Options.writesTo_outputPath (h : Path.fileName o.input.toList ≠ []) :
    o.WritesTo o.outputPath where
  given asked houtput := by rw [outputPath, houtput, Option.getD_some]
  beside houtput := by
    rw [outputPath, houtput, Option.getD_none, String.toList_ofList]
    exact Path.isWithExtension_iff.mpr ⟨h, rfl⟩

/-! ## The plan of a run -/

/-- The source is a text that compiles under the options, and `out` is the document. -/
def Options.Compiles (o : Options) (source : Except FileError String) (out : String) : Prop :=
  ∃ text config s c t, source = .ok text ∧ o.Sets config ∧
    Session.ofSource text config = .ok s ∧ s.allocate = (.ok (.allocated c), t) ∧
    t.output = .ok out

theorem Options.Compiles.plan_eq (h : o.Compiles source out) (ui : Interface) :
    ∃ before after, o.plan ui source = .write o.outputPath out before after := by
  obtain ⟨text, config, s, c, t, rfl, hsets, hsource, hallocate, hout⟩ := h
  obtain ⟨_, rfl⟩ := Session.output_eq_ok hout
  simp only [plan, config_eq_ok_iff.mpr hsets, hsource, hallocate]
  exact ⟨_, _, rfl⟩

theorem Options.Compiles.unique (h : o.Compiles source out) (h' : o.Compiles source out') :
    out' = out := by
  obtain ⟨_, _, hplan⟩ := h.plan_eq terminal
  obtain ⟨_, _, hplan'⟩ := h'.plan_eq terminal
  rw [hplan] at hplan'
  cases hplan'
  rfl

/-- A run that is not to write ends with an exit code for failures. -/
theorem Options.fail_eq (o : Options) (log : String) (failure : Failure) :
    ∃ exit shown, o.fail log failure = .fail exit shown ∧ (exit = 1 ∨ exit = 101) := by
  refine ⟨_, _, rfl, ?_⟩
  unfold Failure.exit
  split
  · exact Or.inr rfl
  · exact Or.inl rfl

/-- The plan of a run is to write the document of what compiles, or to fail. -/
theorem Options.plan_cases (o : Options) (ui : Interface) (source : Except FileError String) :
    (∃ exit log, o.plan ui source = .fail exit log ∧ (exit = 1 ∨ exit = 101)) ∨
      ∃ out before after, o.Compiles source out ∧
        o.plan ui source = .write o.outputPath out before after := by
  unfold plan
  split
  · exact Or.inl (o.fail_eq _ _)
  · rename_i text
    split
    · exact Or.inl (o.fail_eq _ _)
    · rename_i config hconfig
      split
      · exact Or.inl (o.fail_eq _ _)
      · rename_i s hsource
        dsimp only
        split
        · exact Or.inl (o.fail_eq _ _)
        · exact Or.inl ⟨_, _, rfl, Or.inl rfl⟩
        · rename_i c t hallocate
          exact Or.inr ⟨_, _, _, ⟨text, config, s, c, t, rfl, config_eq_ok_iff.mp hconfig, hsource,
            hallocate, Session.output_of_allocate hallocate⟩, rfl⟩

/-! ## Runs -/

/-- A run that writes: the input compiles, and the output file is created. -/
theorem Options.run_of_compiles (h : o.Compiles (files.readText o.input) out)
    (hwrite : files.write o.outputPath out = .ok files') (ui : Interface) :
    (o.run ui files).exit = 0 ∧ (o.run ui files).files = files' := by
  obtain ⟨before, after, hplan⟩ := h.plan_eq ui
  simp only [run, hplan, hwrite, and_self]

/-- A run that does not write leaves the files alone. -/
theorem Options.run_of_not_compiles
    (h : ¬ ∃ out files', o.Compiles (files.readText o.input) out ∧
      files.write o.outputPath out = .ok files') (ui : Interface) :
    ((o.run ui files).exit = 1 ∨ (o.run ui files).exit = 101) ∧ (o.run ui files).files = files := by
  unfold run
  obtain ⟨exit, log, hplan, hexit⟩ | ⟨out, before, after, hcompiles, hplan⟩ :=
    o.plan_cases ui (files.readText o.input)
  · rw [hplan]
    exact ⟨hexit, rfl⟩
  · rw [hplan]
    dsimp only
    cases hwrite : files.write o.outputPath out with
    | error e => exact ⟨Or.inl rfl, rfl⟩
    | ok files' => exact absurd ⟨out, files', hcompiles, hwrite⟩ h

theorem run_of_compile {arguments : List String} (h : ui.request arguments = .compile o)
    (files : FileTree) : ui.run arguments files = o.run ui files := by
  rw [Interface.run, h]

/-- A working directory with a source and a document from before. -/
def sumFiles : FileTree :=
  .ofWorkingDirectory
    [(["sum.mavn"], some Session.sumText.toUTF8), (["sum.s"], some "old".toUTF8)]

/-- The options of a run on a sum. -/
def sumOptions : Options := ⟨"sum.mavn", none, none, none, 10, false, false, false, 1⟩

theorem writesTo_sum : sumOptions.WritesTo "sum.s" where
  given asked h := by cases h
  beside _ := ⟨[], "sum.mavn".toList, "sum".toList, rfl, Or.inl rfl, by decide,
    ⟨by decide, Or.inl ⟨"mavn".toList, by decide, rfl⟩⟩, rfl⟩

theorem exit_of_sum : (terminal.run ["-v", "sum.mavn"] sumFiles).exit = 0 := by decide +kernel

end CommandLine

end RegAlloc
