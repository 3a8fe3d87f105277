import RegAlloc.Proofs.CommandLine.Effect

/-!
# The source and the default output

Without an output path the document goes beside the source, under the name of the source with its
extension replaced. That is another name, unless the source has the extension of documents itself.
Another name is another file, unless one of the two is a link to the other.
-/

namespace RegAlloc.CommandLine

open NameTree (EndsIn)

variable {o : Options} {ui : Interface} {files : FileTree} {path : String} {id : FileId}

/-- A path without an output that is asked for has the directory part of the input. -/
theorem Options.WritesTo.toList_eq (h : o.WritesTo path) (hdefault : o.output = none) :
    path.toList =
      Path.directory o.input.toList ++ Path.renamed (Path.fileName o.input.toList) ['s'] := by
  obtain ⟨_, hpath⟩ := Path.isWithExtension_iff.mp (h.beside hdefault)
  rw [hpath, Path.withExtension_eq]

/-- A source and its document whose paths end with the same name have the extension of documents. -/
theorem Options.hasExtension_of_endsIn (hpath : o.WritesTo path) (hdefault : o.output = none)
    {directory directory' : NameTree.Place} {name : String}
    (hsource : EndsIn files.names o.input directory name)
    (hdocument : EndsIn files.names path directory' name) :
    Path.HasExtension (Path.fileName o.input.toList) ['s'] := by
  have hne := (Path.isWithExtension_iff.mp (hpath.beside hdefault)).1
  have hslash := Path.slash_not_mem_fileName o.input.toList
  have hdirectory := Path.isDirectory_directory o.input.toList
  have hlast := Path.getLast?_names (Path.directory_append_fileName o.input.toList).symm
    hdirectory hslash hne
  have hlast' := Path.getLast?_names (hpath.toList_eq hdefault) hdirectory
    (Path.slash_not_mem_renamed hslash (by decide)) (Path.renamed_ne_nil _ _)
  obtain ⟨hname, hsource, _⟩ := hsource
  obtain ⟨_, hdocument, _⟩ := hdocument
  obtain rfl := Option.some.inj (hsource.symm.trans hlast)
  have hrenamed : Path.renamed (Path.fileName o.input.toList) ['s'] =
      Path.fileName o.input.toList :=
    String.ofList_injective (Option.some.inj (hlast'.symm.trans hdocument))
  refine Path.hasExtension_of_renamed_eq hne (fun heq => ?_) hrenamed
  exact hname.2 (congrArg String.ofList heq)

/-- A run without an output path leaves its source as it is, unless the document goes to the same
file. That only happens if the source has the extension of documents, or if a link is involved: one
of the two names is a symbolic link, or both stand for one file. A source with the extension of
documents has the same path as its document. -/
theorem default_output_keeps_source {arguments : List String}
    (h : ui.request arguments = .compile o) (hdefault : o.output = none) (files : FileTree) :
    ((∀ path id, o.WritesTo path → ¬ files.SameFile o.input path id) →
      (ui.run arguments files).files.read o.input = files.read o.input) ∧
    (∀ path id, o.WritesTo path → files.SameFile o.input path id →
      Path.HasExtension (Path.fileName o.input.toList) ['s'] ∨ files.names.HasHardLinks id ∨
        files.names.EndsInLink o.input ∨ files.names.EndsInLink path) ∧
    (Path.HasExtension (Path.fileName o.input.toList) ['s'] → o.WritesTo o.input) := by
  refine ⟨fun hother => ?_, ?_, fun hname => ?_⟩
  · rw [run_of_compile h]
    by_cases hcan : ∃ out files', o.Compiles (files.readText o.input) out ∧
        files.write o.outputPath out = .ok files'
    · obtain ⟨out, files', hcompiles, hwrite⟩ := hcan
      have ⟨text, _, _, _, _, htext, _⟩ := hcompiles
      have hpath := Options.writesTo_outputPath (FileTree.fileName_ne_nil_of_readText htext)
      obtain ⟨content, hread⟩ := FileTree.exists_read_of_readText htext
      rw [(Options.run_of_compiles hcompiles hwrite ui).2, hread]
      exact FileTree.read_of_write hwrite hread fun id => hother _ id hpath
    · rw [(Options.run_of_not_compiles hcan ui).2]
  · rintro path id hpath ⟨⟨source, hsource⟩, document, hdocument⟩
    obtain ⟨directory, name, hends, rfl | hlink⟩ := NameTree.exists_endsIn_of_locate hsource
    · obtain ⟨directory', name', hends', rfl | hlink'⟩ := NameTree.exists_endsIn_of_locate hdocument
      · by_cases hsame : directory ++ [name] = directory' ++ [name']
        · obtain ⟨_, rfl⟩ := List.append_singleton_inj.mp hsame
          exact Or.inl (Options.hasExtension_of_endsIn hpath hdefault hends hends')
        · exact Or.inr (Or.inl ⟨_, _, hsame, NameTree.locate_shows hsource,
            NameTree.locate_shows hdocument⟩)
      · exact Or.inr (Or.inr (Or.inr hlink'))
    · exact Or.inr (Or.inr (Or.inl hlink))
  · have hne : Path.fileName o.input.toList ≠ [] := by
      obtain ⟨base, _, _, heq⟩ := hname
      rw [heq]
      simp
    refine ⟨fun asked hasked => ?_, fun _ => Path.isWithExtension_iff.mpr ⟨hne, ?_⟩⟩
    · cases hdefault.symm.trans hasked
    · rw [Path.withExtension_eq, hname.renamed_eq (by decide), Path.directory_append_fileName]

/-- The document of a sum replaces an old one and not the source. -/
theorem sum_source_kept :
    (terminal.run ["-v", "sum.mavn"] sumFiles).exit = 0 ∧
    (terminal.run ["-v", "sum.mavn"] sumFiles).files.readText "sum.s" ≠
      sumFiles.readText "sum.s" ∧
    (terminal.run ["-v", "sum.mavn"] sumFiles).files.read "sum.mavn" =
      sumFiles.read "sum.mavn" := by
  have hrequest : terminal.request ["-v", "sum.mavn"] = .compile sumOptions := by decide +kernel
  have hwritten : (terminal.run ["-v", "sum.mavn"] sumFiles).files.readText "sum.s" ≠
      sumFiles.readText "sum.s" := by
    decide +kernel
  have hsource : sumFiles.names.locate false "sum.mavn" =
      .ok (.file ["tmp", "regalloc", "sum.mavn"] 0) := by decide +kernel
  have hdocument : sumFiles.names.locate true "sum.s" =
      .ok (.file ["tmp", "regalloc", "sum.s"] 1) := by decide +kernel
  refine ⟨exit_of_sum, hwritten, (default_output_keeps_source hrequest rfl sumFiles).1 ?_⟩
  rintro path id hpath ⟨⟨place, hplace⟩, place', hplace'⟩
  obtain rfl := hpath.eq_outputPath.trans writesTo_sum.eq_outputPath.symm
  cases hsource.symm.trans hplace
  cases hdocument.symm.trans hplace'

/-- A run without an output path does not change what is read at the path of its source. -/
def KeepsSource (arguments : List String) (files : FileTree) : Prop :=
  ∀ o, terminal.request arguments = .compile o → o.output = none →
    (terminal.run arguments files).files.read o.input = files.read o.input

theorem not_keepsSource_of_readText {arguments : List String} {files : FileTree}
    (h : terminal.request arguments = .compile o) (hdefault : o.output = none)
    (hlost : (terminal.run arguments files).files.readText o.input ≠ files.readText o.input) :
    ¬ KeepsSource arguments files := by
  intro hkeeps
  exact hlost (by rw [FileTree.readText, hkeeps o h hdefault, FileTree.readText])

/-- A source under the name of a document. -/
def documentFiles : FileTree :=
  .ofWorkingDirectory [(["sum.s"], some "_func main; nop;".toUTF8)]

/-- A source, and what stands beside it under the name of its document. -/
def linkedFiles (document : NameTree.Entry) : FileTree where
  names := FileTree.namesOfWorkingDirectory [(["sum.mavn"], .file 0), (["sum.s"], document)]
  files := [(0, { content := "_func main; nop;".toUTF8 })]

/-- A source is lost that has the extension of documents, and so is one whose document is a symbolic
link or a hard link to it. -/
theorem document_source_overwritten :
    ¬ KeepsSource ["sum.s"] documentFiles ∧
    ¬ KeepsSource ["sum.mavn"] (linkedFiles (.link "sum.mavn")) ∧
    ¬ KeepsSource ["sum.mavn"] (linkedFiles (.file 0)) := by
  have hrequest : terminal.request ["sum.s"] =
      .compile ⟨"sum.s", none, none, none, 10, false, false, false, 0⟩ := by decide +kernel
  have hrequest' : terminal.request ["sum.mavn"] =
      .compile ⟨"sum.mavn", none, none, none, 10, false, false, false, 0⟩ := by decide +kernel
  refine ⟨not_keepsSource_of_readText hrequest rfl ?_, not_keepsSource_of_readText hrequest' rfl ?_,
    not_keepsSource_of_readText hrequest' rfl ?_⟩
  all_goals decide +kernel

end RegAlloc.CommandLine
