import RegAlloc.CommandLine.Path
import RegAlloc.FileTree.Names
import RegAlloc.Proofs.Assembly.Listing

/-!
# Paths with another extension

A path is a directory part and a file name, and a file name is a stem and an extension. The path
with another extension has the same directory part and the same stem. Its last name is the new file
name.
-/

namespace RegAlloc

namespace Text

theorem splitChars_append {sep : Char} (cs rest : List Char) :
    splitChars sep (cs ++ sep :: rest) = splitChars sep cs ++ splitChars sep rest := by
  induction cs with
  | nil => simp [splitChars]
  | cons c cs ih =>
      by_cases hc : c = sep
      · simp [splitChars, hc, ih]
      · obtain ⟨part, parts, hparts⟩ := List.exists_cons_of_ne_nil (splitChars_ne_nil sep cs)
        simp [splitChars, hc, ih, hparts]

end Text

namespace CommandLine

/-! ## Names in paths -/

namespace Path

variable {path name base extension : List Char}

theorem directory_append_fileName (path : List Char) : directory path ++ fileName path = path := by
  rw [directory, fileName, ← List.reverse_append, List.takeWhile_append_dropWhile,
    List.reverse_reverse]

theorem slash_not_mem_fileName (path : List Char) : '/' ∉ fileName path := by
  intro h
  have hall := List.all_takeWhile (p := (· != '/')) (l := path.reverse)
  have := List.all_eq_true.mp hall _ (List.mem_reverse.mp h)
  simp at this

/-- A part of a path that ends with a slash, if it is there at all. -/
def IsDirectory (part : List Char) : Prop := part = [] ∨ ∃ above, part = above ++ ['/']

theorem isDirectory_directory (path : List Char) : IsDirectory (directory path) := by
  unfold directory
  cases hdrop : path.reverse.dropWhile (· != '/') with
  | nil => exact Or.inl rfl
  | cons c cs =>
      have hc := List.head_dropWhile_not (p := (· != '/')) (by rw [hdrop]; simp)
      simp only [hdrop, List.head_cons, bne_eq_false_iff_eq] at hc
      exact Or.inr ⟨cs.reverse, by simp [hc]⟩

/-- There is one way to cut a path behind its last slash. -/
theorem eq_directory_append_iff {part : List Char} (hpart : IsDirectory part) (hname : '/' ∉ name) :
    path = part ++ name ↔ part = directory path ∧ name = fileName path := by
  constructor
  · rintro rfl
    have hskip : ∀ c ∈ name.reverse, (c != '/') = true := by
      intro c hc
      exact bne_iff_ne.mpr fun heq => hname (heq ▸ List.mem_reverse.mp hc)
    have hstop : part.reverse.takeWhile (· != '/') = [] ∧
        part.reverse.dropWhile (· != '/') = part.reverse := by
      rcases hpart with rfl | ⟨above, rfl⟩ <;> simp
    rw [directory, fileName, List.reverse_append, List.takeWhile_append_of_pos hskip,
      List.dropWhile_append_of_pos hskip, hstop.1, hstop.2]
    simp
  · rintro ⟨rfl, rfl⟩
    exact (directory_append_fileName path).symm

/-! ## Stems and extensions -/

/-- A file name without its extension: what stands before the last dot, unless that is nothing. A
name without such a dot is all stem. -/
def IsStem (name base : List Char) : Prop :=
  base ≠ [] ∧ ((∃ old, '.' ∉ old ∧ name = base ++ '.' :: old) ∨ name = base ∧ '.' ∉ base.tail)

/-- The new file name of a path whose extension is replaced. -/
def renamed (name extension : List Char) : List Char :=
  if stem name = ['.'] then ['.', '.'] else stem name ++ '.' :: extension

theorem withExtension_eq (path extension : List Char) :
    withExtension path extension = directory path ++ renamed (fileName path) extension := by
  unfold withExtension renamed
  split
  · rename_i hstem
    simp [hstem]
  · simp

theorem mem_of_mem_stem {c : Char} (h : c ∈ stem name) : c ∈ name := by
  unfold stem at h
  split at h
  · exact h
  · have htail := List.mem_of_mem_tail (List.mem_reverse.mp h)
    exact List.mem_reverse.mp (List.dropWhile_subset _ htail)

theorem stem_ne_nil (h : name ≠ []) : stem name ≠ [] := by
  unfold stem
  split
  · exact h
  · assumption

/-- The file name has a stem that is followed by `extension`. A single dot is no stem: without its
extension the name would stand for the directory above. -/
def HasExtension (name extension : List Char) : Prop :=
  ∃ base, base ≠ [] ∧ base ≠ ['.'] ∧ name = base ++ '.' :: extension

theorem stem_append {base : List Char} (hbase : base ≠ []) (hdot : '.' ∉ extension) :
    stem (base ++ '.' :: extension) = base := by
  have hdrop : (base ++ '.' :: extension).reverse.dropWhile (· != '.') = '.' :: base.reverse := by
    have hskip : ∀ c ∈ extension.reverse, (c != '.') = true := by
      intro c hc
      refine bne_iff_ne.mpr fun heq => hdot ?_
      rw [← heq]
      exact List.mem_reverse.mp hc
    rw [List.reverse_append, List.reverse_cons, List.append_assoc,
      List.dropWhile_append_of_pos hskip]
    simp
  rw [stem, hdrop, List.tail_cons, List.reverse_reverse]
  split
  · exact absurd rfl hbase
  · rfl

/-- A name that has the extension already keeps it. -/
theorem HasExtension.renamed_eq (h : HasExtension name extension) (hdot : '.' ∉ extension) :
    renamed name extension = name := by
  obtain ⟨base, hne, hne', rfl⟩ := h
  rw [renamed, stem_append hne hdot, if_neg hne']

theorem hasExtension_of_renamed_eq (hne : name ≠ []) (hdots : name ≠ ['.', '.'])
    (h : renamed name extension = name) : HasExtension name extension := by
  unfold renamed at h
  split at h
  · exact absurd h.symm hdots
  · rename_i hstem
    exact ⟨stem name, stem_ne_nil hne, hstem, h.symm⟩

/-- A name whose only dot comes first, if there is any, is all stem. -/
theorem stem_eq_self (h : '.' ∉ name.tail) : stem name = name := by
  have hnone : (name.reverse.dropWhile (· != '.')).tail = [] := by
    cases name with
    | nil => rfl
    | cons c cs =>
        have hskip : ∀ d ∈ cs.reverse, (d != '.') = true := by
          intro d hd
          exact bne_iff_ne.mpr fun heq => h (heq ▸ List.mem_reverse.mp hd)
        rw [List.reverse_cons, List.dropWhile_append_of_pos hskip, List.dropWhile_cons]
        split <;> rfl
  rw [stem, hnone]
  rfl

theorem exists_isStem (h : name ≠ []) : ∃ base, IsStem name base := by
  by_cases hdot : '.' ∈ name
  · obtain ⟨front, back, hsplit, hfront⟩ :=
      List.eq_append_cons_of_mem (List.mem_reverse.mpr hdot)
    have hname : name = back.reverse ++ '.' :: front.reverse := by
      rw [← List.reverse_reverse name, hsplit]
      simp
    have hold : '.' ∉ front.reverse := fun hmem => hfront (List.mem_reverse.mp hmem)
    by_cases hbase : back.reverse = []
    · exact ⟨name, h, Or.inr ⟨rfl, by rwa [hname, hbase]⟩⟩
    · exact ⟨back.reverse, hbase, Or.inl ⟨_, hold, hname⟩⟩
  · exact ⟨name, h, Or.inr ⟨rfl, fun hmem => hdot (List.mem_of_mem_tail hmem)⟩⟩

/-- Every file name has one stem. -/
theorem isStem_iff : IsStem name base ↔ name ≠ [] ∧ base = stem name := by
  have hstem : ∀ base, IsStem name base → name ≠ [] ∧ base = stem name := by
    rintro base ⟨hne, ⟨old, hold, rfl⟩ | ⟨rfl, hdot⟩⟩
    · exact ⟨by simp, (stem_append hne hold).symm⟩
    · exact ⟨hne, (stem_eq_self hdot).symm⟩
  refine ⟨hstem base, ?_⟩
  rintro ⟨hne, rfl⟩
  obtain ⟨base, hbase⟩ := exists_isStem hne
  exact (hstem base hbase).2 ▸ hbase

/-- A path with another extension: the same directory part, and the stem with the extension after a
dot. A stem that is itself a dot would then name the directory above, and gets no extension. -/
def IsWithExtension (path extension new : List Char) : Prop :=
  ∃ part name base, path = part ++ name ∧ IsDirectory part ∧ '/' ∉ name ∧ IsStem name base ∧
    new = part ++ if base = ['.'] then ['.', '.'] else base ++ '.' :: extension

/-- Every path with a file name has one path with another extension. -/
theorem isWithExtension_iff {new : List Char} :
    IsWithExtension path extension new ↔
      fileName path ≠ [] ∧ new = withExtension path extension := by
  rw [withExtension_eq, renamed]
  constructor
  · rintro ⟨part, name, base, hpath, hpart, hslash, hstem, rfl⟩
    obtain ⟨rfl, rfl⟩ := (eq_directory_append_iff hpart hslash).mp hpath
    obtain ⟨hne, rfl⟩ := isStem_iff.mp hstem
    exact ⟨hne, rfl⟩
  · rintro ⟨hne, rfl⟩
    exact ⟨_, _, _, (directory_append_fileName path).symm, isDirectory_directory path,
      slash_not_mem_fileName path, isStem_iff.mpr ⟨hne, rfl⟩, rfl⟩

theorem slash_not_mem_renamed (hname : '/' ∉ name) (hextension : '/' ∉ extension) :
    '/' ∉ renamed name extension := by
  unfold renamed
  split
  · decide
  · intro h
    rcases List.mem_append.mp h with h | h
    · exact hname (mem_of_mem_stem h)
    · exact hextension (List.mem_of_ne_of_mem (by decide) h)

theorem renamed_ne_nil (name extension : List Char) : renamed name extension ≠ [] := by
  unfold renamed
  split <;> simp

/-- A path that is not empty and does not end with a slash has a file name. -/
theorem fileName_ne_nil {path : String} (hne : path ≠ "")
    (hasks : NameTree.asksDirectory path = false) : fileName path.toList ≠ [] := by
  intro hnil
  have hpath := directory_append_fileName path.toList
  rw [hnil, List.append_nil] at hpath
  rcases isDirectory_directory path.toList with hempty | ⟨above, habove⟩
  · rw [hpath] at hempty
    exact hne (String.toList_eq_nil_iff.mp hempty)
  · rw [hpath] at habove
    simp [NameTree.asksDirectory, habove] at hasks

/-- What follows the last slash of a path is the last of its names. -/
theorem getLast?_names {path : String} {part : List Char} (hpath : path.toList = part ++ name)
    (hpart : IsDirectory part) (hslash : '/' ∉ name) (hne : name ≠ []) :
    (NameTree.namesIn path).getLast? = some (String.ofList name) := by
  have hlast : ∃ parts, Text.split '/' path = parts ++ [String.ofList name] := by
    rw [Text.split, hpath]
    rcases hpart with rfl | ⟨above, rfl⟩
    · exact ⟨[], by simp [Text.splitChars_of_not_mem hslash]⟩
    · refine ⟨(Text.splitChars '/' above).map String.ofList, ?_⟩
      rw [List.append_assoc, List.singleton_append, Text.splitChars_append,
        Text.splitChars_of_not_mem hslash, List.map_append]
      rfl
  obtain ⟨parts, hparts⟩ := hlast
  have hkept : (String.ofList name != "") = true := by simpa using hne
  rw [NameTree.namesIn, hparts, List.filter_append]
  simp [hkept]

end Path

end CommandLine

end RegAlloc
