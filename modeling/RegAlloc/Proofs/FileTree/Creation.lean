import RegAlloc.Proofs.FileTree.Paths

/-!
# Creating files

`Creatable` says when a file can be created at a path. A write either is refused or gives the file
at the path its content, where a symbolic link stands for what it leads to. It changes no other
file, and of the names at most one, which nothing had before.
-/

namespace RegAlloc.FileTree

open NameTree (Place Target)

variable {t t' : FileTree} {path other text : String} {place directory : Place} {name : String}
  {id : FileId} {content : ByteArray} {target : Target}

/-! ## Files -/

theorem file_overwrite (t : FileTree) (id : FileId) (content : ByteArray) (other : FileId) :
    (t.overwrite id content).file other =
      if other = id then { t.file id with content } else t.file other := by
  rw [file, overwrite, List.lookup_cons]
  by_cases h : other = id
  · simp [h]
  · simp [beq_eq_false_iff_ne.mpr h, h, file]

theorem file_create (t : FileTree) (place : Place) (content : ByteArray) (other : FileId) :
    (t.create place content).file other =
      if other = t.names.freshId then { content } else t.file other := by
  rw [file, create, List.lookup_cons]
  by_cases h : other = t.names.freshId
  · simp [h]
  · simp [beq_eq_false_iff_ne.mpr h, h, file]

/-! ## Writing -/

/-- A file can be created at a target: the file there or its directory can be written, or it is the
null device. -/
def Accepts (t : FileTree) : Target → Prop
  | .directory _ => False
  | .file _ id => (t.file id).writable = true
  | .null => True
  | .vacant directory _ =>
    ∃ rights, t.names.directoryAt directory = .ok rights ∧ rights.writable = true

/-- The tree after a file was created at a target. The null device forgets what is written. -/
def after (t : FileTree) (content : ByteArray) : Target → FileTree
  | .file _ id => t.overwrite id content
  | .vacant directory name => t.create (directory ++ [name]) content
  | .null | .directory _ => t

/-- A write either creates the file or is refused. -/
theorem write_eq_ok_iff :
    t.write path text = .ok t' ↔
      ∃ target, t.names.locate true path = .ok target ∧ t.Accepts target ∧
        t' = t.after text.toUTF8 target := by
  unfold write
  cases hlocate : t.names.locate true path with
  | error e => simp
  | ok target =>
      cases target with
      | directory place => simp [Accepts]
      | null => simp [Accepts, after, @eq_comm _ t']
      | file place id =>
          cases hwritable : (t.file id).writable with
          | false => simp [Accepts, hwritable]
          | true => simp [Accepts, after, hwritable, @eq_comm _ t']
      | vacant directory name =>
          cases hdirectory : t.names.directoryAt directory with
          | error e => simp [Accepts, hdirectory]
          | ok rights =>
              cases hwritable : rights.writable with
              | false => simp [Accepts, hdirectory, hwritable]
              | true => simp [Accepts, after, hdirectory, hwritable, @eq_comm _ t']

/-- Two paths lead to one file: what is read at the first is what is written at the second. -/
def SameFile (t : FileTree) (source path : String) (id : FileId) : Prop :=
  (∃ place, t.names.locate false source = .ok (.file place id)) ∧
    ∃ place, t.names.locate true path = .ok (.file place id)

/-- What can be read leads to a file or to the null device. -/
theorem exists_locate_of_read (h : t.read path = .ok content) :
    t.names.locate false path = .ok .null ∧ content = .empty ∨
      ∃ place id, t.names.locate false path = .ok (.file place id) ∧
        (t.file id).readable = true ∧ content = (t.file id).content := by
  unfold read at h
  split at h
  · cases h
  · split at h
    · cases h
    · split at h <;> cases h
  · rename_i place id hlocate
    split at h
    · rename_i hreadable
      exact Or.inr ⟨place, id, hlocate, hreadable, (Except.ok.inj h).symm⟩
    · cases h
  · rename_i hlocate
    exact Or.inl ⟨hlocate, (Except.ok.inj h).symm⟩
  · cases h

theorem exists_read_of_readText (h : t.readText path = .ok text) :
    ∃ content, t.read path = .ok content := by
  unfold readText at h
  split at h
  · cases h
  · exact ⟨_, by assumption⟩

/-- A write to another file does not change what is read. -/
theorem read_of_write (h : t.write path text = .ok t') (hread : t.read other = .ok content)
    (hother : ∀ id, ¬ t.SameFile other path id) : t'.read other = .ok content := by
  obtain ⟨target, hlocate, haccepts, rfl⟩ := write_eq_ok_iff.mp h
  have hshows := NameTree.locate_shows hlocate
  cases target with
  | directory => exact haccepts.elim
  | null => exact hread
  | file place id =>
      obtain ⟨hnull, rfl⟩ | ⟨place', id', hsource, hreadable, rfl⟩ := exists_locate_of_read hread
      · have hnames : (t.overwrite id text.toUTF8).names = t.names := rfl
        rw [after, read, hnames, hnull]
      · have hne : id' ≠ id := by
          rintro rfl
          exact hother id' ⟨⟨place', hsource⟩, place, hlocate⟩
        have hnames : (t.overwrite id text.toUTF8).names = t.names := rfl
        rw [after, read, hnames, hsource]
        simp only [file_overwrite, if_neg hne, hreadable, if_true]
  | vacant directory name =>
      obtain ⟨rights, hdirectory, _⟩ := haccepts
      have hextends := NameTree.extends_add hshows hdirectory t.names.freshId
      have hnames : (t.create (directory ++ [name]) text.toUTF8).names =
          t.names.add (directory ++ [name]) t.names.freshId := rfl
      obtain ⟨hnull, rfl⟩ | ⟨place', id', hsource, hreadable, rfl⟩ := exists_locate_of_read hread
      · rw [after, read, hnames, hextends.locate_eq hnull (fun _ _ => nofun)]
      · have hne : id' ≠ t.names.freshId :=
          Nat.ne_of_lt (NameTree.lt_freshId (NameTree.locate_shows hsource))
        rw [after, read, hnames, hextends.locate_eq hsource (fun _ _ => nofun)]
        simp only [file_create, if_neg hne, hreadable, if_true]

end RegAlloc.FileTree
