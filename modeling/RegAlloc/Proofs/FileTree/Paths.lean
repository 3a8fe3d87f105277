import RegAlloc.FileTree

/-!
# Following paths

A new file changes no place but its own, so a path that led somewhere still leads there, and a path
that led to the vacant name leads to the new file. A path that leads to a file either ends with the
name of the file, or its last name is that of a symbolic link.
-/

namespace RegAlloc.NameTree

variable {t : NameTree} {creating asks : Bool} {links : Nat} {place other directory : Place}
  {names names' : List String} {name path : String} {id : FileId} {entry : Entry} {rights : Rights}
  {stop : Stop} {target : Target}

/-! ## Places -/

theorem holdsSomething_of_prefix {above : Place} (h : above <+: place)
    (hplace : t.holdsSomething place = true) : t.holdsSomething above = true := by
  simp only [holdsSomething, Bool.or_eq_true, List.any_eq_true, List.isPrefixOf_iff_prefix]
    at hplace ⊢
  rcases hplace with hhere | ⟨e, he, hbelow⟩
  · exact Or.inl (h.trans hhere)
  · exact Or.inr ⟨e, he, h.trans hbelow⟩

theorem holdsSomething_of_entryAt? (h : t.entryAt? place = some entry) :
    t.holdsSomething place = true := by
  unfold entryAt? at h
  split at h
  · rename_i e hfind
    have hplace : e.1 = place := by simpa using List.find?_some hfind
    simp only [holdsSomething, Bool.or_eq_true, List.any_eq_true]
    exact Or.inr ⟨e, List.mem_of_find?_eq_some hfind, by simp [hplace]⟩
  · split at h
    · assumption
    · cases h

theorem entryAt?_eq_none_iff :
    t.entryAt? place = none ↔
      t.entries.find? (fun e => e.1 == place) = none ∧ t.holdsSomething place = false := by
  unfold entryAt?
  split
  · rename_i hfind
    simp [hfind]
  · rename_i hfind
    simp [hfind]

theorem directoryAt_eq_ok_iff :
    t.directoryAt place = .ok rights ↔ t.entryAt? place = some (.directory rights) := by
  unfold directoryAt
  split <;> simp_all

theorem lookup_eq_ok_iff {found : Option Entry} :
    t.lookup directory name = .ok found ↔
      name.utf8ByteSize ≤ maxNameLength ∧ t.entryAt? (directory ++ [name]) = found := by
  unfold lookup
  by_cases h : maxNameLength < name.utf8ByteSize
  · simp [h, Nat.not_le.mpr h]
  · simp [h, Nat.le_of_not_lt h]

/-! ## New files -/

/-- A file that is added under a vacant name of a directory stands at its place, and nothing changes
at other places. -/
theorem entryAt?_add (hvacant : t.entryAt? (directory ++ [name]) = none)
    (hdirectory : t.directoryAt directory = .ok rights) (id : FileId) (other : Place) :
    (t.add (directory ++ [name]) id).entryAt? other =
      if other = directory ++ [name] then some (.file id) else t.entryAt? other := by
  obtain ⟨hfind, _⟩ := entryAt?_eq_none_iff.mp hvacant
  unfold entryAt?
  rw [add, List.find?_append]
  by_cases hother : other = directory ++ [name]
  · subst hother
    simp [hfind]
  · have hnew : (directory ++ [name] == other) = false :=
      beq_eq_false_iff_ne.mpr (Ne.symm hother)
    rw [List.find?_singleton, hnew, if_neg hother]
    cases hold : t.entries.find? (fun e => e.1 == other) with
    | some e => simp
    | none =>
        -- what lies above the new file lies above its directory
        have habove : (other.isPrefixOf (directory ++ [name])) = true →
            t.holdsSomething other = true := by
          intro h
          rcases List.prefix_concat_iff.mp (List.isPrefixOf_iff_prefix.mp h) with heq | hprefix
          · exact absurd heq hother
          · exact holdsSomething_of_prefix hprefix
              (holdsSomething_of_entryAt? (directoryAt_eq_ok_iff.mp hdirectory))
        have hsame : ({ t with entries := t.entries ++ [(directory ++ [name], .file id)] } :
            NameTree).holdsSomething other = t.holdsSomething other := by
          simp only [holdsSomething, List.any_append, List.any_cons, List.any_nil, Bool.or_false,
            ← Bool.or_assoc] at habove ⊢
          rw [Bool.or_eq_left_iff_imp]
          exact habove
        simp [hsame]

theorem lt_freshId (h : t.entryAt? place = some (.file id)) : id < t.freshId := by
  unfold entryAt? at h
  split at h
  · rename_i e hfind
    have hmem := List.mem_of_find?_eq_some hfind
    have hid := Option.some.inj h
    unfold freshId
    generalize t.entries = entries at hmem ⊢
    induction entries with
    | nil => cases hmem
    | cons first entries ih =>
        simp only [List.foldr_cons]
        rcases List.mem_cons.mp hmem with rfl | hmem
        · simp only [hid]
          exact Nat.lt_of_lt_of_le (Nat.lt_succ_self id) (Nat.le_max_left _ _)
        · have hlt := ih hmem
          split
          · exact Nat.lt_of_lt_of_le hlt (Nat.le_max_right _ _)
          all_goals exact hlt
  · split at h <;> cases h

/-- All that stood somewhere still stands there. -/
structure Extends (t t' : NameTree) : Prop where
  here_eq : t'.here = t.here
  entryAt?_eq : ∀ place entry, t.entryAt? place = some entry → t'.entryAt? place = some entry

theorem extends_add (hvacant : t.entryAt? (directory ++ [name]) = none)
    (hdirectory : t.directoryAt directory = .ok rights) (id : FileId) :
    t.Extends (t.add (directory ++ [name]) id) where
  here_eq := rfl
  entryAt?_eq other entry h := by
    rw [entryAt?_add hvacant hdirectory, if_neg, h]
    rintro rfl
    rw [hvacant] at h
    cases h

namespace Extends

variable {t' : NameTree} (h : t.Extends t')
include h

theorem directoryAt_eq (hdirectory : t.directoryAt place = .ok rights) :
    t'.directoryAt place = .ok rights :=
  directoryAt_eq_ok_iff.mpr (h.entryAt?_eq _ _ (directoryAt_eq_ok_iff.mp hdirectory))

theorem lookup_eq (hlookup : t.lookup directory name = .ok (some entry)) :
    t'.lookup directory name = .ok (some entry) := by
  obtain ⟨hlength, hentry⟩ := lookup_eq_ok_iff.mp hlookup
  exact lookup_eq_ok_iff.mpr ⟨hlength, h.entryAt?_eq _ _ hentry⟩

end Extends

/-! ## Walks -/

/-- Names can be followed from a place. -/
def Searchable (t : NameTree) (place : Place) : Prop :=
  ∃ rights, t.directoryAt place = .ok rights ∧ rights.searchable = true

/-- A name that stands for something in a directory. -/
def IsName (name : String) : Prop := name ≠ "." ∧ name ≠ ".."

/-- The walks that succeed. -/
inductive Walks (t : NameTree) (creating asks : Bool) : Place → List String → Stop → Prop
  | done {place : Place} : Walks t creating asks place [] (.target (.directory place))
  | same {place : Place} {rest : List String} {stop : Stop} (hsearch : t.Searchable place)
      (hwalk : Walks t creating asks place rest stop) : Walks t creating asks place ("." :: rest) stop
  | up {place : Place} {rest : List String} {stop : Stop} (hsearch : t.Searchable place)
      (hwalk : Walks t creating asks place.dropLast rest stop) :
      Walks t creating asks place (".." :: rest) stop
  | last {place : Place} {name : String} {stop : Stop} (hsearch : t.Searchable place)
      (hname : IsName name) (harrive : t.arrive creating asks place name = .ok stop) :
      Walks t creating asks place [name] stop
  | down {place : Place} {name : String} {rest : List String} {rights : Rights} {stop : Stop}
      (hsearch : t.Searchable place) (hname : IsName name) (hrest : rest ≠ [])
      (hlookup : t.lookup place name = .ok (some (.directory rights)))
      (hwalk : Walks t creating asks (place ++ [name]) rest stop) :
      Walks t creating asks place (name :: rest) stop
  | link {place : Place} {name path : String} {rest : List String} (hsearch : t.Searchable place)
      (hname : IsName name) (hrest : rest ≠ [])
      (hlookup : t.lookup place name = .ok (some (.link path))) :
      Walks t creating asks place (name :: rest)
        (.link (origin place path) (namesIn path ++ rest) asks)

theorem Walks.of_walk (h : t.walk creating asks place names = .ok stop) :
    t.Walks creating asks place names stop := by
  induction names generalizing place with
  | nil =>
      cases h
      exact .done
  | cons name rest ih =>
      rw [walk] at h
      split at h
      · cases h
      · rename_i rights hdirectory
        split at h
        · cases h
        · rename_i hrights
          have hsearch : t.Searchable place := ⟨rights, hdirectory, by simpa using hrights⟩
          split at h
          · rename_i hdot
            exact hdot ▸ .same hsearch (ih h)
          · rename_i hdot
            split at h
            · rename_i hdots
              exact hdots ▸ .up hsearch (ih h)
            · rename_i hdots
              have hname : IsName name := ⟨hdot, hdots⟩
              split at h
              · rename_i hrest
                exact hrest ▸ .last hsearch hname h
              · rename_i hrest
                split at h
                · cases h
                · cases h
                · rename_i hlookup
                  exact .down hsearch hname hrest hlookup (ih h)
                · rename_i hlookup
                  cases h
                  exact .link hsearch hname hrest hlookup
                · cases h

theorem Walks.walk_eq (h : t.Walks creating asks place names stop) :
    t.walk creating asks place names = .ok stop := by
  induction h with
  | done => rfl
  | same hsearch _ ih =>
      obtain ⟨rights, hdirectory, hrights⟩ := hsearch
      simp [walk, hdirectory, hrights, ih]
  | up hsearch _ ih =>
      obtain ⟨rights, hdirectory, hrights⟩ := hsearch
      simp [walk, hdirectory, hrights, ih]
  | last hsearch hname harrive =>
      obtain ⟨rights, hdirectory, hrights⟩ := hsearch
      simp [walk, hdirectory, hrights, hname.1, hname.2, harrive]
  | down hsearch hname hrest hlookup _ ih =>
      obtain ⟨rights, hdirectory, hrights⟩ := hsearch
      simp [walk, hdirectory, hrights, hname.1, hname.2, hrest, hlookup, ih]
  | link hsearch hname hrest hlookup =>
      obtain ⟨rights, hdirectory, hrights⟩ := hsearch
      simp [walk, hdirectory, hrights, hname.1, hname.2, hrest, hlookup]

theorem walk_eq_ok_iff :
    t.walk creating asks place names = .ok stop ↔ t.Walks creating asks place names stop :=
  ⟨.of_walk, Walks.walk_eq⟩

/-! ## The last name -/

theorem stopAt_eq_vacant {last : String} {found : Option Entry} :
    stopAt asks place last found = .ok (.target (.vacant directory name)) ↔
      found = none ∧ directory = place ∧ name = last := by
  rcases found with _ | (_ | _ | _ | _) <;> simp [stopAt] <;> grind

theorem stopAt_eq_file {found : Option Entry} :
    stopAt asks directory name found = .ok (.target (.file place id)) ↔
      found = some (.file id) ∧ place = directory ++ [name] ∧ asks = false := by
  rcases found with _ | (_ | _ | _ | _) <;> simp [stopAt] <;> grind

theorem stopAt_eq_link {found : Option Entry} {asks' : Bool}
    (h : stopAt asks directory name found = .ok (.link place names asks')) :
    ∃ path, found = some (.link path) := by
  rcases found with _ | (_ | _ | _ | _) <;> simp [stopAt] at h ⊢ <;> grind

/-- Nothing is created under a last name that asks for a directory. Otherwise the name is looked
up. -/
theorem arrive_eq_ok_iff :
    t.arrive creating asks place name = .ok stop ↔
      (creating && asks) = false ∧ ∃ found,
        t.lookup place name = .ok found ∧ stopAt asks place name found = .ok stop := by
  unfold arrive
  cases hasks : creating && asks with
  | true => simp
  | false =>
      cases hlookup : t.lookup place name with
      | error e => simp
      | ok found => simp

/-- One who creates a file is led where a reader is led. -/
theorem arrive_reading (h : t.arrive creating asks place name = .ok stop) :
    t.arrive false asks place name = .ok stop :=
  arrive_eq_ok_iff.mpr ⟨rfl, (arrive_eq_ok_iff.mp h).2⟩

theorem Walks.reading (h : t.Walks creating asks place names stop) :
    t.Walks false asks place names stop := by
  induction h with
  | done => exact .done
  | same hsearch _ ih => exact .same hsearch ih
  | up hsearch _ ih => exact .up hsearch ih
  | last hsearch hname harrive => exact .last hsearch hname (arrive_reading harrive)
  | down hsearch hname hrest hlookup _ ih => exact .down hsearch hname hrest hlookup ih
  | link hsearch hname hrest hlookup => exact .link hsearch hname hrest hlookup

/-- A walk with no vacant name at its end. -/
def Stop.IsFound (stop : Stop) : Prop := ∀ directory name, stop ≠ .target (.vacant directory name)

namespace Extends

variable {t' : NameTree} (h : t.Extends t')
include h

theorem searchable (hsearch : t.Searchable place) : t'.Searchable place := by
  obtain ⟨rights, hdirectory, hrights⟩ := hsearch
  exact ⟨rights, h.directoryAt_eq hdirectory, hrights⟩

theorem arrive_eq (harrive : t.arrive creating asks place name = .ok stop) (hfound : stop.IsFound) :
    t'.arrive creating asks place name = .ok stop := by
  obtain ⟨hasks, found, hlookup, hstop⟩ := arrive_eq_ok_iff.mp harrive
  cases found with
  | none => exact absurd (Except.ok.inj hstop).symm (hfound _ _)
  | some entry => exact arrive_eq_ok_iff.mpr ⟨hasks, _, h.lookup_eq hlookup, hstop⟩

/-- A walk that finds something finds it still. -/
theorem walks (hwalk : t.Walks creating asks place names stop) (hfound : stop.IsFound) :
    t'.Walks creating asks place names stop := by
  induction hwalk with
  | done => exact .done
  | same hsearch _ ih => exact .same (h.searchable hsearch) (ih hfound)
  | up hsearch _ ih => exact .up (h.searchable hsearch) (ih hfound)
  | last hsearch hname harrive =>
      exact .last (h.searchable hsearch) hname (h.arrive_eq harrive hfound)
  | down hsearch hname hrest hlookup _ ih =>
      exact .down (h.searchable hsearch) hname hrest (h.lookup_eq hlookup) (ih hfound)
  | link hsearch hname hrest hlookup =>
      exact .link (h.searchable hsearch) hname hrest (h.lookup_eq hlookup)

end Extends

/-! ## Paths -/

/-- The paths that lead somewhere: a walk, or a walk up to a link and what follows the link. -/
inductive Resolves (t : NameTree) (creating : Bool) :
    Nat → Place → List String → Bool → Target → Prop
  | stop {links : Nat} {place : Place} {names : List String} {asks : Bool} {target : Target}
      (hwalk : t.Walks creating asks place names (.target target)) :
      Resolves t creating links place names asks target
  | follow {links : Nat} {place place' : Place} {names names' : List String} {asks asks' : Bool}
      {target : Target} (hwalk : t.Walks creating asks place names (.link place' names' asks'))
      (hlink : Resolves t creating links place' names' asks' target) :
      Resolves t creating (links + 1) place names asks target

theorem Resolves.of_resolve (h : t.resolve creating links place names asks = .ok target) :
    t.Resolves creating links place names asks target := by
  induction links generalizing place names asks with
  | zero =>
      rw [resolve] at h
      split at h
      · cases h
      · rename_i hwalk
        cases h
        exact .stop (walk_eq_ok_iff.mp hwalk)
      · cases h
  | succ links ih =>
      rw [resolve] at h
      split at h
      · cases h
      · rename_i hwalk
        cases h
        exact .stop (walk_eq_ok_iff.mp hwalk)
      · rename_i hwalk
        exact .follow (walk_eq_ok_iff.mp hwalk) (ih h)

theorem Resolves.resolve_eq (h : t.Resolves creating links place names asks target) :
    t.resolve creating links place names asks = .ok target := by
  induction h with
  | stop hwalk =>
      rw [resolve.eq_def, walk_eq_ok_iff.mpr hwalk]
  | follow hwalk _ ih =>
      rw [resolve.eq_def, walk_eq_ok_iff.mpr hwalk]
      exact ih

theorem resolve_eq_ok_iff :
    t.resolve creating links place names asks = .ok target ↔
      t.Resolves creating links place names asks target :=
  ⟨.of_resolve, Resolves.resolve_eq⟩

/-- The target is where a reader is led, too. -/
theorem Resolves.reading (h : t.Resolves creating links place names asks target) :
    t.Resolves false links place names asks target := by
  induction h with
  | stop hwalk => exact .stop hwalk.reading
  | follow hwalk _ ih => exact .follow hwalk.reading ih

namespace Extends

variable {t' : NameTree} (h : t.Extends t')
include h

theorem resolves (hresolves : t.Resolves creating links place names asks target)
    (hfound : ∀ directory name, target ≠ .vacant directory name) :
    t'.Resolves creating links place names asks target := by
  induction hresolves with
  | stop hwalk =>
      exact .stop (h.walks hwalk fun directory name heq => hfound directory name (Stop.target.inj heq))
  | follow hwalk _ ih => exact .follow (h.walks hwalk fun _ _ => nofun) (ih hfound)

end Extends

/-- A path that leads somewhere is neither empty nor too long. -/
theorem locate_eq_ok_iff :
    t.locate creating path = .ok target ↔
      (path ≠ "" ∧ path.utf8ByteSize ≤ maxPathLength) ∧
        t.Resolves creating maxLinks (origin t.here path) (namesIn path) (asksDirectory path)
          target := by
  rw [← resolve_eq_ok_iff, locate]
  by_cases hempty : path = ""
  · simp [hempty]
  · by_cases hlong : maxPathLength < path.utf8ByteSize
    · simp [hempty, hlong, Nat.not_le.mpr hlong]
    · simp [hempty, hlong, Nat.le_of_not_lt hlong]

namespace Extends

variable {t' : NameTree} (h : t.Extends t')
include h

theorem locate_eq (hlocate : t.locate creating path = .ok target)
    (hfound : ∀ directory name, target ≠ .vacant directory name) :
    t'.locate creating path = .ok target := by
  obtain ⟨hpath, hresolves⟩ := locate_eq_ok_iff.mp hlocate
  refine locate_eq_ok_iff.mpr ⟨hpath, ?_⟩
  rw [h.here_eq]
  exact h.resolves hresolves hfound

end Extends

/-! ## Names of files -/

/-- The file or the vacant name of a target is there. -/
def Shows (t : NameTree) : Target → Prop
  | .file place id => t.entryAt? place = some (.file id)
  | .vacant directory name => t.entryAt? (directory ++ [name]) = none
  | .directory _ | .null => True

theorem Walks.shows (h : t.Walks creating asks place names (.target target)) : t.Shows target := by
  generalize hstop : Stop.target target = stop at h
  induction h with
  | done => exact Stop.target.inj hstop ▸ trivial
  | same _ _ ih => exact ih hstop
  | up _ _ ih => exact ih hstop
  | down _ _ _ _ _ ih => exact ih hstop
  | link => cases hstop
  | last _ _ harrive =>
      subst hstop
      obtain ⟨_, found, hlookup, hstop⟩ := arrive_eq_ok_iff.mp harrive
      obtain ⟨_, hentry⟩ := lookup_eq_ok_iff.mp hlookup
      cases target with
      | directory => trivial
      | null => trivial
      | file =>
          obtain ⟨rfl, rfl, _⟩ := stopAt_eq_file.mp hstop
          exact hentry
      | vacant =>
          obtain ⟨rfl, rfl, rfl⟩ := stopAt_eq_vacant.mp hstop
          exact hentry

theorem Resolves.shows (h : t.Resolves creating links place names asks target) :
    t.Shows target := by
  induction h with
  | stop hwalk => exact hwalk.shows
  | follow _ _ ih => exact ih

theorem locate_shows (h : t.locate creating path = .ok target) : t.Shows target :=
  (locate_eq_ok_iff.mp h).2.shows

/-- A link that is to lead to a directory does not forget it. -/
theorem Walks.asks_of_link {asks' : Bool}
    (h : t.Walks creating asks place names (.link other names' asks')) (hasks : asks = true) :
    asks' = true := by
  generalize hstop : Stop.link other names' asks' = stop at h
  induction h with
  | done => cases hstop
  | same _ _ ih => exact ih hstop
  | up _ _ ih => exact ih hstop
  | down _ _ _ _ _ ih => exact ih hstop
  | link => exact (Stop.link.inj hstop).2.2.trans hasks
  | last _ _ harrive =>
      subst hstop
      obtain ⟨_, found, _, hstop⟩ := arrive_eq_ok_iff.mp harrive
      obtain ⟨path, rfl⟩ := stopAt_eq_link hstop
      rw [← (Stop.link.inj (Except.ok.inj hstop)).2.2, hasks]
      rfl

theorem Walks.isDirectory_of_asks (h : t.Walks creating true place names (.target target)) :
    (∃ place, target = .directory place) ∨ ∃ place name, target = .vacant place name := by
  generalize hstop : Stop.target target = stop at h
  induction h with
  | done => exact Or.inl ⟨_, Stop.target.inj hstop⟩
  | same _ _ ih => exact ih hstop
  | up _ _ ih => exact ih hstop
  | down _ _ _ _ _ ih => exact ih hstop
  | link => cases hstop
  | last _ _ harrive =>
      subst hstop
      obtain ⟨_, found, _, hstop⟩ := arrive_eq_ok_iff.mp harrive
      rcases found with _ | (_ | _ | _ | _) <;> simp [stopAt] at hstop <;> grind

/-- A path that asks for a directory leads to one, or to nothing. -/
theorem Resolves.isDirectory_of_asks
    (h : t.Resolves creating links place names asks target) (hasks : asks = true) :
    (∃ place, target = .directory place) ∨ ∃ place name, target = .vacant place name := by
  induction h with
  | stop hwalk =>
      subst hasks
      exact hwalk.isDirectory_of_asks
  | follow hwalk _ ih => exact ih (hwalk.asks_of_link hasks)

theorem asksDirectory_of_locate (h : t.locate creating path = .ok target)
    (hdirectory : ∀ place, target ≠ .directory place)
    (hvacant : ∀ place name, target ≠ .vacant place name) : asksDirectory path = false := by
  cases hasks : asksDirectory path with
  | false => rfl
  | true =>
      obtain ⟨place, rfl⟩ | ⟨place, name, rfl⟩ := (locate_eq_ok_iff.mp h).2.isDirectory_of_asks hasks
      · exact absurd rfl (hdirectory place)
      · exact absurd rfl (hvacant place name)

/-- The last name of a path stands in a directory, which the names before it lead to. -/
def EndsIn (t : NameTree) (path : String) (directory : Place) (name : String) : Prop :=
  IsName name ∧ (namesIn path).getLast? = some name ∧
    t.resolve false maxLinks (origin t.here path) (namesIn path).dropLast true =
      .ok (.directory directory)

/-- The last name of a path is that of a symbolic link. -/
def EndsInLink (t : NameTree) (path : String) : Prop :=
  ∃ directory name held, t.EndsIn path directory name ∧
    t.entryAt? (directory ++ [name]) = some (.link held)

/-- Several names stand for one file. -/
def HasHardLinks (t : NameTree) (id : FileId) : Prop :=
  ∃ place other, place ≠ other ∧ t.entryAt? place = some (.file id) ∧
    t.entryAt? other = some (.file id)

/-- A walk to a directory goes on from one above, also if that is all it has to do. -/
theorem Walks.enter (hsearch : t.Searchable place) (hname : IsName name)
    (hlookup : t.lookup place name = .ok (some (.directory rights)))
    (hwalk : t.Walks false true (place ++ [name]) names stop) :
    t.Walks false true place (name :: names) stop := by
  cases names with
  | nil =>
      cases hwalk
      exact .last hsearch hname (arrive_eq_ok_iff.mpr ⟨rfl, _, hlookup, rfl⟩)
  | cons => exact .down hsearch hname (List.cons_ne_nil _ _) hlookup hwalk

theorem Walks.enter_link (hsearch : t.Searchable place) (hname : IsName name)
    (hlookup : t.lookup place name = .ok (some (.link path))) :
    t.Walks false true place (name :: names)
      (.link (origin place path) (namesIn path ++ names) true) := by
  cases names with
  | nil =>
      rw [List.append_nil]
      exact .last hsearch hname (arrive_eq_ok_iff.mpr ⟨rfl, _, hlookup, rfl⟩)
  | cons => exact .link hsearch hname (List.cons_ne_nil _ _) hlookup

/-- A walk that does not end at a directory goes to the directory of its last name, or stops at a
link before. -/
theorem Walks.of_concat (h : t.Walks creating asks place (names ++ [name]) stop)
    (hstop : ∀ directory, stop ≠ .target (.directory directory)) :
    (IsName name ∧ ∃ directory, t.Walks false true place names (.target (.directory directory)) ∧
      t.arrive creating asks directory name = .ok stop) ∨
    ∃ place' names', stop = .link place' (names' ++ [name]) asks ∧
      t.Walks false true place names (.link place' names' true) := by
  induction names generalizing place with
  | nil =>
      cases h with
      | same _ hwalk =>
          cases hwalk
          exact absurd rfl (hstop _)
      | up _ hwalk =>
          cases hwalk
          exact absurd rfl (hstop _)
      | last _ hname harrive => exact Or.inl ⟨hname, place, .done, harrive⟩
      | down _ _ hrest => exact absurd rfl hrest
      | link _ _ hrest => exact absurd rfl hrest
  | cons first names ih =>
      rw [List.cons_append] at h
      generalize hnames : names ++ [name] = rest at h
      cases h with
      | last => simp at hnames
      | link hsearch hfirst _ hlookup =>
          refine Or.inr ⟨_, _, ?_, .enter_link hsearch hfirst hlookup⟩
          rw [← hnames, List.append_assoc]
      | same hsearch hwalk =>
          obtain ⟨hname, directory, hdirectory, harrive⟩ | ⟨place', names', heq, hlink⟩ :=
            ih (hnames ▸ hwalk)
          · exact Or.inl ⟨hname, directory, .same hsearch hdirectory, harrive⟩
          · exact Or.inr ⟨place', names', heq, .same hsearch hlink⟩
      | up hsearch hwalk =>
          obtain ⟨hname, directory, hdirectory, harrive⟩ | ⟨place', names', heq, hlink⟩ :=
            ih (hnames ▸ hwalk)
          · exact Or.inl ⟨hname, directory, .up hsearch hdirectory, harrive⟩
          · exact Or.inr ⟨place', names', heq, .up hsearch hlink⟩
      | down hsearch hfirst _ hlookup hwalk =>
          obtain ⟨hname, directory, hdirectory, harrive⟩ | ⟨place', names', heq, hlink⟩ :=
            ih (hnames ▸ hwalk)
          · exact Or.inl ⟨hname, directory, .enter hsearch hfirst hlookup hdirectory, harrive⟩
          · exact Or.inr ⟨place', names', heq, .enter hsearch hfirst hlookup hlink⟩

/-- A path to a file ends with the name of the file or with that of a link. -/
theorem Resolves.of_concat
    (h : t.Resolves creating links place (names ++ [name]) asks (.file other id)) :
    IsName name ∧ ∃ directory, t.Resolves false links place names true (.directory directory) ∧
      (other = directory ++ [name] ∨ ∃ held, t.entryAt? (directory ++ [name]) = some (.link held)) := by
  generalize hnames : names ++ [name] = all at h
  generalize htarget : Target.file other id = target at h
  induction h generalizing names with
  | stop hwalk =>
      subst hnames htarget
      obtain ⟨hname, directory, hdirectory, harrive⟩ | ⟨_, _, hlink, _⟩ :=
        hwalk.of_concat (fun _ => nofun)
      · obtain ⟨_, _, _, hstop⟩ := arrive_eq_ok_iff.mp harrive
        exact ⟨hname, directory, .stop hdirectory, Or.inl (stopAt_eq_file.mp hstop).2.1⟩
      · cases hlink
  | follow hwalk hlink ih =>
      subst hnames
      obtain ⟨hname, directory, hdirectory, harrive⟩ | ⟨place', names', heq, hwalk'⟩ :=
        hwalk.of_concat (fun _ => nofun)
      · -- the link has the last name
        obtain ⟨_, found, hlookup, hstop⟩ := arrive_eq_ok_iff.mp harrive
        obtain ⟨held, rfl⟩ := stopAt_eq_link hstop
        exact ⟨hname, directory, .stop hdirectory, Or.inr ⟨held, (lookup_eq_ok_iff.mp hlookup).2⟩⟩
      · cases heq
        obtain ⟨hname, directory, hresolves, hlast⟩ := ih rfl htarget
        exact ⟨hname, directory, .follow hwalk' hresolves, hlast⟩

/-- A path that leads to a file ends with a name in a directory, which is that of the file unless it
is that of a link. -/
theorem exists_endsIn_of_locate (h : t.locate creating path = .ok (.file place id)) :
    ∃ directory name, t.EndsIn path directory name ∧
      (place = directory ++ [name] ∨ t.EndsInLink path) := by
  obtain ⟨_, hresolves⟩ := locate_eq_ok_iff.mp h
  rcases List.eq_nil_or_concat (namesIn path) with hnames | ⟨names, name, hnames⟩
  · rw [hnames] at hresolves
    cases hresolves with
    | stop hwalk => cases hwalk
    | follow hwalk => cases hwalk
  · rw [hnames, List.concat_eq_append] at hresolves
    obtain ⟨hname, directory, hdirectory, hlast⟩ := hresolves.of_concat
    have hends : t.EndsIn path directory name := by
      rw [EndsIn, hnames, List.concat_eq_append, List.getLast?_concat, List.dropLast_concat]
      exact ⟨hname, rfl, resolve_eq_ok_iff.mpr hdirectory⟩
    refine ⟨directory, name, hends, hlast.imp_right ?_⟩
    rintro ⟨held, hentry⟩
    exact ⟨directory, name, held, hends, hentry⟩

end RegAlloc.NameTree
