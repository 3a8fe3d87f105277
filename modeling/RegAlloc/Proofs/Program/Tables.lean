import RegAlloc.Proofs.Program.Representation
import RegAlloc.Proofs.Program.Scanning

/-!
# The tables of the reader

The reader keeps the variables by their names, the label that waits for its instruction and the
number of functions. All of that could be found in the program that it makes, and a reader that
finds it there reads the same.
-/

namespace RegAlloc

theorem mapError_bind {ε ε' α β : Type} (x : Except ε α) (f : α → Except ε β) (g : ε → ε') :
    (x >>= f).mapError g = x.mapError g >>= fun a => (f a).mapError g := by
  cases x <;> rfl

namespace Builder

variable {b b' : Builder}

/-! ## What a search finds after a call -/

theorem Declares.find?_eq {new : Variable} (h : b.Declares new b') (hb : b.Kinded)
    (kind : VarKind) (name : String) :
    b'.find? kind name = (b.find? kind name).or
      (if (kind = new.kind ∧ kind ≠ .untyped) ∧ new.name = name then some b.program.vars.size
        else none) := by
  have hold : (b.program.ofKind kind).find? (fun v => (b'.var v).name == name) =
      b.find? kind name := by
    refine List.find?_congr fun v hv => ?_
    have hvar : b'.var v = b.var v :=
      (var_eq_of_push h.vars v).trans (if_neg (Nat.ne_of_lt (hb.lt_size hv)))
    rw [hvar]
  have hlast : b'.var b.program.vars.size = new :=
    (var_eq_of_push h.vars _).trans (if_pos rfl)
  rw [find?, h.lists, List.find?_append, hold]
  congr 1
  by_cases hkind : kind = new.kind ∧ kind ≠ .untyped
  · obtain ⟨rfl, hne⟩ := hkind
    simp [hlast, hne]
  · simp [hkind]

theorem Extends.find?_eq (hext : b.Extends b') (hb : b.Kinded)
    (hlists : ∀ kind, b'.program.ofKind kind = b.program.ofKind kind) (kind : VarKind)
    (name : String) : b'.find? kind name = b.find? kind name := by
  rw [find?, hlists]
  refine List.find?_congr fun v hv => ?_
  have hname : (b'.var v).name = (b.var v).name := hext.name_eq (hb.lt_size hv)
  rw [hname]

/-- A label makes a marker of nothing that is not one. -/
theorem functionCount_relabel (hb : b.Kinded) (inst : InstId) (label : VarId) :
    (b.relabel inst label).functionCount = b.functionCount := by
  have hmap : (b.relabel inst label).program.instrs.map Instruction.isEntry =
      b.program.instrs.map Instruction.isEntry := by
    refine Array.ext (by simp [relabel]) fun i h _ => ?_
    have hi : i < b.program.instrs.size := by simpa [relabel] using h
    have hmarker := (hb.fits _ (Array.getElem_mem hi)).marker
    simp only [relabel, Array.getElem_map, Array.getElem_modify]
    split
    · cases hop : b.program.instrs[i].opcode with
      | none => simp [Instruction.isEntry, hop, (hmarker hop).1]
      | some opcode => simp [Instruction.isEntry, hop]
    · rfl
  have hcount := congrArg (Array.countP id) hmap
  rw [Array.countP_map, Array.countP_map] at hcount
  exact hcount

end Builder

namespace Reader

variable {α β γ δ : Type}

/-! ## Steps that end alike -/

/-- A step of the reader ends as the scan does: with the same error, or with results that `R`
relates. -/
inductive Follows (R : α → Reader → β → Prop) :
    Except SourceError (α × Reader) → Except SourceError β → Prop where
  | ok {a : α} {r : Reader} {b : β} (h : R a r b) : Follows R (.ok (a, r)) (.ok b)
  | error (e : SourceError) : Follows R (.error e) (.error e)

theorem Follows.self {R : α → Reader → β → Prop} {x : Except SourceError (α × Reader)}
    {y : Except SourceError β} (h : Follows R x y) :
    Follows (fun a r b => R a r b ∧ x = .ok (a, r)) x y := by
  cases h with
  | ok h => exact .ok ⟨h, rfl⟩
  | error e => exact .error e

theorem Follows.bind {R : α → Reader → β → Prop} {S : γ → Reader → δ → Prop} {x : Reading α}
    {f : α → Reading γ} {r : Reader} {y : Except SourceError β} {g : β → Except SourceError δ}
    (hx : Follows R (x r) y) (hf : ∀ a r' b, R a r' b → Follows S (f a r') (g b)) :
    Follows S ((x >>= f) r) (y >>= g) := by
  change Follows S (x r >>= fun p => f p.1 p.2) (y >>= g)
  generalize x r = o at hx
  cases hx with
  | ok h => exact hf _ _ _ h
  | error e => exact .error e

theorem Follows.map {R : α → Reader → β → Prop} {S : γ → Reader → δ → Prop} {x : Reading α}
    {f : α → γ} {r : Reader} {y : Except SourceError β} {g : β → δ}
    (hx : Follows R (x r) y) (hf : ∀ a r' b, R a r' b → S (f a) r' (g b)) :
    Follows S ((f <$> x) r) (y.map g) := by
  have hbind := hx.bind (f := fun a => pure (f a)) (g := fun b => .ok (g b)) fun a r' b h =>
    .ok (hf a r' b h)
  cases y <;> exact hbind

theorem Follows.get {S : γ → Reader → δ → Prop} {f : Reader → Reading γ} {r : Reader}
    {y : Except SourceError δ} (h : Follows S (f r r) y) : Follows S ((get >>= f) r) y :=
  h

theorem Follows.modifyGet {S : γ → Reader → δ → Prop} {f : Reader → α × Reader}
    {k : α → Reading γ} {r : Reader} {y : Except SourceError δ}
    (h : Follows S (k (f r).1 (f r).2) y) : Follows S ((modifyGet f >>= k) r) y :=
  h

theorem Follows.discard {S : γ → Reader → δ → Prop} {x : Reading α} {f : PUnit → Reading γ}
    {r : Reader} {y : Except SourceError δ} (h : Follows S ((x >>= fun _ => f ⟨⟩) r) y) :
    Follows S ((discard x >>= f) r) y := by
  have heq : (Functor.discard x >>= f) r = (x >>= fun _ => f ⟨⟩) r := by
    change (x r >>= _) >>= _ = x r >>= _
    cases x r <;> rfl
  rwa [heq]

theorem Follows.return {R : α → Reader → β → Prop} {S : α → Reader → δ → Prop}
    {x : Except SourceError (α × Reader)} {y : Except SourceError β} {g : β → δ}
    (h : Follows R x y) (hg : ∀ a r b, R a r b → S a r (g b)) :
    Follows S x (y >>= fun b => .ok (g b)) := by
  cases h with
  | ok h => exact .ok (hg _ _ _ h)
  | error e => exact .error e

/-! ## Tables that agree -/

/-- The reader stands where the scan has the tokens `ts` before it and has made `b`, and `label`
waits for its instruction. Its tables have what a search through `b` finds. -/
structure Stands (label : Option VarId) (ts : List Token) (b : Builder) (r : Reader) : Prop where
  tokens_eq : r.tokens = ts
  builder_eq : r.builder = b
  pending_eq : r.pending = label
  reachable : b.Reachable
  lookup_eq : ∀ kind, kind ≠ .constant → ∀ name,
    (r.table kind).lookup name = b.find? kind name
  labels_eq : r.labels.map Prod.snd = b.program.labels.reverse
  functions_eq : r.functions = b.functionCount

variable {label : Option VarId} {ts : List Token} {b b' : Builder} {r : Reader}

theorem stands_new (ts : List Token) : Stands none ts {} { tokens := ts } where
  tokens_eq := rfl
  builder_eq := rfl
  pending_eq := rfl
  reachable := .new
  lookup_eq kind _ name := by cases kind <;> rfl
  labels_eq := rfl
  functions_eq := rfl

theorem table_withTokens (r : Reader) (tokens : List Token) (kind : VarKind) :
    { r with tokens }.table kind = r.table kind := by
  cases kind <;> rfl

theorem table_withPending (r : Reader) (pending : Option VarId) (kind : VarKind) :
    { r with pending }.table kind = r.table kind := by
  cases kind <;> rfl

theorem table_withBuilder (r : Reader) (builder : Builder) (kind : VarKind) :
    { r with builder }.table kind = r.table kind := by
  cases kind <;> rfl

theorem Stands.drop (h : Stands label ts b r) (rest : List Token) :
    Stands label rest b { r with tokens := rest } where
  __ := h
  tokens_eq := rfl
  lookup_eq kind hkind name := by rw [table_withTokens, h.lookup_eq kind hkind]

theorem Stands.wait (h : Stands label ts b r) (next : Option VarId) :
    Stands next ts b { r with pending := next } where
  __ := h
  pending_eq := rfl
  lookup_eq kind hkind name := by rw [table_withPending, h.lookup_eq kind hkind]

/-- A call that declares nothing. -/
theorem Stands.call (h : Stands label ts b r) (hreachable : b'.Reachable) (hext : b.Extends b')
    (hlists : ∀ kind, b'.program.ofKind kind = b.program.ofKind kind) (functions : Nat)
    (hfunctions : b'.functionCount = functions) :
    Stands label ts b' { r with builder := b', functions } where
  tokens_eq := h.tokens_eq
  builder_eq := rfl
  pending_eq := h.pending_eq
  reachable := hreachable
  lookup_eq kind hkind name := by
    rw [hext.find?_eq h.reachable.kinded hlists, ← h.lookup_eq kind hkind]
    cases kind <;> rfl
  labels_eq := h.labels_eq.trans (congrArg List.reverse (hlists .label)).symm
  functions_eq := hfunctions.symm

theorem table_enter_self {kind : VarKind} (hconstant : kind ≠ .constant)
    (huntyped : kind ≠ .untyped) (name : String) (id : VarId) :
    (r.enter kind name id).table kind = (name, id) :: r.table kind := by
  cases kind <;> first | rfl | contradiction

theorem table_enter_of_ne {kind other : VarKind} (h : other ≠ kind) (name : String) (id : VarId) :
    (r.enter kind name id).table other = r.table other := by
  cases kind <;> cases other <;> first | rfl | contradiction

/-- A call that declares a variable under a new name. -/
theorem Stands.declare (h : Stands label ts b r) {new : Variable} (hreachable : b'.Reachable)
    (hdeclares : b.Declares new b') (hconstant : new.kind ≠ .constant)
    (huntyped : new.kind ≠ .untyped) (hnew : b.find? new.kind new.name = none) :
    Stands label ts b' ({ r with builder := b' }.enter new.kind new.name b.program.vars.size) := by
  refine ⟨?tokens, ?builder, ?pending, hreachable, fun kind hkind name => ?lookup, ?labels,
    ?functions⟩
  case tokens => rw [tokens_enter, h.tokens_eq]
  case builder => cases new.kind <;> rfl
  case pending => rw [← h.pending_eq]; cases new.kind <;> rfl
  case lookup =>
    rw [hdeclares.find?_eq h.reachable.kinded, ← h.lookup_eq kind hkind]
    by_cases heq : kind = new.kind
    · subst heq
      rw [table_enter_self hconstant huntyped, table_withBuilder, List.lookup_cons]
      by_cases hname : name = new.name
      · subst hname
        simp [h.lookup_eq _ hconstant, hnew, huntyped]
      · have hne : (name == new.name) = false := by simpa using hname
        simp [hne, Ne.symm hname]
    · rw [table_enter_of_ne heq, table_withBuilder]
      simp [heq]
  case labels =>
    have hlabels := hdeclares.lists .label
    simp only [Program.ofKind] at hlabels
    rw [hlabels, List.reverse_append, ← h.labels_eq]
    cases new.kind <;> rfl
  case functions =>
    have hcount : b'.functionCount = b.functionCount := by
      rw [Builder.functionCount, hdeclares.instrs]
      rfl
    rw [hcount, ← h.functions_eq]
    cases new.kind <;> rfl

/-- Constants have no table here. -/
theorem Stands.constant (h : Stands label ts r.builder r) (value : Int) :
    Stands label ts (r.builder.constant value).2
      { r with builder := (r.builder.constant value).2 } := by
  have hreachable := h.reachable.constant value
  cases hfound : r.builder.constant? value with
  | some v =>
      rw [Builder.constant, hfound]
      exact h
  | none =>
      have hdeclares := Builder.declares_constant h.reachable hfound
      have hfind := hdeclares.find?_eq h.reachable.kinded
      generalize (r.builder.constant value).2 = b' at hreachable hdeclares hfind
      refine ⟨h.tokens_eq, rfl, h.pending_eq, hreachable, fun kind hkind name => ?_, ?_, ?_⟩
      · rw [table_withBuilder, h.lookup_eq kind hkind, hfind]
        simp [hkind]
      · have hlabels := hdeclares.lists .label
        simp only [Program.ofKind] at hlabels
        simpa [hlabels] using h.labels_eq
      · rw [Builder.functionCount, hdeclares.instrs]
        exact h.functions_eq

/-! ## The reader follows the scan -/

/-- The reader has the result of the scan, and the tokens are the same as before. -/
abbrev Finds (label : Option VarId) (ts : List Token) (a : α) (r : Reader) (y : α × Builder) :
    Prop :=
  a = y.1 ∧ Stands label ts y.2 r

/-- The reader stands after a statement. -/
abbrev Leaves (_ : Unit) (r : Reader) (y : List Token × Builder) : Prop := Stands none y.1 y.2 r

theorem expect_follows (h : Stands label ts b r) (kind : Kind) :
    Follows (fun t r' y => t = y.1 ∧ Stands label y.2 b r') (expect kind r)
      (Parser.expect kind ts) := by
  unfold expect
  rw [h.tokens_eq]
  cases Parser.expect kind ts with
  | error e => exact .error e
  | ok taken => exact .ok ⟨rfl, h.drop taken.2⟩

theorem declared_follows (h : Stands label ts b r) (kind : VarKind) (hkind : kind ≠ .constant)
    (t : Token) :
    Follows (Finds label ts) (declared kind t r)
      (Parser.declared kind t b) := by
  refine .get ?_
  rw [h.lookup_eq kind hkind, Parser.declared]
  cases b.find? kind t.text with
  | some id => exact .ok ⟨rfl, h⟩
  | none => exact .error _

theorem labelNamed_follows (h : Stands label ts b r) (t : Token) :
    Follows (Finds label ts) (labelNamed t r)
      (.ok (Parser.labelNamed t b)) := by
  have hlookup : r.labels.lookup t.text = b.find? .label t.text := h.lookup_eq .label (by decide) _
  refine .get ?_
  rw [hlookup, Parser.labelNamed]
  cases hfind : b.find? .label t.text with
  | some id => exact .ok ⟨rfl, h⟩
  | none =>
      obtain rfl := h.builder_eq
      refine .ok ⟨rfl, ?_⟩
      exact h.declare (h.reachable.label t.text) (Builder.declares_label _ t.text) nofun nofun hfind

theorem labelDefined_follows (h : Stands label ts b r) (t : Token) :
    Follows (Finds label ts) (labelDefined t r)
      (Parser.labelDefined t b) := by
  refine (labelNamed_follows h t).bind (g := fun y =>
    if (y.2.var y.1).isDefinedLabel then .error (.parse (.duplicateLabel t.text)) else .ok y) ?_
  rintro id r' ⟨_, b'⟩ ⟨rfl, h'⟩
  refine .get ?_
  rw [h'.builder_eq]
  dsimp only
  split
  · exact .error _
  · exact .ok ⟨rfl, h'⟩

theorem constant_follows (h : Stands label ts b r) (t : Token) :
    Follows (Finds label ts) (constant t r)
      ((Parser.number t).map fun n => b.constant n) := by
  unfold constant
  cases Parser.number t with
  | error e => exact .error e
  | ok n =>
      obtain rfl := h.builder_eq
      exact .ok ⟨rfl, h.constant n⟩

theorem Follows.some {x : Reading VarId} {y : Except SourceError (VarId × Builder)}
    (hx : Follows (Finds label ts) (x r) y) :
    Follows (Finds label ts) ((some <$> x) r)
      (y.map fun (id, b) => (some id, b)) := by
  refine hx.map ?_
  rintro id r' ⟨_, b'⟩ ⟨rfl, h'⟩
  exact ⟨rfl, h'⟩

theorem operand_follows (h : Stands label ts b r) (piece : Piece) (t : Token) :
    Follows (Finds label ts) (operand piece t r)
      (Parser.operand piece t b) := by
  cases piece with
  | register => exact (declared_follows h .register nofun t).some
  | memory => exact (declared_follows h .memory nofun t).some
  | constant =>
      have hconstant := (constant_follows h t).some
      rw [Parser.operand]
      cases hnumber : Parser.number t <;> rwa [hnumber] at hconstant
  | label => exact (labelNamed_follows h t).some
  | comma => exact .ok ⟨rfl, h⟩
  | leftParen => exact .ok ⟨rfl, h⟩
  | rightParen => exact .ok ⟨rfl, h⟩

theorem operands_follows (h : Stands label ts b r) (pieces : List Piece) :
    Follows (fun ids r' y => ids = y.1 ∧ Stands label y.2.1 y.2.2 r') (operands pieces r)
      (Parser.operands pieces ts b) := by
  induction pieces generalizing ts b r with
  | nil => exact .ok ⟨rfl, h⟩
  | cons piece pieces ih =>
      refine (expect_follows h piece.kind).bind ?_
      rintro t r₁ ⟨_, ts₁⟩ ⟨rfl, h₁⟩
      refine (operand_follows h₁ piece t).bind ?_
      rintro id r₂ ⟨_, b₂⟩ ⟨rfl, h₂⟩
      refine (ih h₂).bind ?_
      rintro ids r₃ ⟨_, ts₃, b₃⟩ ⟨rfl, h₃⟩
      exact .ok ⟨rfl, h₃⟩

theorem build_follows (action : Builder.Action α) (r : Reader) :
    Follows (fun a r' y => a = y.1 ∧ r' = { r with builder := y.2 } ∧
        action.answer r.builder = .ok y)
      (build action r) ((action.answer r.builder).mapError .build) := by
  unfold build Builder.Action.answer
  cases action r.builder with
  | ok a b => exact .ok ⟨rfl, rfl, rfl⟩
  | error e b => exact .error _

theorem Stands.instruction (h : Stands label ts r.builder r) {opcode : Opcode}
    {dst src : List VarId} {inst : InstId}
    (hinstruction : r.builder.instruction opcode dst src = .ok (inst, b')) :
    Stands label ts b' { r with builder := b' } := by
  have hreachable := h.reachable.instruction hinstruction
  obtain ⟨_, _, rfl⟩ := Builder.instruction_eq_ok hinstruction
  refine h.call hreachable (Builder.extends_append _ _) (fun kind => by cases kind <;> rfl)
    r.functions ?_
  rw [h.functions_eq]
  simp [Builder.functionCount, Builder.append, Instruction.isEntry]

theorem Stands.entry (h : Stands label ts r.builder r) {name : VarId} {inst : InstId}
    (hentry : r.builder.entry name = .ok (inst, b')) :
    Stands label ts b' { r with builder := b', functions := r.functions + 1 } := by
  have hreachable := h.reachable.entry hentry
  have hext := Builder.extends_entry hentry
  obtain ⟨_, _, rfl⟩ := Builder.entry_eq_ok hentry
  refine h.call hreachable hext (fun kind => by cases kind <;> rfl) (r.functions + 1) ?_
  rw [h.functions_eq]
  simp [Builder.functionCount, Builder.append, Builder.define, Instruction.isEntry]

theorem Stands.attach (h : Stands label ts r.builder r) {inst : InstId} {name : VarId}
    (hinst : inst < r.builder.instructionCount)
    (hattach : r.builder.attach inst name = .ok b') :
    Stands label ts b' { r with builder := b' } := by
  have hreachable := h.reachable.attach hinst hattach
  have hext := Builder.extends_attach hattach
  obtain ⟨hfree, rfl⟩ := Builder.attach_eq_ok hattach
  refine h.call hreachable hext (fun kind => by cases kind <;> rfl) r.functions ?_
  have hlabel := (Builder.checkFree_eq_ok_iff.mp hfree).1
  rw [Builder.functionCount_relabel (h.reachable.kinded.define hlabel), h.functions_eq]
  rfl

theorem attach_follows (h : Stands label ts r.builder r) {inst : InstId} (name : VarId)
    (hinst : inst < r.builder.instructionCount) :
    Follows (fun _ r' y => Stands label ts y r') (build (.attach inst name) r)
      ((r.builder.attach inst name).mapError .build) := by
  have hanswer : (r.builder.attach inst name).mapError SourceError.build =
      ((Builder.Action.attach inst name).answer r.builder).mapError .build >>= fun y => .ok y.2 := by
    rw [Builder.attach]
    cases (Builder.Action.attach inst name).answer r.builder <;> rfl
  rw [hanswer]
  refine (build_follows _ r).return ?_
  rintro _ _ ⟨_, b'⟩ ⟨-, rfl, hattach⟩
  exact h.attach hinst (by rw [Builder.attach, hattach]; rfl)

theorem append_follows (h : Stands label ts b r) (opcode : Opcode) (ids : List VarId) :
    Follows (fun _ r' y => Stands none ts y r') (append opcode ids r)
      ((Parser.append opcode ids label b).mapError .build) := by
  obtain rfl := h.builder_eq
  rw [Parser.append, mapError_bind]
  refine (build_follows _ r).bind ?_
  rintro inst _ ⟨_, b'⟩ ⟨rfl, rfl, hinstruction⟩
  have h' := (h.instruction hinstruction).wait none
  refine .modifyGet ?_
  rw [h.pending_eq]
  cases label with
  | none => exact .ok h'
  | some name =>
      have hinst : inst < b'.instructionCount := by
        obtain ⟨_, rfl, rfl⟩ := Builder.instruction_eq_ok hinstruction
        simp [Builder.instructionCount, Builder.append, Program.size]
      exact attach_follows h' name hinst

theorem instruction_follows (h : Stands label ts b r) :
    Follows Leaves (instruction r)
      (Parser.instruction label ts b) := by
  obtain rfl := h.tokens_eq
  refine .get ?_
  rw [h.functions_eq, Parser.instruction]
  split
  · exact .error _
  · refine .get ?_
    rw [current]
    cases (Parser.current r.tokens).kind with
    | mnemonic opcode =>
        refine .modifyGet ((operands_follows (h.drop r.tokens.tail) opcode.form).bind ?_)
        rintro ids r' ⟨_, ts', b'⟩ ⟨rfl, h'⟩
        exact (append_follows h' opcode ids).return fun _ _ _ h'' => h''
    | _ => exact .error _

theorem memoryVariable_follows (h : Stands none ts b r) :
    Follows Leaves (memoryVariable r) (Parser.memory ts b) := by
  refine (expect_follows h .memoryName).bind ?_
  rintro name r₁ ⟨_, ts₁⟩ ⟨rfl, h₁⟩
  have hlookup : r₁.memory.lookup name.text = b.find? .memory name.text :=
    h₁.lookup_eq .memory nofun _
  refine .get ?_
  rw [hlookup]
  dsimp only
  split
  · exact .error _
  · rename_i hnew
    refine (expect_follows h₁ .number).bind ?_
    rintro t r₂ ⟨_, ts₂⟩ ⟨rfl, h₂⟩
    dsimp only
    cases Parser.number t with
    | error e => exact .error e
    | ok value =>
        obtain rfl := h₂.builder_eq
        refine .ok ?_
        exact h₂.declare (h₂.reachable.memory name.text value)
          (Builder.declares_memory _ name.text value) nofun nofun (by simpa using hnew)

theorem registerVariable_follows (h : Stands none ts b r) :
    Follows Leaves (registerVariable r) (Parser.register ts b) := by
  refine (expect_follows h .registerName).bind ?_
  rintro name r₁ ⟨_, ts₁⟩ ⟨rfl, h₁⟩
  have hlookup : r₁.registers.lookup name.text = b.find? .register name.text :=
    h₁.lookup_eq .register nofun _
  refine .get ?_
  rw [hlookup]
  dsimp only
  split
  · exact .error _
  · rename_i hnew
    obtain rfl := h₁.builder_eq
    refine .ok ?_
    exact h₁.declare (h₁.reachable.register name.text) (Builder.declares_register _ name.text)
      nofun nofun (by simpa using hnew)

theorem function_follows (h : Stands none ts b r) :
    Follows Leaves (function r) (Parser.function ts b) := by
  refine (expect_follows h .name).bind ?_
  rintro name r₁ ⟨_, ts₁⟩ ⟨rfl, h₁⟩
  refine (labelDefined_follows h₁ name).bind ?_
  rintro label r₂ ⟨_, b₂⟩ ⟨rfl, h₂⟩
  obtain rfl := h₂.builder_eq
  refine .discard ((build_follows _ r₂).bind ?_)
  rintro inst _ ⟨_, b₃⟩ ⟨rfl, rfl, hentry⟩
  exact .ok (h₂.entry hentry)

theorem labeled_follows (h : Stands none ts b r) (name : Token) :
    Follows Leaves (labeled name r)
      (Parser.labeled name ts b) := by
  refine (labelDefined_follows h name).bind ?_
  rintro label r₁ ⟨_, b₁⟩ ⟨rfl, h₁⟩
  refine .discard ((expect_follows h₁ .colon).bind ?_)
  rintro t r₂ ⟨_, ts₂⟩ ⟨rfl, h₂⟩
  exact .modifyGet (instruction_follows (h₂.wait (some label)))

theorem statement_follows (h : Stands none ts b r) :
    Follows Leaves (statement r) (Parser.statement ts b) := by
  obtain rfl := h.tokens_eq
  refine .get ?_
  rw [current, Parser.statement]
  cases (Parser.current r.tokens).kind with
  | memoryDirective => exact .modifyGet (memoryVariable_follows (h.drop r.tokens.tail))
  | registerDirective => exact .modifyGet (registerVariable_follows (h.drop r.tokens.tail))
  | functionDirective => exact .modifyGet (function_follows (h.drop r.tokens.tail))
  | name => exact .modifyGet (labeled_follows (h.drop r.tokens.tail) _)
  | _ => exact instruction_follows h

/-! ## Programs -/

theorem statements_eq_bind (r : Reader) :
    statements r = (do
      statement
      discard (expect .semicolon)
      if (← get).current.kind = .eof then return () else statements : Reading Unit) r := by
  rw [statements]
  change _ = statement r >>= _
  split
  · rename_i hread
    rw [hread]
    rfl
  · rename_i r₁ hread
    rw [hread]
    change _ = (expect .semicolon r₁ >>= _) >>= _
    split
    · rename_i hended
      rw [hended]
      rfl
    · rename_i r₂ hended
      rw [hended]
      change _ = (if r₂.current.kind = .eof then return () else statements : Reading Unit) r₂
      split <;> rfl

theorem statements_follow (h : Stands none ts b r) :
    Follows (fun _ r' y => ∃ rest, Stands none rest y r') (statements r)
      (Parser.statements ts b) := by
  -- on the number of tokens: a statement and its semicolon leave fewer
  induction hlength : r.tokens.length using Nat.strongRecOn generalizing r ts b with
  | ind n ih =>
      rw [statements_eq_bind, Parser.statements_eq_bind]
      refine (statement_follows h).self.bind ?_
      rintro _ r₁ ⟨rest, b₁⟩ ⟨h₁, hread⟩
      refine .discard ((expect_follows h₁ .semicolon).self.bind ?_)
      rintro t r₂ ⟨_, rest'⟩ ⟨⟨rfl, h₂⟩, hended⟩
      refine .get ?_
      rw [current, h₂.tokens_eq]
      dsimp only
      split
      · exact .ok ⟨_, h₂⟩
      · have hlt := length_lt_of_expect (by decide) hended
        have hle := consumes_statement _ _ _ hread
        exact ih r₂.tokens.length (by omega) h₂ rfl

/-- The labels of a program are listed in the order of their indices. -/
theorem undefinedLabel?_eq (h : Stands label ts b r) :
    r.undefinedLabel? = Parser.undefinedLabel? b := by
  have hsorted : b.program.labels.Pairwise (· < ·) := by
    have hlist := h.reachable.consistent.lists .label (by decide)
    simp only [Program.ofKind] at hlist
    rw [hlist]
    exact List.pairwise_lt_range.filter _
  rw [undefinedLabel?, Parser.undefinedLabel?, h.labels_eq, h.builder_eq, List.filter_reverse,
    ← List.head?_filter]
  have hfiltered := hsorted.filter fun v => !(b.var v).isDefinedLabel
  generalize b.program.labels.filter (fun v => !(b.var v).isDefinedLabel) = labels at hfiltered
  cases labels with
  | nil => rfl
  | cons first labels =>
      rw [List.head?_cons, List.min?_eq_some_iff]
      refine ⟨by simp, fun v hv => ?_⟩
      rcases List.mem_cons.mp (List.mem_reverse.mp hv) with rfl | hv
      · exact Nat.le_refl _
      · exact Nat.le_of_lt (List.rel_of_pairwise_cons hfiltered hv)

end Reader

/-- The reader with tables and the reader without them find the same program, or the same fault. -/
theorem Parser.program_eq_scan (ts : List Token) : Parser.program ts = Parser.scan ts := by
  have hstatements := Reader.statements_follow (Reader.stands_new ts)
  rw [Parser.program, Parser.scan]
  generalize Reader.statements { tokens := ts } = read at hstatements ⊢
  generalize Parser.statements ts {} = scanned at hstatements ⊢
  cases hstatements with
  | error e => rfl
  | ok hstands =>
      obtain ⟨rest, h⟩ := hstands
      change Reader.finish _ = _
      rw [Reader.finish, Reader.undefinedLabel?_eq h, h.builder_eq, h.functions_eq]
      rfl

end RegAlloc
