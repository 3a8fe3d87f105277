import RegAlloc.Proofs.Program.Admission
import RegAlloc.Proofs.Program.Parsing
import RegAlloc.Proofs.Program.Reading

/-!
# Reading instructions

What the reader does with the tokens of an instruction: it takes exactly those that the pattern of
the operation asks for, and the variables that it finds or makes are written as the tokens say.
-/

namespace RegAlloc

theorem Opcode.pattern_iff {opcode : Opcode} {kinds : List Kind} :
    opcode.Pattern kinds ↔ kinds = opcode.form.map Piece.kind := by
  constructor
  · rintro ⟨⟩ <;> rfl
  · rintro rfl
    cases opcode <;> constructor

/-- The kind of the variable that a piece stands for. -/
def Piece.varKind? : Piece → Option VarKind
  | register => some .register
  | memory => some .memory
  | constant => some .constant
  | label => some .label
  | comma | leftParen | rightParen => none

/-- The operand that a piece with the given text stands for. -/
def Piece.argument? (text : String) : Piece → Option Argument
  | register => some (.register text)
  | memory => some (.memory text)
  | constant => some (.number (Text.Decimal.value text.toList))
  | label => some (.label text)
  | comma | leftParen | rightParen => none

theorem Token.argument?_eq {t : Token} {piece : Piece} (h : t.kind = piece.kind) :
    t.argument? = piece.argument? t.text := by
  rw [Token.argument?, h]
  cases piece <;> rfl

theorem Opcode.varKind?_form (opcode : Opcode) :
    opcode.form.filterMap Piece.varKind? = opcode.shape.dst ++ opcode.shape.src := by
  cases opcode <;> rfl

namespace Parser

variable {b b' : Builder} {ss : List Statement} {names : List String} {ts rest : List Token}

/-! ## Single tokens -/

theorem expect_eq_ok_iff {kind : Kind} {t : Token} (hkind : kind ≠ .eof) :
    expect kind ts = .ok (t, rest) ↔ ts = t :: rest ∧ t.kind = kind := by
  cases ts with
  | nil => simp [expect, current, Token.eof, hkind.symm]
  | cons u us =>
      by_cases h : u.kind = kind
      · simp only [expect, current, List.headD_cons, h, if_true, List.tail_cons, Except.ok.injEq,
          Prod.mk.injEq, List.cons.injEq]
        refine ⟨?_, fun heq => heq.1⟩
        rintro ⟨rfl, rfl⟩
        exact ⟨⟨rfl, rfl⟩, h⟩
      · simp only [expect, current, List.headD_cons, h, if_false, reduceCtorEq, List.cons.injEq,
          false_iff]
        rintro ⟨⟨rfl, _⟩, hu⟩
        exact h hu

theorem expect_cons {kind : Kind} {t : Token} (h : t.kind = kind) (ts : List Token) :
    expect kind (t :: ts) = .ok (t, ts) :=
  if_pos h

theorem number_eq_ok_iff {t : Token} {n : Int} :
    number t = .ok n ↔ n = Text.Decimal.value t.text.toList ∧ Text.Decimal.FitsWord n := by
  unfold number
  dsimp only
  split
  · rename_i h
    simp only [Except.ok.injEq]
    refine ⟨?_, fun heq => heq.1.symm⟩
    rintro rfl
    exact ⟨rfl, h⟩
  · rename_i h
    simp only [reduceCtorEq, false_iff]
    rintro ⟨rfl, hfits⟩
    exact h hfits

theorem find?_eq_some {kind : VarKind} {name : String} {v : VarId}
    (h : b.find? kind name = some v) :
    v ∈ b.program.ofKind kind ∧ (b.program.var v).name = name := by
  refine ⟨List.mem_of_find?_eq_some h, ?_⟩
  have hname := List.find?_some h
  simpa [Builder.var] using hname

theorem find?_eq_none {kind : VarKind} {name : String} (h : b.find? kind name = none) :
    ∀ v ∈ b.program.ofKind kind, (b.program.var v).name ≠ name := by
  intro v hv
  have hname := List.find?_eq_none.mp h v hv
  simpa [Builder.var] using hname

/-! ## Names -/

theorem filterMap_eq_filterMap_filter {α β : Type} (f : α → Option β) (xs : List α) :
    xs.filterMap f = (xs.filter fun x => (f x).isSome).filterMap f := by
  rw [List.filterMap_filter]
  congr 1
  funext x
  cases f x <;> rfl

/-- A name is found in the list of a kind if some statement declares it. -/
theorem find?_isSome_iff {kind : VarKind} {declared? : Statement → Option String}
    {make : Variable → Statement} (hmake : ∀ x, declared? (make x) = some x.name)
    (hlist : (b.program.ofKind kind).map (fun v => make (b.program.var v)) =
      ss.filter fun s => (declared? s).isSome) {name : String} :
    (b.find? kind name).isSome = true ↔ name ∈ ss.filterMap declared? := by
  rw [filterMap_eq_filterMap_filter, ← hlist, List.filterMap_map]
  simp [Builder.find?, Builder.var, hmake]

theorem find?_memory_isSome (h : b.Reads ss names) {name : String} :
    (b.find? .memory name).isSome = true ↔ name ∈ ss.filterMap Statement.declaredMemory? :=
  @find?_isSome_iff b ss .memory _ (fun x => .memory x.name x.value) (fun _ => rfl) h.memory name

theorem find?_register_isSome (h : b.Reads ss names) {name : String} :
    (b.find? .register name).isSome = true ↔ name ∈ ss.filterMap Statement.declaredRegister? :=
  @find?_isSome_iff b ss .register _ (fun x => .register x.name) (fun _ => rfl) h.registers name

/-- The label that a token names, in the builder that has it. -/
theorem reads_labelNamed (h : b.Reads ss names) (t : Token) :
    (labelNamed t b).2.Reads ss (t.text :: names) ∧ b.Extends (labelNamed t b).2 ∧
      (labelNamed t b).1 ∈ (labelNamed t b).2.program.labels ∧
      ((labelNamed t b).2.program.var (labelNamed t b).1).name = t.text := by
  unfold labelNamed
  cases hfind : b.find? .label t.text with
  | some v =>
      obtain ⟨hv, hname⟩ := find?_eq_some hfind
      exact ⟨h.mono (List.subset_cons_self _ _), .refl b, hv, hname⟩
  | none =>
      refine ⟨h.label_call (find?_eq_none hfind), b.extends_label t.text, ?_, ?_⟩
      · simp [Builder.label, Builder.push]
      · exact congrArg Variable.name ((b.var_push .label t.text 0 none _).trans (if_pos rfl))

theorem argumentOf_constant {b : Builder} (hb : b.Reachable) (value : Int) :
    (b.constant value).2.program.argumentOf (b.constant value).1 = .number value ∧
      ((b.constant value).2.program.var (b.constant value).1).kind = .constant := by
  unfold Builder.constant
  cases hconstant : b.constant? value with
  | some v =>
      obtain ⟨hmem, hvalue⟩ := hb.constant?_eq_some hconstant
      have hkind := @Builder.Kinded.kind_of_mem b hb.kinded .constant v hmem
      exact ⟨by simp [Program.argumentOf, hkind, hvalue], hkind⟩
  | none =>
      have hvar := (b.var_push .constant (Text.Decimal.text value) value none _).trans (if_pos rfl)
      refine ⟨?_, congrArg Variable.kind hvar⟩
      exact (by simp [Program.argumentOf, hvar] : (b.push .constant (Text.Decimal.text value) value
        none).2.program.argumentOf b.program.vars.size = .number value)

/-! ## Operands -/

/-- The builder `b'` has the operand that `t` stands for. -/
structure OperandRead (b : Builder) (ss : List Statement) (names : List String) (piece : Piece)
    (t : Token) (id : Option VarId) (b' : Builder) : Prop where
  reads : b'.Reads ss ((t.argument?.bind Argument.label?).toList ++ names)
  extends_ : b.Extends b'
  argument_eq : id.map b'.program.argumentOf = t.argument?
  kind_eq : id.map (fun v => (b'.program.var v).kind) = piece.varKind?
  admitted : ∀ a, t.argument? = some a → a.Admitted ss

theorem declared_eq_ok_iff {kind : VarKind} {t : Token} {v : VarId} :
    declared kind t b = .ok (v, b') ↔ b' = b ∧ b.find? kind t.text = some v := by
  unfold declared
  cases b.find? kind t.text <;> simp [eq_comm, and_comm]

/-- An operand that the builder has already. -/
theorem operandRead_of_find? (h : b.Reads ss names) {piece : Piece} {kind : VarKind} {t : Token}
    {a : Argument} {v : VarId} (hargument : t.argument? = some a) (hlabel : a.label? = none)
    (hpiece : piece.varKind? = some kind) (hfind : b.find? kind t.text = some v)
    (hv : (b.program.var v).kind = kind → (b.program.var v).name = t.text →
      b.program.argumentOf v = a)
    (hadmitted : a.Admitted ss) : OperandRead b ss names piece t (some v) b := by
  obtain ⟨hmem, hname⟩ := find?_eq_some hfind
  have hkind := h.reachable.kinded.kind_of_mem hmem
  refine ⟨?_, .refl b, ?_, ?_, ?_⟩
  · simpa [hargument, hlabel] using h
  · simp [hargument, hv hkind hname]
  · simp [hpiece, hkind]
  · intro a' ha'
    rw [hargument] at ha'
    cases ha'
    exact hadmitted

theorem operandRead_of_operand (h : b.Reads ss names) {piece : Piece} {t : Token}
    {id : Option VarId} (hkind : t.kind = piece.kind) (hread : operand piece t b = .ok (id, b')) :
    OperandRead b ss names piece t id b' := by
  have hargument := t.argument?_eq hkind
  cases piece with
  | register =>
      obtain ⟨⟨v, b₁⟩, hdeclared, heq⟩ := map_eq_ok.mp hread
      cases heq
      obtain ⟨rfl, hfind⟩ := declared_eq_ok_iff.mp hdeclared
      refine operandRead_of_find? h hargument rfl rfl hfind ?_ ?_
      · intro hkind' hname
        simp [Program.argumentOf, hkind', hname]
      · exact (find?_register_isSome h).mp (by rw [hfind]; rfl)
  | memory =>
      obtain ⟨⟨v, b₁⟩, hdeclared, heq⟩ := map_eq_ok.mp hread
      cases heq
      obtain ⟨rfl, hfind⟩ := declared_eq_ok_iff.mp hdeclared
      refine operandRead_of_find? h hargument rfl rfl hfind ?_ ?_
      · intro hkind' hname
        simp [Program.argumentOf, hkind', hname]
      · exact (find?_memory_isSome h).mp (by rw [hfind]; rfl)
  | constant =>
      obtain ⟨n, hnumber, heq⟩ := map_eq_ok.mp hread
      cases heq
      obtain ⟨rfl, hfits⟩ := number_eq_ok_iff.mp hnumber
      obtain ⟨hargumentOf, hkind'⟩ :=
        argumentOf_constant h.reachable (Text.Decimal.value t.text.toList)
      refine ⟨?_, b.extends_constant _, ?_, ?_, ?_⟩
      · simpa [hargument, Piece.argument?, Argument.label?] using h.constant_call _
      · simp [hargument, Piece.argument?, hargumentOf]
      · simp [hkind', Piece.varKind?]
      · intro a ha
        rw [hargument] at ha
        cases ha
        exact hfits
  | label =>
      cases hread
      obtain ⟨hreads, hext, hmem, hname⟩ := reads_labelNamed h t
      have hkind' := hreads.mem_labels.mp hmem
      refine ⟨?_, hext, ?_, ?_, ?_⟩
      · simpa [hargument, Piece.argument?, Argument.label?] using hreads
      · simp [hargument, Piece.argument?, Program.argumentOf, hkind', hname]
      · simp [hkind', Piece.varKind?]
      · intro a ha
        rw [hargument] at ha
        cases ha
        trivial
  | _ =>
      cases hread
      have hnone : t.argument? = none := hargument
      exact ⟨by simpa [hnone] using h, .refl _, by simp [hnone], rfl, by simp [hnone]⟩

theorem exists_declared {kind : VarKind} {t : Token} (h : (b.find? kind t.text).isSome = true) :
    ∃ v, declared kind t b = .ok (v, b) := by
  obtain ⟨v, hfind⟩ := Option.isSome_iff_exists.mp h
  exact ⟨v, declared_eq_ok_iff.mpr ⟨rfl, hfind⟩⟩

/-- An operand that the statements so far admit is read. -/
theorem exists_operand (h : b.Reads ss names) {piece : Piece} {t : Token}
    (hkind : t.kind = piece.kind) (hadmitted : ∀ a, t.argument? = some a → a.Admitted ss) :
    ∃ id b', operand piece t b = .ok (id, b') := by
  rw [t.argument?_eq hkind] at hadmitted
  cases piece with
  | register =>
      obtain ⟨v, hv⟩ := exists_declared ((find?_register_isSome h).mpr (hadmitted _ rfl))
      exact ⟨some v, b, map_eq_ok.mpr ⟨_, hv, rfl⟩⟩
  | memory =>
      obtain ⟨v, hv⟩ := exists_declared ((find?_memory_isSome h).mpr (hadmitted _ rfl))
      exact ⟨some v, b, map_eq_ok.mpr ⟨_, hv, rfl⟩⟩
  | constant =>
      have hnumber := number_eq_ok_iff.mpr ⟨rfl, (hadmitted _ rfl : Text.Decimal.FitsWord _)⟩
      exact ⟨_, _, map_eq_ok.mpr ⟨_, hnumber, rfl⟩⟩
  | _ => exact ⟨_, _, rfl⟩

/-! ## Operand lists -/

/-- The builder `b'` has the operands that the tokens `used` stand for. -/
structure OperandsRead (b : Builder) (ss : List Statement) (names : List String)
    (pieces : List Piece) (used : List Token) (ids : List VarId) (b' : Builder) : Prop where
  reads : b'.Reads ss ((used.filterMap Token.argument?).filterMap Argument.label? ++ names)
  extends_ : b.Extends b'
  arguments_eq : ids.map b'.program.argumentOf = used.filterMap Token.argument?
  kinds_eq : ids.map (fun v => (b'.program.var v).kind) = pieces.filterMap Piece.varKind?
  admitted : ∀ a ∈ used.filterMap Token.argument?, a.Admitted ss

theorem OperandRead.lt_size {piece : Piece} {t : Token} {v : VarId}
    (h : OperandRead b ss names piece t (some v) b') : v < b'.program.vars.size := by
  apply Program.lt_size_of_kind
  intro huntyped
  have hkind := h.kind_eq
  simp only [Option.map_some, huntyped] at hkind
  cases piece <;> cases hkind

theorem OperandRead.cons {piece : Piece} {pieces : List Piece} {t : Token} {used : List Token}
    {id : Option VarId} {ids : List VarId} {b₁ : Builder} (h : OperandRead b ss names piece t id b₁)
    (hrest : OperandsRead b₁ ss ((t.argument?.bind Argument.label?).toList ++ names) pieces used ids
      b') :
    OperandsRead b ss names (piece :: pieces) (t :: used) (id.toList ++ ids) b' where
  reads := by
    refine hrest.reads.mono ?_
    cases hargument : t.argument? with
    | none => simp [hargument]
    | some a => cases hlabel : a.label? <;> simp [hargument, hlabel]
  extends_ := h.extends_.trans hrest.extends_
  arguments_eq := by
    rw [List.map_append, hrest.arguments_eq]
    cases id with
    | none => simp [← h.argument_eq]
    | some v =>
        have hkeep := hrest.extends_.argumentOf_eq h.lt_size
        simp [← h.argument_eq, hkeep]
  kinds_eq := by
    rw [List.map_append, hrest.kinds_eq]
    cases id with
    | none => simp [← h.kind_eq]
    | some v =>
        have hkeep := hrest.extends_.kind_eq h.lt_size
        simp [← h.kind_eq, hkeep]
  admitted := by
    intro a ha
    cases hargument : t.argument? with
    | none => exact hrest.admitted a (by simpa [hargument] using ha)
    | some a' =>
        rw [List.filterMap_cons_some hargument] at ha
        rcases List.mem_cons.mp ha with rfl | ha
        · exact h.admitted _ hargument
        · exact hrest.admitted a ha

theorem piece_kind_ne_eof (piece : Piece) : piece.kind ≠ .eof := by
  cases piece <;> decide

theorem operandsRead_of_operands {pieces : List Piece} {ids : List VarId} (h : b.Reads ss names)
    (hread : operands pieces ts b = .ok (ids, rest, b')) :
    ∃ used, ts = used ++ rest ∧ used.map Token.kind = pieces.map Piece.kind ∧
      OperandsRead b ss names pieces used ids b' := by
  induction pieces generalizing ts b names ids with
  | nil =>
      cases hread
      exact ⟨[], rfl, rfl, by simpa using h, .refl _, rfl, rfl, by simp⟩
  | cons piece pieces ih =>
      obtain ⟨⟨t, ts'⟩, htaken, hread⟩ := bind_eq_ok.mp hread
      obtain ⟨⟨id, b₁⟩, hoperand, hread⟩ := bind_eq_ok.mp hread
      obtain ⟨⟨ids', rest', b₂⟩, hrest, hread⟩ := bind_eq_ok.mp hread
      cases hread
      obtain ⟨rfl, hkind⟩ := (expect_eq_ok_iff (piece_kind_ne_eof piece)).mp htaken
      have hfirst := operandRead_of_operand h hkind hoperand
      obtain ⟨used, rfl, hkinds, hused⟩ := ih hfirst.reads hrest
      exact ⟨t :: used, rfl, by simp [hkind, hkinds], hfirst.cons hused⟩

theorem exists_operands {pieces : List Piece} {used : List Token} (h : b.Reads ss names)
    (hkinds : used.map Token.kind = pieces.map Piece.kind)
    (hadmitted : ∀ a ∈ used.filterMap Token.argument?, a.Admitted ss) (rest : List Token) :
    ∃ ids b', operands pieces (used ++ rest) b = .ok (ids, rest, b') := by
  induction pieces generalizing used b names with
  | nil =>
      obtain rfl : used = [] := by simpa using hkinds
      exact ⟨[], b, rfl⟩
  | cons piece pieces ih =>
      cases used with
      | nil => simp at hkinds
      | cons t used =>
          obtain ⟨hkind, hkinds⟩ : t.kind = piece.kind ∧
              used.map Token.kind = pieces.map Piece.kind := by simpa using hkinds
          have hhead : ∀ a, t.argument? = some a → a.Admitted ss := fun a ha =>
            hadmitted a (by simp [ha])
          have htail : ∀ a ∈ used.filterMap Token.argument?, a.Admitted ss := fun a ha =>
            hadmitted a (by
              obtain ⟨u, hu, hua⟩ := List.mem_filterMap.mp ha
              exact List.mem_filterMap.mpr ⟨u, List.mem_cons_of_mem t hu, hua⟩)
          obtain ⟨id, b₁, hoperand⟩ := exists_operand h hkind hhead
          have hfirst := operandRead_of_operand h hkind hoperand
          obtain ⟨ids, b', hrest⟩ := ih hfirst.reads hkinds htail
          refine ⟨id.toList ++ ids, b', ?_⟩
          exact bind_eq_ok.mpr ⟨_, expect_cons hkind _, bind_eq_ok.mpr ⟨_, hoperand,
            bind_eq_ok.mpr ⟨_, hrest, rfl⟩⟩⟩

end Parser

end RegAlloc
