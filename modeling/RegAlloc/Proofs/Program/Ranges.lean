import RegAlloc.Proofs.Program.Faults

/-!
# Numbers out of range

A number is refused as invalid exactly if it stands where an admitted text can go on with a number
and does not fit a word. In one direction the reader takes all tokens before the number, as it would
take them in the admitted text; in the other what was read can be completed after a smaller number.
-/

namespace RegAlloc

/-- Some text whose statements are all admitted begins with these tokens and a number. -/
def ExpectsNumber (before : List Token) : Prop :=
  ∃ u after ss, u.kind = .number ∧ SpellsAll (before ++ u :: after) ss ∧ AdmittedAll ss

/-- A statement that is admitted after `ss` begins with these tokens and a number. -/
def Statement.ExpectsNumber (ss : List Statement) (part : List Token) : Prop :=
  ∃ u more s, u.kind = .number ∧ Spells (part ++ u :: more) s ∧ s.Admitted ss

namespace Parser

variable {b : Builder} {ss : List Statement} {names : List String} {ts : List Token} {t : Token}

theorem exists_cons_of_ne {u x : Token} {part more us : List Token}
    (h : part ++ u :: more = x :: us) (hne : u ≠ x) :
    ∃ part', part = x :: part' ∧ part' ++ u :: more = us := by
  cases part with
  | nil => exact absurd (List.cons.inj h).1 hne
  | cons y part =>
      obtain ⟨rfl, hus⟩ := List.cons.inj h
      exact ⟨part, rfl, hus⟩

/-- A token other than the separator `x` stands before it or after it. -/
theorem before_or_after {u x : Token} {before post used rest : List Token}
    (h : before ++ u :: post = used ++ x :: rest) (hne : u ≠ x) :
    (∃ more, before ++ u :: more = used) ∨
      ∃ before', before = used ++ x :: before' ∧ before' ++ u :: post = rest := by
  rcases List.append_eq_append_iff.mp h with ⟨more, rfl, hmore⟩ | ⟨mid, rfl, hmid⟩
  · cases more with
    | nil => exact absurd (List.cons.inj hmore).1 hne
    | cons y more =>
        obtain ⟨rfl, _⟩ := List.cons.inj hmore
        exact Or.inl ⟨more, rfl⟩
  · cases mid with
    | nil => exact absurd (List.cons.inj hmid).1.symm hne
    | cons y mid =>
        obtain ⟨rfl, hrest⟩ := List.cons.inj hmid
        exact Or.inr ⟨mid, rfl, hrest.symm⟩

theorem statements_of_statement_error {e : SourceError} (h : statement ts b = .error e) :
    statements ts b = .error e := by
  fun_cases statements ts b <;> simp_all

/-! ## A number that does not fit is refused -/

section Refused

variable (ht : t.kind = .number)
  (hfits : ¬ Text.Decimal.FitsWord (Text.Decimal.value t.text.toList))

include ht hfits

theorem operands_eq_invalidNumber (h : b.Reads ss names) {pieces : List Piece}
    {part more : List Token} {u : Token} (hu : u.kind = .number)
    (hkinds : (part ++ u :: more).map Token.kind = pieces.map Piece.kind)
    (hadmitted : ∀ a ∈ part.filterMap Token.argument?, a.Admitted ss) (after : List Token) :
    operands pieces (part ++ t :: after) b = .error (.parse (.invalidNumber t)) := by
  induction pieces generalizing part b names with
  | nil => simp at hkinds
  | cons piece pieces ih =>
      cases part with
      | nil =>
          obtain ⟨hpiece, _⟩ := List.cons.inj hkinds
          obtain rfl : piece = .constant := by
            rw [hu] at hpiece
            cases piece <;> first | rfl | cases hpiece
          have hnumber : operand .constant t b = .error (.parse (.invalidNumber t)) := by
            rw [operand, number, if_neg hfits]
            rfl
          exact bind_eq_error.mpr (Or.inr ⟨_, expect_cons ht _, bind_eq_error.mpr (Or.inl hnumber)⟩)
      | cons x part =>
          obtain ⟨hkind, hkinds⟩ := List.cons.inj hkinds
          have hhead : ∀ a, x.argument? = some a → a.Admitted ss := fun a ha =>
            hadmitted a (by simp [ha])
          have htail : ∀ a ∈ part.filterMap Token.argument?, a.Admitted ss := fun a ha =>
            hadmitted a (List.Sublist.mem ha ((List.sublist_cons_self x part).filterMap _))
          obtain ⟨id, b₁, hoperand⟩ := exists_operand h hkind hhead
          have hreads := (operandRead_of_operand h hkind hoperand).reads
          have hrest := ih hreads hkinds htail
          exact bind_eq_error.mpr (Or.inr ⟨_, expect_cons hkind _, bind_eq_error.mpr
            (Or.inr ⟨_, hoperand, bind_eq_error.mpr (Or.inl hrest)⟩)⟩)

theorem instruction_eq_invalidNumber (h : b.Reads ss names) (label : Option VarId) {m u : Token}
    {part more : List Token} {opcode : Opcode} (hm : m.kind = .mnemonic opcode)
    (hu : u.kind = .number) (hpattern : opcode.Pattern ((part ++ u :: more).map Token.kind))
    (hfunction : ∃ s ∈ ss, s.isFunction = true)
    (hadmitted : ∀ a ∈ (part ++ u :: more).filterMap Token.argument?, a.Admitted ss)
    (after : List Token) :
    instruction label (m :: part ++ t :: after) b = .error (.parse (.invalidNumber t)) := by
  have hcount : b.functionCount ≠ 0 := by
    rw [functionCount_eq h]
    exact Nat.ne_of_gt (List.countP_pos_iff.mpr hfunction)
  have hpart : ∀ a ∈ part.filterMap Token.argument?, a.Admitted ss := fun a ha =>
    hadmitted a (List.Sublist.mem ha ((List.sublist_append_left part _).filterMap _))
  simp only [instruction, if_neg hcount, current, List.cons_append, List.headD_cons, hm,
    List.tail_cons]
  exact bind_eq_error.mpr (Or.inl (operands_eq_invalidNumber ht hfits h hu
    (Opcode.pattern_iff.mp hpattern) hpart after))

/-- An admitted statement is read up to the place of its number. -/
theorem statement_eq_invalidNumber (h : b.Reads ss []) {part : List Token}
    (hpart : Statement.ExpectsNumber ss part) (after : List Token) :
    statement (part ++ t :: after) b = .error (.parse (.invalidNumber t)) := by
  obtain ⟨u, more, s, hu, hspells, hadmitted⟩ := hpart
  have hne : ∀ {x : Token}, x.kind ≠ .number → u ≠ x := fun hx heq => hx (heq ▸ hu)
  generalize hused : part ++ u :: more = used at hspells
  cases hspells with
  | @memory d name x hd hname hx =>
      obtain ⟨part, rfl, hrest⟩ := exists_cons_of_ne hused (hne (by simp [hd]))
      obtain ⟨part, rfl, hlast⟩ := exists_cons_of_ne hrest (hne (by simp [hname]))
      obtain rfl : part = [] := by
        cases part with
        | nil => rfl
        | cons y part => simp at hlast
      have hfresh := mt (find?_memory_isSome h).mp hadmitted.1
      simp only [statement, current, List.cons_append, List.headD_cons, hd, List.tail_cons]
      exact bind_eq_error.mpr (Or.inr ⟨_, expect_cons hname _, (if_neg hfresh).trans
        (bind_eq_error.mpr (Or.inr ⟨_, expect_cons ht _,
          bind_eq_error.mpr (Or.inl (if_neg hfits))⟩))⟩)
  | @register d name hd hname =>
      obtain ⟨part, rfl, hrest⟩ := exists_cons_of_ne hused (hne (by simp [hd]))
      obtain ⟨part, rfl, hlast⟩ := exists_cons_of_ne hrest (hne (by simp [hname]))
      simp at hlast
  | @function d name hd hname =>
      obtain ⟨part, rfl, hrest⟩ := exists_cons_of_ne hused (hne (by simp [hd]))
      obtain ⟨part, rfl, hlast⟩ := exists_cons_of_ne hrest (hne (by simp [hname]))
      simp at hlast
  | @plain m us opcode hm hpattern =>
      obtain ⟨part, rfl, rfl⟩ := exists_cons_of_ne hused (hne (by simp [hm]))
      simp only [statement, current, List.cons_append, List.headD_cons, hm]
      exact instruction_eq_invalidNumber ht hfits h none hm hu hpattern hadmitted.1 hadmitted.2.2
        after
  | @labeled label colon m us opcode hl hcolon hm hpattern =>
      obtain ⟨part, rfl, hrest⟩ := exists_cons_of_ne hused (hne (by simp [hl]))
      obtain ⟨part, rfl, hlast⟩ := exists_cons_of_ne hrest (hne (by simp [hcolon]))
      obtain ⟨part, rfl, rfl⟩ := exists_cons_of_ne hlast (hne (by simp [hm]))
      obtain ⟨v, b₁, hlabel⟩ := exists_labelDefined h (hadmitted.2.1 _ rfl)
      have hreads := (reads_labelDefined h hlabel).1
      have hread := instruction_eq_invalidNumber ht hfits hreads (some v) hm hu hpattern
        hadmitted.1 hadmitted.2.2 after
      simp only [statement, current, List.cons_append, List.headD_cons, hl, List.tail_cons]
      exact bind_eq_error.mpr (Or.inr ⟨_, hlabel,
        bind_eq_error.mpr (Or.inr ⟨_, expect_cons hcolon _, hread⟩)⟩)

/-- The statements of an admitted text are read up to the place of a number. -/
theorem statements_eq_invalidNumber (h : b.Reads ss []) {before post : List Token} {u : Token}
    {ss' : List Statement} (hu : u.kind = .number) (hspells : SpellsAll (before ++ u :: post) ss')
    (hadmitted : AdmittedAll (ss ++ ss')) (after : List Token) :
    statements (before ++ t :: after) b = .error (.parse (.invalidNumber t)) := by
  have hne : ∀ {x : Token}, x.kind ≠ .number → u ≠ x := fun hx heq => hx (heq ▸ hu)
  generalize htokens : before ++ u :: post = tokens at hspells
  induction hspells generalizing before ss b with
  | @last used s semicolon eof hspells hkind heof =>
      rcases before_or_after htokens (hne (by simp [hkind])) with ⟨more, rfl⟩ | ⟨before', _, hend⟩
      · exact statements_of_statement_error (statement_eq_invalidNumber ht hfits h
          ⟨u, more, s, hu, hspells, hadmitted ss s [] rfl⟩ after)
      · obtain ⟨_, _, hnil⟩ := exists_cons_of_ne hend (hne (by simp [heof]))
        simp at hnil
  | @more used rest s ss' semicolon hspells hkind hrest ih =>
      rcases before_or_after htokens (hne (by simp [hkind])) with ⟨more, rfl⟩ | ⟨before', rfl, rfl⟩
      · exact statements_of_statement_error (statement_eq_invalidNumber ht hfits h
          ⟨u, more, s, hu, hspells, hadmitted ss s ss' rfl⟩ after)
      · obtain ⟨b₁, hread, hreads⟩ := exists_statement h hspells (hadmitted ss s ss' rfl)
          (semicolon :: (before' ++ t :: after))
        have heof : (current (before' ++ t :: after)).kind ≠ .eof := by
          cases before' with
          | nil => simp [current, ht]
          | cons x before' =>
              have hx : x.kind ≠ .eof := current_ne_eof_of_spellsAll hrest
              exact hx
        rw [List.append_assoc, List.cons_append, statements_eq hread rfl hkind, if_neg heof]
        exact ih hreads (by simpa using hadmitted) rfl

end Refused

/-! ## What is refused stands where a number may stand -/

/-- The operands before a number that is refused were read. -/
theorem exists_constant_of_operands (h : b.Reads ss names) {pieces : List Piece}
    (hread : operands pieces ts b = .error (.parse (.invalidNumber t))) :
    ∃ front back part after, pieces = front ++ .constant :: back ∧ ts = part ++ t :: after ∧
      t.kind = .number ∧ ¬ Text.Decimal.FitsWord (Text.Decimal.value t.text.toList) ∧
      part.map Token.kind = front.map Piece.kind ∧
      ∀ a ∈ part.filterMap Token.argument?, a.Admitted ss := by
  induction pieces generalizing ts b names with
  | nil => cases hread
  | cons piece pieces ih =>
      rcases bind_eq_error.mp hread with hexpect | ⟨⟨u, ts'⟩, htaken, htail⟩
      · cases expect_eq_error hexpect
      obtain ⟨rfl, hkind⟩ := (expect_eq_ok_iff (piece_kind_ne_eof piece)).mp htaken
      rcases bind_eq_error.mp htail with hoperand | ⟨⟨id, b₁⟩, hoperand, hmore⟩
      · rcases operand_eq_error hoperand with heq | ⟨rfl, heq, hfits⟩
        · cases heq
        · cases heq
          exact ⟨[], pieces, [], ts', rfl, rfl, hkind, hfits, rfl, by simp⟩
      rcases bind_eq_error.mp hmore with hrest | ⟨_, _, hdone⟩
      · have hfirst := operandRead_of_operand h hkind hoperand
        obtain ⟨front, back, part, after, rfl, rfl, ht, hfits, hkinds, hadmitted⟩ :=
          ih hfirst.reads hrest
        refine ⟨piece :: front, back, u :: part, after, rfl, rfl, ht, hfits,
          by simp [hkind, hkinds], fun a ha => ?_⟩
        obtain ⟨x, hx, hxa⟩ := List.mem_filterMap.mp ha
        rcases List.mem_cons.mp hx with rfl | hx
        · exact hfirst.admitted a hxa
        · exact hadmitted a (List.mem_filterMap.mpr ⟨x, hx, hxa⟩)
      · cases hdone

/-- Behind a constant comes nothing, or a register in parentheses after a register that came before
it. -/
theorem form_after_constant {opcode : Opcode} {front back : List Piece}
    (h : opcode.form = front ++ .constant :: back) :
    back = [] ∨ back = [.leftParen, .register, .rightParen] ∧ .register ∈ front := by
  cases opcode with
  | addi | li =>
      simp [Opcode.form, List.cons_eq_append_iff] at h
      exact Or.inl h.2
  | lw | sw =>
      simp [Opcode.form, List.cons_eq_append_iff] at h
      exact Or.inr ⟨h.2, by simp [h.1]⟩
  | _ => simp [Opcode.form, List.cons_eq_append_iff] at h

/-- Operands that were read up to a constant can be completed. -/
theorem exists_completion {opcode : Opcode} {front back : List Piece} {part : List Token}
    (h : opcode.form = front ++ .constant :: back)
    (hkinds : part.map Token.kind = front.map Piece.kind)
    (hadmitted : ∀ a ∈ part.filterMap Token.argument?, a.Admitted ss) :
    ∃ u more, u.kind = .number ∧ opcode.Pattern ((part ++ u :: more).map Token.kind) ∧
      ∀ a ∈ (part ++ u :: more).filterMap Token.argument?, a.Admitted ss := by
  obtain ⟨more, hmore, hrest⟩ : ∃ more : List Token, more.map Token.kind = back.map Piece.kind ∧
      ∀ a ∈ more.filterMap Token.argument?, a.Admitted ss := by
    rcases form_after_constant h with rfl | ⟨rfl, hregister⟩
    · exact ⟨[], rfl, by simp⟩
    · have hmem := List.mem_map_of_mem (f := Piece.kind) hregister
      rw [← hkinds] at hmem
      obtain ⟨r, hr, hkind⟩ := List.mem_map.mp hmem
      refine ⟨[⟨.leftParen, "(", {}⟩, r, ⟨.rightParen, ")", {}⟩], ?_, fun a ha => ?_⟩
      · simp [hkind, Piece.kind]
      · have hsame : r.argument? = some a := by simpa [Token.argument?] using ha
        exact hadmitted a (List.mem_filterMap.mpr ⟨r, hr, hsame⟩)
  have hzero : Text.Decimal.FitsWord (Text.Decimal.value "0".toList) := by decide
  refine ⟨⟨.number, "0", {}⟩, more, rfl, ?_, fun a ha => ?_⟩
  · rw [Opcode.pattern_iff, h]
    simp [hkinds, hmore, Piece.kind]
  · rw [List.filterMap_append, List.mem_append] at ha
    rcases ha with ha | ha
    · exact hadmitted a ha
    · rcases List.mem_cons.mp ha with rfl | ha
      · exact hzero
      · exact hrest a ha

theorem expectsNumber_of_instruction (h : b.Reads ss names) {label : Option VarId}
    (hread : instruction label ts b = .error (.parse (.invalidNumber t))) :
    ∃ m part after opcode u more, ts = m :: part ++ t :: after ∧ t.kind = .number ∧
      ¬ Text.Decimal.FitsWord (Text.Decimal.value t.text.toList) ∧ m.kind = .mnemonic opcode ∧
      u.kind = .number ∧ opcode.Pattern ((part ++ u :: more).map Token.kind) ∧
      (∃ s ∈ ss, s.isFunction = true) ∧
      ∀ a ∈ (part ++ u :: more).filterMap Token.argument?, a.Admitted ss := by
  unfold instruction at hread
  split at hread
  · cases hread
  · rename_i hcount
    split at hread
    · rename_i opcode hkind
      rcases bind_eq_error.mp hread with hoperands | ⟨_, _, happend⟩
      · obtain ⟨front, back, part, after, hform, htail, ht, hfits, hkinds, hpart⟩ :=
          exists_constant_of_operands h hoperands
        obtain ⟨u, more, hu, hpattern, hadmitted⟩ := exists_completion hform hkinds hpart
        have hts := eq_cons_of_current (by simp [hkind] : (current ts).kind ≠ .eof)
        rw [htail] at hts
        rw [functionCount_eq h] at hcount
        exact ⟨current ts, part, after, opcode, u, more, hts, ht, hfits, hkind, hu, hpattern,
          List.countP_pos_iff.mp (Nat.pos_of_ne_zero hcount), hadmitted⟩
      · rcases bind_eq_error.mp happend with hbuild | ⟨_, _, hdone⟩
        · obtain ⟨_, heq⟩ := mapError_eq_error hbuild
          cases heq
        · cases hdone
    · cases hread

theorem expectsNumber_of_memory (h : b.Reads ss [])
    (hread : memory ts b = .error (.parse (.invalidNumber t))) :
    ∃ name after, ts = name :: t :: after ∧ t.kind = .number ∧
      ¬ Text.Decimal.FitsWord (Text.Decimal.value t.text.toList) ∧ name.kind = .memoryName ∧
      name.text ∉ ss.filterMap Statement.declaredMemory? := by
  rcases bind_eq_error.mp hread with hexpect | ⟨⟨name, ts'⟩, hname, hvalue⟩
  · cases expect_eq_error hexpect
  obtain ⟨rfl, hkind⟩ := (expect_eq_ok_iff (by decide)).mp hname
  dsimp only at hvalue
  split at hvalue
  · cases hvalue
  · rename_i hfresh
    rcases bind_eq_error.mp hvalue with hexpect | ⟨⟨u, after⟩, htaken, hnumber⟩
    · cases expect_eq_error hexpect
    obtain ⟨rfl, hu⟩ := (expect_eq_ok_iff (by decide)).mp htaken
    rcases bind_eq_error.mp hnumber with hrefused | ⟨_, _, hdone⟩
    · obtain ⟨heq, hfits⟩ := number_eq_error hrefused
      cases heq
      exact ⟨name, after, rfl, hu, hfits, hkind,
        fun hmem => hfresh ((find?_memory_isSome h).mpr hmem)⟩
    · cases hdone

theorem register_ne_invalidNumber (ts : List Token) (b : Builder) (t : Token) :
    register ts b ≠ .error (.parse (.invalidNumber t)) := by
  intro hread
  rcases bind_eq_error.mp hread with hexpect | ⟨⟨name, ts'⟩, _, hdeclared⟩
  · cases expect_eq_error hexpect
  · dsimp only at hdeclared
    split at hdeclared <;> cases hdeclared

theorem function_ne_invalidNumber (ts : List Token) (b : Builder) (t : Token) :
    function ts b ≠ .error (.parse (.invalidNumber t)) := by
  intro hread
  rcases bind_eq_error.mp hread with hexpect | ⟨⟨name, ts'⟩, _, hlabel⟩
  · cases expect_eq_error hexpect
  rcases bind_eq_error.mp hlabel with hdefined | ⟨⟨v, b'⟩, _, hentry⟩
  · cases labelDefined_eq_error hdefined
  rcases bind_eq_error.mp hentry with hbuild | ⟨_, _, hdone⟩
  · obtain ⟨_, heq⟩ := mapError_eq_error hbuild
    cases heq
  · cases hdone

theorem expectsNumber_of_statement (h : b.Reads ss [])
    (hread : statement ts b = .error (.parse (.invalidNumber t))) :
    ∃ part after, ts = part ++ t :: after ∧ t.kind = .number ∧
      ¬ Text.Decimal.FitsWord (Text.Decimal.value t.text.toList) ∧
      Statement.ExpectsNumber ss part := by
  have hfirst := @eq_cons_of_current ts
  unfold statement at hread
  split at hread
  · rename_i hkind
    obtain ⟨name, after, htail, ht, hfits, hname, hfresh⟩ := expectsNumber_of_memory h hread
    have hzero : Text.Decimal.FitsWord (Text.Decimal.value "0".toList) := by decide
    exact ⟨[current ts, name], after, by simpa [htail] using hfirst (by simp [hkind]), ht, hfits,
      ⟨.number, "0", {}⟩, [], _, rfl, .memory hkind hname rfl, hfresh, hzero⟩
  · exact absurd hread (register_ne_invalidNumber _ _ _)
  · exact absurd hread (function_ne_invalidNumber _ _ _)
  · rename_i hkind
    rcases bind_eq_error.mp hread with hdefined | ⟨⟨v, b₁⟩, hlabel, hcolon⟩
    · cases labelDefined_eq_error hdefined
    rcases bind_eq_error.mp hcolon with hexpect | ⟨⟨colon, ts'⟩, htaken, hinstruction⟩
    · cases expect_eq_error hexpect
    obtain ⟨htail, hcolon⟩ := (expect_eq_ok_iff (by decide)).mp htaken
    obtain ⟨hreads, hfree, hname⟩ := reads_labelDefined h hlabel
    obtain ⟨m, part, after, opcode, u, more, rfl, ht, hfits, hm, hu, hpattern, hfunction,
      hadmitted⟩ := expectsNumber_of_instruction hreads hinstruction
    refine ⟨current ts :: colon :: m :: part, after,
      by simpa [htail] using hfirst (by simp [hkind]), ht, hfits, u, more, _, hu,
      .labeled hkind hcolon hm hpattern, hfunction, ?_, hadmitted⟩
    rintro name ⟨⟩
    exact hname ▸ ((checkFree_iff hreads).mp hfree).2
  · obtain ⟨m, part, after, opcode, u, more, rfl, ht, hfits, hm, hu, hpattern, hfunction,
      hadmitted⟩ := expectsNumber_of_instruction h hread
    exact ⟨m :: part, after, rfl, ht, hfits, u, more, _, hu, .plain hm hpattern, hfunction,
      by simp, hadmitted⟩

theorem expectsNumber_of_statements (h : b.Reads ss []) (hadmitted : AdmittedAll ss)
    (hread : statements ts b = .error (.parse (.invalidNumber t))) :
    ∃ before after u post ss', ts = before ++ t :: after ∧ t.kind = .number ∧
      ¬ Text.Decimal.FitsWord (Text.Decimal.value t.text.toList) ∧ u.kind = .number ∧
      SpellsAll (before ++ u :: post) ss' ∧ AdmittedAll (ss ++ ss') := by
  fun_induction statements ts b generalizing ss with
  | case1 ts b e hstatement =>
      cases hread
      obtain ⟨part, after, rfl, ht, hfits, u, more, s, hu, hspells, hs⟩ :=
        expectsNumber_of_statement h hstatement
      have hlast : SpellsAll ((part ++ u :: more) ++ [⟨.semicolon, ";", {}⟩, Token.eof {}]) [s] :=
        .last hspells rfl rfl
      rw [List.append_assoc, List.cons_append] at hlast
      exact ⟨part, after, u, _, [s], rfl, ht, hfits, hu, hlast, hadmitted.snoc hs⟩
  | case2 ts b rest b₁ _ e hended =>
      cases hread
      cases expect_eq_error hended
  | case3 => cases hread
  | case4 ts b rest b₁ hstatement semicolon rest' hended _ ih =>
      obtain ⟨used, s, rfl, hspells, hs, hreads⟩ := reads_statement h hstatement
      obtain ⟨rfl, hkind⟩ := (expect_eq_ok_iff (by decide)).mp hended
      obtain ⟨before, after, u, post, ss', rfl, ht, hfits, hu, hspells', hadmitted'⟩ :=
        ih hreads (hadmitted.snoc hs) hread
      have hmore : SpellsAll (used ++ semicolon :: (before ++ u :: post)) (s :: ss') :=
        .more hspells hkind hspells'
      refine ⟨used ++ semicolon :: before, after, u, post, s :: ss', by simp, ht, hfits, hu, ?_, ?_⟩
      · simpa using hmore
      · simpa using hadmitted'

/-- A number is refused exactly if it does not fit where a number may stand. -/
theorem program_eq_invalidNumber_iff :
    program ts = .error (.parse (.invalidNumber t)) ↔
      ∃ before after, ts = before ++ t :: after ∧ t.kind = .number ∧ ExpectsNumber before ∧
        ¬ Text.Decimal.FitsWord (Text.Decimal.value t.text.toList) := by
  rw [program_eq_scan]
  constructor
  · intro hread
    rcases bind_eq_error.mp hread with hstatements | ⟨b, _, hcheck⟩
    · obtain ⟨before, after, u, post, ss, rfl, ht, hfits, hu, hspells, hadmitted⟩ :=
        expectsNumber_of_statements Builder.reads_new admittedAll_nil hstatements
      exact ⟨before, after, rfl, ht, ⟨u, post, ss, hu, hspells, hadmitted⟩, hfits⟩
    · split at hcheck
      · cases hcheck
      · split at hcheck <;> cases hcheck
  · rintro ⟨before, after, rfl, ht, ⟨u, post, ss, hu, hspells, hadmitted⟩, hfits⟩
    exact bind_eq_error.mpr (Or.inl (statements_eq_invalidNumber ht hfits Builder.reads_new hu
      hspells hadmitted after))

end Parser

end RegAlloc
