import RegAlloc.Proofs.Program.Faults

/-!
# Tokens out of place

A list of kinds is viable if some text of the grammar begins with it. `Awaited` says what may come
next after a viable list, and the reader keeps to it: the tokens before one that it refuses as out
of place are viable, and with this token they no longer are.
-/

namespace RegAlloc

/-- Some text of the grammar begins with tokens of these kinds. -/
def Viable (kinds : List Kind) : Prop :=
  ∃ ts ss, SpellsAll ts ss ∧ kinds <+: ts.map Token.kind

theorem Closed.of_append {front rest : List Token} (h : Closed (front ++ rest))
    (hfront : ∀ t ∈ front, t.kind ≠ .eof) : Closed rest := by
  induction front with
  | nil => exact h
  | cons t front ih =>
      obtain ⟨ht, hfront⟩ := List.forall_mem_cons.mp hfront
      exact ih (h.regular_of_ne ht).2 hfront

/-! ## What may come next -/

/-- What is awaited after a part of a text. -/
inductive Awaited where
  /-- a statement or, unless it is the first one, the end of the text -/
  | statement (first : Bool)
  /-- the colon after a label -/
  | colon
  /-- the instruction after a label -/
  | instruction
  /-- tokens of these kinds, and a semicolon -/
  | rest (kinds : List Kind)
  | nothing
deriving DecidableEq, Repr

namespace Awaited

/-- What is awaited after a token of the given kind, if such a token may come. -/
def next : Awaited → Kind → Option Awaited
  | statement _, .memoryDirective => some (rest [.memoryName, .number])
  | statement _, .registerDirective => some (rest [.registerName])
  | statement _, .functionDirective => some (rest [.name])
  | statement _, .name => some colon
  | statement _, .mnemonic opcode => some (rest (opcode.form.map Piece.kind))
  | statement false, .eof => some nothing
  | colon, .colon => some instruction
  | instruction, .mnemonic opcode => some (rest (opcode.form.map Piece.kind))
  | rest [], .semicolon => some (statement false)
  | rest (kind :: kinds), found => if found = kind then some (rest kinds) else none
  | _, _ => none

/-- What is awaited after tokens of the given kinds, if they may come. -/
def run (a : Awaited) (kinds : List Kind) : Option Awaited := kinds.foldlM next a

theorem run_nil (a : Awaited) : a.run [] = some a := rfl

theorem run_cons (a : Awaited) (kind : Kind) (kinds : List Kind) :
    a.run (kind :: kinds) = (a.next kind).bind fun a' => a'.run kinds := rfl

theorem run_append (a : Awaited) (kinds kinds' : List Kind) :
    a.run (kinds ++ kinds') = (a.run kinds).bind fun a' => a'.run kinds' :=
  List.foldlM_append

theorem next_rest_cons (kind : Kind) (kinds : List Kind) (found : Kind) :
    (rest (kind :: kinds)).next found = if found = kind then some (rest kinds) else none := by
  cases kinds <;> rfl

/-! ### Sentences run to the end -/

theorem run_rest (kinds : List Kind) : (rest kinds).run kinds = some (rest []) := by
  induction kinds with
  | nil => rfl
  | cons kind kinds ih => rw [run_cons, next_rest_cons, if_pos rfl, Option.bind_some, ih]

theorem run_of_spells {ts : List Token} {s : Statement} (h : Spells ts s) (first : Bool) :
    (statement first).run (ts.map Token.kind) = some (rest []) := by
  cases h with
  | memory hd hname ht => simp [hd, hname, ht, run_cons, next, run_nil]
  | register hd hname => simp [hd, hname, run_cons, next, run_nil]
  | function hd hname => simp [hd, hname, run_cons, next, run_nil]
  | plain hm hpattern =>
      rw [List.map_cons, hm, Opcode.pattern_iff.mp hpattern, run_cons]
      exact run_rest _
  | labeled hl hcolon hm hpattern =>
      rw [List.map_cons, List.map_cons, List.map_cons, hl, hcolon, hm,
        Opcode.pattern_iff.mp hpattern, run_cons]
      exact run_rest _

theorem run_of_spellsAll {ts : List Token} {ss : List Statement} (h : SpellsAll ts ss)
    (first : Bool) : (statement first).run (ts.map Token.kind) = some nothing := by
  induction h generalizing first with
  | last hspells hkind heof =>
      rw [List.map_append, run_append, run_of_spells hspells]
      simp [hkind, heof, run_cons, next, run_nil]
  | more hspells hkind _ ih =>
      rw [List.map_append, run_append, run_of_spells hspells, Option.bind_some, List.map_cons,
        hkind, run_cons]
      exact ih false

/-! ### What runs to the end is a sentence -/

/-- The kinds of the tokens of a statement. -/
def Phrase (kinds : List Kind) : Prop := ∃ ts s, Spells ts s ∧ ts.map Token.kind = kinds

/-- The kinds of the tokens of a text. -/
def Sentence (kinds : List Kind) : Prop := ∃ ts ss, SpellsAll ts ss ∧ ts.map Token.kind = kinds

/-- A token of a kind, with any text. -/
def sample (kind : Kind) : Token := ⟨kind, "", {}⟩

theorem map_kind_sample (kinds : List Kind) : (kinds.map sample).map Token.kind = kinds := by
  rw [List.map_map]
  exact List.map_id kinds

theorem phrase_of_spells {kinds : List Kind} {s : Statement} (h : Spells (kinds.map sample) s) :
    Phrase kinds :=
  ⟨_, s, h, map_kind_sample kinds⟩

theorem phrase_plain (opcode : Opcode) :
    Phrase (.mnemonic opcode :: opcode.form.map Piece.kind) :=
  phrase_of_spells (.plain rfl (Opcode.pattern_iff.mpr (map_kind_sample _)))

theorem phrase_labeled (opcode : Opcode) :
    Phrase (.name :: .colon :: .mnemonic opcode :: opcode.form.map Piece.kind) :=
  phrase_of_spells (.labeled rfl rfl rfl (Opcode.pattern_iff.mpr (map_kind_sample _)))

/-- The first token of a statement decides what the statement is, or that it has a label. -/
theorem next_statement_cases {first : Bool} {kind : Kind} {a : Awaited}
    (h : (statement first).next kind = some a) :
    (∃ kinds, a = rest kinds ∧ Phrase (kind :: kinds)) ∨ (kind = .name ∧ a = colon) ∨
      (kind = .eof ∧ first = false ∧ a = nothing) := by
  cases kind with
  | memoryDirective =>
      cases h
      exact Or.inl ⟨_, rfl, phrase_of_spells (.memory rfl rfl rfl)⟩
  | registerDirective =>
      cases h
      exact Or.inl ⟨_, rfl, phrase_of_spells (.register rfl rfl)⟩
  | functionDirective =>
      cases h
      exact Or.inl ⟨_, rfl, phrase_of_spells (.function rfl rfl)⟩
  | mnemonic opcode =>
      cases h
      exact Or.inl ⟨_, rfl, phrase_plain opcode⟩
  | name =>
      cases h
      exact Or.inr (Or.inl ⟨rfl, rfl⟩)
  | eof =>
      cases first with
      | true => cases h
      | false =>
          cases h
          exact Or.inr (Or.inr ⟨rfl, rfl, rfl⟩)
  | _ => cases h

theorem Phrase.last {kinds : List Kind} (h : Phrase kinds) :
    Sentence (kinds ++ [.semicolon, .eof]) := by
  obtain ⟨ts, s, hspells, rfl⟩ := h
  exact ⟨ts ++ [sample .semicolon, sample .eof], [s], .last hspells rfl rfl, List.map_append⟩

theorem Phrase.more {kinds kinds' : List Kind} (h : Phrase kinds) (h' : Sentence kinds') :
    Sentence (kinds ++ .semicolon :: kinds') := by
  obtain ⟨ts, s, hspells, rfl⟩ := h
  obtain ⟨ts', ss, hspells', rfl⟩ := h'
  exact ⟨ts ++ sample .semicolon :: ts', s :: ss, .more hspells rfl hspells', List.map_append⟩

/-- A run from the middle of a statement goes on to its semicolon. -/
theorem exists_semicolon {awaited kinds : List Kind} (h : (rest awaited).run kinds = some nothing) :
    ∃ kinds', kinds = awaited ++ .semicolon :: kinds' ∧
      (statement false).run kinds' = some nothing := by
  induction awaited generalizing kinds with
  | nil =>
      cases kinds with
      | nil => cases h
      | cons kind kinds =>
          obtain ⟨a, hnext, h⟩ := Option.bind_eq_some_iff.mp h
          cases kind with
          | semicolon =>
              cases hnext
              exact ⟨kinds, rfl, h⟩
          | _ => cases hnext
  | cons kind awaited ih =>
      cases kinds with
      | nil => cases h
      | cons found kinds =>
          rw [run_cons, next_rest_cons] at h
          split at h
          · rename_i heq
            obtain ⟨kinds', rfl, hrun⟩ := ih h
            exact ⟨kinds', by rw [heq]; rfl, hrun⟩
          · cases h

theorem exists_mnemonic {kinds : List Kind} (h : colon.run kinds = some nothing) :
    ∃ opcode kinds', kinds = .colon :: .mnemonic opcode :: kinds' ∧
      (rest (opcode.form.map Piece.kind)).run kinds' = some nothing := by
  match kinds, h with
  | .colon :: .mnemonic opcode :: kinds, h => exact ⟨opcode, kinds, rfl, h⟩

/-- A run to the end of the text begins with a statement, unless it is there already. -/
theorem exists_phrase {first : Bool} {kinds : List Kind}
    (h : (statement first).run kinds = some nothing) :
    (first = false ∧ kinds = [.eof]) ∨
      ∃ phrase kinds', Phrase phrase ∧ kinds = phrase ++ .semicolon :: kinds' ∧
        (statement false).run kinds' = some nothing := by
  cases kinds with
  | nil => cases h
  | cons kind kinds =>
      obtain ⟨a, hnext, h⟩ := Option.bind_eq_some_iff.mp h
      rcases next_statement_cases hnext with ⟨awaited, rfl, hphrase⟩ | ⟨rfl, rfl⟩ | ⟨rfl, rfl, rfl⟩
      · obtain ⟨kinds', rfl, hrun⟩ := exists_semicolon h
        exact Or.inr ⟨kind :: awaited, kinds', hphrase, rfl, hrun⟩
      · obtain ⟨opcode, kinds', rfl, h⟩ := exists_mnemonic h
        obtain ⟨kinds', rfl, hrun⟩ := exists_semicolon h
        exact Or.inr ⟨_, kinds', phrase_labeled opcode, rfl, hrun⟩
      · cases kinds with
        | nil => exact Or.inl ⟨rfl, rfl⟩
        | cons kind kinds => cases h

theorem sentence_of_run {first : Bool} {kinds : List Kind}
    (h : (statement first).run kinds = some nothing) :
    (first = false ∧ kinds = [.eof]) ∨ Sentence kinds := by
  induction hlength : kinds.length using Nat.strongRecOn generalizing first kinds with
  | _ n ih =>
      refine (exists_phrase h).imp_right ?_
      rintro ⟨phrase, kinds', hphrase, rfl, hrun⟩
      have hshorter : kinds'.length < n := by
        rw [← hlength, List.length_append, List.length_cons]
        omega
      rcases ih _ hshorter hrun rfl with ⟨_, rfl⟩ | hsentence
      · exact hphrase.last
      · exact hphrase.more hsentence

/-- Whatever is awaited may come. -/
theorem exists_run_eq_nothing (a : Awaited) : ∃ kinds, a.run kinds = some nothing := by
  have hrest : ∀ kinds, (rest kinds).run (kinds ++ [.semicolon, .eof]) = some nothing := by
    intro kinds
    rw [run_append, run_rest]
    rfl
  cases a with
  | statement first => exact ⟨.mnemonic .nop :: [.semicolon, .eof], hrest []⟩
  | colon => exact ⟨.colon :: .mnemonic .nop :: [.semicolon, .eof], hrest []⟩
  | instruction => exact ⟨.mnemonic .nop :: [.semicolon, .eof], hrest []⟩
  | rest kinds => exact ⟨_, hrest kinds⟩
  | nothing => exact ⟨[], rfl⟩

end Awaited

/-- Viable lists are those that the rules for the next token let pass. -/
theorem viable_iff {kinds : List Kind} :
    Viable kinds ↔ ∃ a, (Awaited.statement true).run kinds = some a := by
  constructor
  · rintro ⟨ts, ss, hspells, more, heq⟩
    have hrun := Awaited.run_of_spellsAll hspells true
    rw [← heq, Awaited.run_append] at hrun
    obtain ⟨a, ha, _⟩ := Option.bind_eq_some_iff.mp hrun
    exact ⟨a, ha⟩
  · rintro ⟨a, ha⟩
    obtain ⟨more, hmore⟩ := a.exists_run_eq_nothing
    have hrun : (Awaited.statement true).run (kinds ++ more) = some .nothing := by
      rw [Awaited.run_append, ha]
      exact hmore
    rcases Awaited.sentence_of_run hrun with ⟨hfalse, _⟩ | ⟨ts, ss, hspells, heq⟩
    · cases hfalse
    · exact ⟨ts, ss, hspells, more, heq.symm⟩

/-! ## The reader -/

namespace Parser

variable {a a' : Awaited} {b : Builder} {ts : List Token} {α β : Type}

/-- If the computation refuses a token of `ts` as out of place, then the tokens before it may come
after `a`, and this one may not come next. -/
def Keeps (a : Awaited) (ts : List Token) (x : Except SourceError α) : Prop :=
  ∀ expected t, x = .error (.parse (.unexpectedToken expected t)) → ∃ front rest a',
    ts = front ++ t :: rest ∧ a.run (front.map Token.kind) = some a' ∧ a'.next t.kind = none

/-- The computation refuses no token as out of place. -/
def Tolerant (x : Except SourceError α) : Prop :=
  ∀ expected t, x ≠ .error (.parse (.unexpectedToken expected t))

theorem Tolerant.keeps {x : Except SourceError α} (h : Tolerant x) : Keeps a ts x :=
  fun expected t heq => absurd heq (h expected t)

theorem tolerant_ok (v : α) : Tolerant (.ok v) := by
  intro expected t h
  cases h

theorem tolerant_mapError (x : Except BuildError α) : Tolerant (x.mapError .build) := by
  intro expected t h
  obtain ⟨fault, heq⟩ := mapError_eq_error h
  cases heq

theorem Keeps.bind {x : Except SourceError α} {f : α → Except SourceError β} (hx : Keeps a ts x)
    (hf : ∀ v, x = .ok v → Keeps a ts (f v)) : Keeps a ts (x >>= f) := by
  cases x with
  | error e =>
      intro expected t h
      cases h
      exact hx expected t rfl
  | ok v => exact hf v rfl

/-- What comes after awaited tokens goes on from what is awaited after them. -/
theorem Keeps.append {x : Except SourceError α} {used : List Token} (h : Keeps a' ts x)
    (hrun : a.run (used.map Token.kind) = some a') : Keeps a (used ++ ts) x := by
  intro expected t heq
  obtain ⟨front, rest, last, rfl, hfront, hlast⟩ := h expected t heq
  refine ⟨used ++ front, rest, last, (List.append_assoc _ _ _).symm, ?_, hlast⟩
  rw [List.map_append, Awaited.run_append, hrun]
  exact hfront

theorem Keeps.cons {x : Except SourceError α} {t : Token} (h : Keeps a' ts x)
    (hnext : a.next t.kind = some a') : Keeps a (t :: ts) x := by
  refine @Keeps.append a a' ts α x [t] h ?_
  rw [List.map_singleton, Awaited.run_cons, hnext]
  rfl

theorem keeps_unexpected {expected : String} (hne : ts ≠ [])
    (hnext : a.next (current ts).kind = none) :
    Keeps a ts (.error (.parse (.unexpectedToken expected (current ts))) : Except _ α) := by
  cases ts with
  | nil => exact absurd rfl hne
  | cons t ts =>
      intro expected found h
      cases h
      exact ⟨[], ts, a, rfl, rfl, hnext⟩

/-- A token that is awaited is taken. -/
theorem Keeps.take {x : Except SourceError α} (hclosed : Closed ts)
    (hne : (current ts).kind ≠ .eof) (hnext : a.next (current ts).kind = some a')
    (h : Closed ts.tail → Keeps a' ts.tail x) : Keeps a ts x := by
  have hts := eq_cons_of_current hne
  rw [hts] at hclosed
  have hcons := (h (hclosed.regular_of_ne hne).2).cons hnext
  rwa [← hts] at hcons

/-- Of a single kind that is awaited a token is taken, and any other token is refused. -/
theorem Keeps.expect {kind : Kind} {f : Token × List Token → Except SourceError β}
    (hclosed : Closed ts) (hkind : kind ≠ .eof)
    (hnext : ∀ found, a.next found = if found = kind then some a' else none)
    (hf : ∀ t rest, Closed rest → Keeps a' rest (f (t, rest))) :
    Keeps a ts (Parser.expect kind ts >>= f) := by
  by_cases h : (current ts).kind = kind
  · have hread : Parser.expect kind ts = .ok (current ts, ts.tail) := if_pos h
    rw [hread]
    exact Keeps.take hclosed (h ▸ hkind) (by rw [hnext, if_pos h]) (hf (current ts) ts.tail)
  · have hread : Parser.expect kind ts =
        .error (.parse (.unexpectedToken kind.describe (current ts))) := if_neg h
    rw [hread]
    exact keeps_unexpected hclosed.ne_nil (by rw [hnext, if_neg h])

/-! ### Names and numbers -/

theorem tolerant_number (t : Token) : Tolerant (number t) := by
  intro expected found h
  cases (number_eq_error h).1

theorem tolerant_labelDefined (t : Token) (b : Builder) : Tolerant (labelDefined t b) := by
  intro expected found h
  cases labelDefined_eq_error h

theorem tolerant_operand (piece : Piece) (t : Token) (b : Builder) :
    Tolerant (operand piece t b) := by
  intro expected found h
  rcases operand_eq_error h with heq | ⟨_, heq, _⟩
  · cases heq
  · cases heq

/-! ### Statements -/

theorem keeps_operands (pieces : List Piece) (hclosed : Closed ts) (b : Builder) :
    Keeps (.rest (pieces.map Piece.kind)) ts (operands pieces ts b) := by
  induction pieces generalizing ts b with
  | nil => exact (tolerant_ok _).keeps
  | cons piece pieces ih =>
      refine Keeps.expect hclosed (piece_kind_ne_eof piece) (Awaited.next_rest_cons _ _)
        fun t rest hrest => ?_
      refine (tolerant_operand piece t b).keeps.bind fun (id, b') _ => ?_
      exact (ih hrest b').bind fun _ _ => (tolerant_ok _).keeps

theorem keeps_instruction {label : Option VarId} (hclosed : Closed ts)
    (hmnemonic : ∀ opcode, a.next (.mnemonic opcode) = some (.rest (opcode.form.map Piece.kind)))
    (hother : (∀ opcode, (current ts).kind ≠ .mnemonic opcode) →
      a.next (current ts).kind = none) (b : Builder) :
    Keeps a ts (instruction label ts b) := by
  unfold instruction
  split
  · intro expected t h
    cases h
  · split
    · rename_i opcode hkind
      refine Keeps.take hclosed (by simp [hkind]) (by rw [hkind, hmnemonic]) fun hrest => ?_
      refine (keeps_operands opcode.form hrest b).bind fun (ids, ts', b') _ => ?_
      exact (tolerant_mapError _).keeps.bind fun _ _ => (tolerant_ok _).keeps
    · rename_i hkind
      exact keeps_unexpected hclosed.ne_nil (hother hkind)

theorem keeps_memory (hclosed : Closed ts) (b : Builder) :
    Keeps (.rest [.memoryName, .number]) ts (memory ts b) := by
  refine Keeps.expect hclosed (by decide) (Awaited.next_rest_cons _ _) fun name rest hrest => ?_
  dsimp only
  split
  · intro expected t h
    cases h
  · refine Keeps.expect hrest (by decide) (Awaited.next_rest_cons _ _) fun t rest' _ => ?_
    exact (tolerant_number t).keeps.bind fun _ _ => (tolerant_ok _).keeps

theorem keeps_register (hclosed : Closed ts) (b : Builder) :
    Keeps (.rest [.registerName]) ts (register ts b) := by
  refine Keeps.expect hclosed (by decide) (Awaited.next_rest_cons _ _) fun name rest hrest => ?_
  dsimp only
  split
  · intro expected t h
    cases h
  · exact (tolerant_ok _).keeps

theorem keeps_function (hclosed : Closed ts) (b : Builder) :
    Keeps (.rest [.name]) ts (function ts b) := by
  refine Keeps.expect hclosed (by decide) (Awaited.next_rest_cons _ _) fun name rest hrest => ?_
  refine (tolerant_labelDefined name b).keeps.bind fun (label, b') _ => ?_
  exact (tolerant_mapError _).keeps.bind fun _ _ => (tolerant_ok _).keeps

theorem keeps_labeled (name : Token) (hclosed : Closed ts) (b : Builder) :
    Keeps .colon ts (labeled name ts b) := by
  refine (tolerant_labelDefined name b).keeps.bind fun (label, b') _ => ?_
  refine Keeps.expect hclosed (by decide) (fun found => by cases found <;> rfl)
    fun t rest hrest => ?_
  refine keeps_instruction hrest (fun _ => rfl) (fun hother => ?_) b'
  cases hkind : (current rest).kind with
  | mnemonic opcode => exact absurd hkind (hother opcode)
  | _ => rfl

theorem keeps_statement {first : Bool} (hclosed : Closed ts)
    (hfirst : first = false → (current ts).kind ≠ .eof) (b : Builder) :
    Keeps (.statement first) ts (statement ts b) := by
  unfold statement
  split
  · rename_i hkind
    exact Keeps.take hclosed (by simp [hkind]) (by rw [hkind]; rfl) fun h => keeps_memory h b
  · rename_i hkind
    exact Keeps.take hclosed (by simp [hkind]) (by rw [hkind]; rfl) fun h => keeps_register h b
  · rename_i hkind
    exact Keeps.take hclosed (by simp [hkind]) (by rw [hkind]; rfl) fun h => keeps_function h b
  · rename_i hkind
    exact Keeps.take hclosed (by simp [hkind]) (by rw [hkind]; rfl) fun h => keeps_labeled _ h b
  · rename_i hmemory hregister hfunction hname
    refine keeps_instruction hclosed (fun _ => rfl) (fun hother => ?_) b
    cases hkind : (current ts).kind with
    | memoryDirective => exact absurd hkind hmemory
    | registerDirective => exact absurd hkind hregister
    | functionDirective => exact absurd hkind hfunction
    | name => exact absurd hkind hname
    | mnemonic opcode => exact absurd hkind (hother opcode)
    | eof =>
        cases first with
        | true => rfl
        | false => exact absurd hkind (hfirst rfl)
    | _ => rfl

theorem keeps_statements {ss : List Statement} (h : b.Reads ss []) {first : Bool}
    (hclosed : Closed ts) (hfirst : first = false → (current ts).kind ≠ .eof) :
    Keeps (.statement first) ts (statements ts b) := by
  fun_induction statements ts b generalizing ss first with
  | case1 ts b e hread =>
      intro expected t heq
      cases heq
      exact keeps_statement hclosed hfirst b expected t hread
  | case2 ts b rest b' hread e hended =>
      obtain ⟨used, s, rfl, hspells, _, _⟩ := reads_statement h hread
      refine Keeps.append ?_ (Awaited.run_of_spells hspells first)
      have hexpect : Keeps (.rest []) rest (expect .semicolon rest >>= fun _ => .ok b') :=
        Keeps.expect (hclosed.of_append fun t ht => (hspells.kind_ne t ht).2) (by decide)
          (fun found => by cases found <;> rfl) fun _ _ _ => (tolerant_ok _).keeps
      rw [hended] at hexpect
      exact hexpect
  | case3 => exact (tolerant_ok _).keeps
  | case4 ts b rest b' hread semicolon rest' hended heof ih =>
      obtain ⟨used, s, rfl, hspells, _, hreads⟩ := reads_statement h hread
      obtain ⟨rfl, hkind⟩ := (expect_eq_ok_iff (by decide)).mp hended
      have htail := hclosed.of_append fun t ht => (hspells.kind_ne t ht).2
      have hrest := (htail.regular_of_ne (by simp [hkind])).2
      have hkeeps : Keeps (.statement false) rest' (statements rest' b') :=
        ih hreads hrest fun _ => heof
      exact (hkeeps.cons (by rw [hkind]; rfl)).append (Awaited.run_of_spells hspells first)

theorem keeps_program (hclosed : Closed ts) : Keeps (.statement true) ts (program ts) := by
  rw [program_eq_scan]
  refine (keeps_statements Builder.reads_new hclosed (by simp)).bind fun b _ => ?_
  refine Tolerant.keeps fun expected t h => ?_
  split at h
  · cases h
  · split at h <;> cases h

end Parser

/-- A token that is refused as out of place is the first one that no text of the grammar has after
the tokens before it. -/
theorem Program.unexpected_is_first_impossible {text expected : String} {ts : List Token}
    {t : Token} (htokens : tokenize text = .ok ts)
    (h : Program.parse text = .error (.parse (.unexpectedToken expected t))) :
    ∃ i, ts[i]? = some t ∧ Viable ((ts.take i).map Token.kind) ∧
      ¬ Viable ((ts.take (i + 1)).map Token.kind) := by
  have hprogram : Parser.program ts = .error (.parse (.unexpectedToken expected t)) := by
    rwa [Program.parse, htokens] at h
  obtain ⟨front, rest, a, rfl, hrun, hnext⟩ :=
    Parser.keeps_program (closed_of_tokenize htokens) expected t hprogram
  refine ⟨front.length, by simp, ?_, ?_⟩
  · rw [List.take_left]
    exact viable_iff.mpr ⟨a, hrun⟩
  · rw [viable_iff, List.take_length_add_append, List.take_succ_cons, List.take_zero,
      List.map_append, Awaited.run_append, hrun]
    simp [Awaited.run_cons, hnext]

/-- In the second statement of the body a comma is missing. -/
theorem missing_comma_is_first_impossible :
    let text := "_reg r1; _func main; nop;\nx: add r1 r1;"
    let t : Token := ⟨.registerName, "r1", ⟨2, 11⟩⟩
    ∃ ts, tokenize text = .ok ts ∧
      Program.parse text = .error (.parse (.unexpectedToken "','" t)) ∧
      ∃ i, ts[i]? = some t ∧ Viable ((ts.take i).map Token.kind) ∧
        ¬ Viable ((ts.take (i + 1)).map Token.kind) := by
  intro text t
  have hparse : Program.parse text = .error (.parse (.unexpectedToken "','" t)) := by
    decide +kernel
  obtain ⟨ts, htokens, _⟩ : ∃ ts, tokenize text = .ok ts ∧ ts[12]? = some t :=
    exists_ok_of_decide (by decide +kernel)
  exact ⟨ts, htokens, hparse, Program.unexpected_is_first_impossible htokens hparse⟩

end RegAlloc
