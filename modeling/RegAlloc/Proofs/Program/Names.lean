import RegAlloc.Proofs.Program.Linked

/-!
# Names in parsed programs

The names that a text declares or uses are words, and so are the names of the variables in the
program that it stands for.
-/

namespace RegAlloc

theorem IsWord.not_mem {s : String} (h : IsWord s) {c : Char}
    (hc : Lexer.continuesWord c = false) : c ∉ s.toList := by
  intro hmem
  rw [h c hmem] at hc
  cases hc

def Argument.Plain : Argument → Prop
  | register name | memory name | label name => IsWord name
  | number _ => True

/-- All names in a statement are words. -/
structure Statement.Plain (s : Statement) : Prop where
  memory : ∀ name, s.declaredMemory? = some name → IsWord name
  label : ∀ name, s.definedLabel? = some name → IsWord name
  arguments : ∀ a ∈ s.arguments, a.Plain

theorem Token.Regular.plain {t : Token} (h : t.Regular) {a : Argument}
    (ha : t.argument? = some a) : a.Plain := by
  have hword := h.isWord
  unfold Token.argument? at ha
  split at ha
  case h_5 => cases ha
  case h_3 =>
    cases ha
    trivial
  all_goals
    rename_i hkind
    cases ha
    exact hword (by rw [hkind]; rfl)

theorem plain_filterMap {ts : List Token} (h : ∀ t ∈ ts, t.Regular) :
    ∀ a ∈ ts.filterMap Token.argument?, a.Plain := by
  intro a ha
  obtain ⟨t, ht, hta⟩ := List.mem_filterMap.mp ha
  exact (h t ht).plain hta

theorem Token.Regular.isWord_of_name {t : Token} (h : t.Regular) (hkind : t.kind = .name) :
    IsWord t.text :=
  h.isWord (by rw [hkind]; rfl)

theorem Spells.named {ts : List Token} {s : Statement} (h : Spells ts s)
    (hts : ∀ t ∈ ts, t.Regular) : s.Plain := by
  cases h with
  | @memory d name t _ hname _ =>
      refine ⟨?_, by simp [Statement.definedLabel?], by simp [Statement.arguments]⟩
      rintro _ ⟨⟩
      exact (hts name (by simp)).isWord (by rw [hname]; rfl)
  | register => exact ⟨by simp [Statement.declaredMemory?], by simp [Statement.definedLabel?],
      by simp [Statement.arguments]⟩
  | @function d name _ hname =>
      refine ⟨by simp [Statement.declaredMemory?], ?_, by simp [Statement.arguments]⟩
      rintro _ ⟨⟩
      exact (hts name (by simp)).isWord_of_name hname
  | @plain m ts opcode _ _ =>
      refine ⟨by simp [Statement.declaredMemory?], by simp [Statement.definedLabel?], ?_⟩
      exact plain_filterMap fun t ht => hts t (List.mem_cons_of_mem m ht)
  | @labeled label colon m ts opcode hlabel _ _ _ =>
      refine ⟨by simp [Statement.declaredMemory?], ?_, plain_filterMap fun t ht => hts t (by simp [ht])⟩
      rintro _ ⟨⟩
      exact (hts label (by simp)).isWord_of_name hlabel

theorem SpellsAll.named {ts : List Token} {ss : List Statement} (h : SpellsAll ts ss)
    (hclosed : Closed ts) : ∀ s ∈ ss, s.Plain := by
  induction h with
  | last hspells _ _ =>
      obtain ⟨hfront, _⟩ := hclosed.regular_of_append (by simp)
      intro s hs
      obtain rfl := List.mem_singleton.mp hs
      exact hspells.named hfront
  | more hspells hkind _ ih =>
      obtain ⟨hfront, hrest⟩ := hclosed.regular_of_append (by simp)
      obtain ⟨_, hrest⟩ := hrest.regular_of_ne (by simp [hkind])
      intro s hs
      rcases List.mem_cons.mp hs with rfl | hs
      · exact hspells.named hfront
      · exact ih hrest s hs

namespace Program

/-- The names that appear in the text of the program are words, and each label has its own. A
constant has no name. -/
structure Named (p : Program) : Prop where
  memory : ∀ v ∈ p.memory, IsWord (p.var v).name
  label : ∀ x ∈ p.instrs, ∀ v, x.label = some v → IsWord (p.var v).name
  operand : ∀ x ∈ p.instrs, ∀ v ∈ x.operands, (p.var v).kind ≠ .constant → IsWord (p.var v).name
  labels_inj : ∀ v w, (p.var v).kind = .label → (p.var w).kind = .label →
    (p.var v).name = (p.var w).name → v = w

theorem Renders.named {p : Program} {ss : List Statement} (h : p.Renders ss)
    (hplain : ∀ s ∈ ss, s.Plain) : p.Named where
  memory v hv := by
    have hmem : .memory (p.var v).name (p.var v).value ∈
        ss.filter fun s => s.declaredMemory?.isSome := by
      rw [← h.memory]
      exact List.mem_map.mpr ⟨v, hv, rfl⟩
    exact (hplain _ (List.mem_of_mem_filter hmem)).memory _ rfl
  label x hx v hv := by
    have hdefined := Builder.definedLabel?_statementOf (h.fits hx)
    rw [hv] at hdefined
    exact (hplain _ (h.statementOf_mem hx)).label _ hdefined
  operand x hx v hv hkind := by
    have harguments := (hplain _ (h.statementOf_mem hx)).arguments (p.argumentOf v)
    unfold statementOf at harguments
    cases hop : x.opcode with
    | none =>
        rw [(h.entry x hx hop).2] at hv
        cases hv
    | some op =>
        rw [hop] at harguments
        have hplain' := harguments (List.mem_map_of_mem hv)
        unfold argumentOf at hplain'
        split at hplain' <;> first | contradiction | exact hplain'
  labels_inj := h.labels_inj

theorem named_of_parse {text : String} {p : Program} (h : Program.parse text = .ok p) :
    p.Named := by
  obtain ⟨ts, htokens, hread⟩ := Parser.bind_eq_ok.mp h
  have hclosed := closed_of_tokenize (Parser.mapError_eq_ok.mp htokens)
  obtain ⟨ss, hspells, _, hrenders⟩ := Parser.renders_of_program hclosed hread
  exact hrenders.named (hspells.named hclosed)

end Program

end RegAlloc
