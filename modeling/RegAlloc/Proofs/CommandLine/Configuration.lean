import Mathlib.Data.List.Forall2
import Mathlib.Data.List.TakeWhile
import RegAlloc.CommandLine.Options
import RegAlloc.Proofs.Palette.Registers

/-!
# The configuration of a run

`Options.Sets` says what the session configuration of a run has from its options: the names of the
registers, the bound on the sweeps, and what the flags turn on. The options have such a
configuration exactly if the names make a palette.
-/

namespace RegAlloc

namespace Text

variable {front back text trimmed : List Char}

/-- A text without the blank characters at both ends. -/
def IsTrimmed (text trimmed : List Char) : Prop :=
  ∃ front back, text = front ++ trimmed ++ back ∧ (∀ c ∈ front, isBlank c = true) ∧
    (∀ c ∈ back, isBlank c = true) ∧ (∀ c, trimmed.head? = some c → isBlank c = false) ∧
    ∀ c, trimmed.getLast? = some c → isBlank c = false

theorem dropWhile_blank_append (hfront : ∀ c ∈ front, isBlank c = true)
    (hhead : ∀ c, text.head? = some c → isBlank c = false) :
    (front ++ text).dropWhile isBlank = text := by
  rw [List.dropWhile_append_of_pos hfront]
  cases text with
  | nil => rfl
  | cons c cs => simp [hhead c rfl]

theorem isBlank_of_head?_dropWhile {c : Char} (h : (text.dropWhile isBlank).head? = some c) :
    isBlank c = false := by
  have hnot := List.head?_dropWhile_not isBlank text
  rw [h] at hnot
  exact hnot

theorem isTrimmed_trimBlank (text : List Char) : IsTrimmed text (trimBlank text) := by
  let rest := text.dropWhile isBlank
  have hrest : rest = trimBlank text ++ (rest.reverse.takeWhile isBlank).reverse := by
    rw [trimBlank, ← List.reverse_append, List.takeWhile_append_dropWhile, List.reverse_reverse]
  refine ⟨text.takeWhile isBlank, (rest.reverse.takeWhile isBlank).reverse, ?_, ?_, ?_, ?_, ?_⟩
  · rw [List.append_assoc, ← hrest, List.takeWhile_append_dropWhile]
  · exact List.all_eq_true.mp List.all_takeWhile
  · intro c hc
    exact List.all_eq_true.mp List.all_takeWhile c (List.mem_reverse.mp hc)
  · intro c hc
    have hhead : rest.head? = some c := by
      rw [hrest, List.head?_append, hc]
      rfl
    exact isBlank_of_head?_dropWhile hhead
  · intro c hc
    rw [trimBlank, List.getLast?_reverse] at hc
    exact isBlank_of_head?_dropWhile hc

/-- Every text is trimmed in one way. -/
theorem isTrimmed_iff : IsTrimmed text trimmed ↔ trimmed = trimBlank text := by
  constructor
  · rintro ⟨front, back, rfl, hfront, hback, hhead, hlast⟩
    cases trimmed with
    | nil =>
        have hall : (front ++ [] ++ back).dropWhile isBlank = [] := by
          rw [List.dropWhile_eq_nil_iff]
          intro c hc
          rw [List.append_nil] at hc
          exact (List.mem_append.mp hc).elim (hfront c) (hback c)
        rw [trimBlank, hall]
        rfl
    | cons c cs =>
        have hleft : (front ++ (c :: cs) ++ back).dropWhile isBlank = (c :: cs) ++ back := by
          rw [List.append_assoc]
          exact dropWhile_blank_append hfront fun d hd => hhead d hd
        have hright : (back.reverse ++ (c :: cs).reverse).dropWhile isBlank = (c :: cs).reverse := by
          refine dropWhile_blank_append (fun d hd => hback d (List.mem_reverse.mp hd)) fun d hd => ?_
          rw [List.head?_reverse] at hd
          exact hlast d hd
        rw [trimBlank, hleft, List.reverse_append, hright, List.reverse_reverse]
  · rintro rfl
    exact isTrimmed_trimBlank text

end Text

namespace CommandLine

variable {o : Options} {config : Config} {p : Palette}

/-- The names of the registers of a run. Names that are given are trimmed. Without names there are as
many temporaries as registers are asked for, or four. -/
structure Options.Names (o : Options) (registers : List String) : Prop where
  named : ∀ names, o.registerNames = some names →
    List.Forall₂ (fun name register => Text.IsTrimmed name.toList register.toList) names registers
  counted : ∀ k, o.registerNames = none → o.registers = some k →
    registers = (List.range k).map fun i => "t" ++ toString i
  unnamed : o.registerNames = none → o.registers = none → registers = ["t0", "t1", "t2", "t3"]

/-- What a configuration has from the options. -/
structure Options.Sets (o : Options) (config : Config) : Prop where
  names : o.Names config.palette.names
  maxSweeps_eq : config.maxSweeps = o.maxSweeps
  strict_eq : config.strict = o.strict
  rule_eq : config.rule = if o.allLive then .allLive else .defLiveOut
  globl_eq : config.globl = o.globl

theorem forall₂_isTrimmed_iff {names registers : List String} :
    List.Forall₂ (fun name register => Text.IsTrimmed name.toList register.toList) names registers ↔
      registers = names.map fun name => String.ofList (Text.trimBlank name.toList) := by
  have htrim : ∀ name register : String, Text.IsTrimmed name.toList register.toList ↔
      String.ofList (Text.trimBlank name.toList) = register := by
    intro name register
    rw [Text.isTrimmed_iff, ← String.toList_inj, String.toList_ofList, eq_comm]
  simp only [htrim]
  rw [← List.forall₂_map_left_iff, List.forall₂_eq_eq_eq, eq_comm]

theorem ofSize_eq_ok_iff_names_eq {k : Nat} :
    Palette.ofSize k = .ok p ↔ p.names = (List.range k).map fun i => "t" ++ toString i := by
  rw [Palette.ofSize_eq_ok_iff, and_iff_right_iff_imp]
  intro hnames
  have hlength := p.valid.length_le
  rwa [hnames, List.length_map, List.length_range] at hlength

theorem eq_standard_iff : Palette.standard = p ↔ p.names = ["t0", "t1", "t2", "t3"] := by
  constructor
  · rintro rfl
    rfl
  · intro h
    cases p
    subst h
    rfl

theorem Options.palette_eq_ok_iff : o.palette = .ok p ↔ o.Names p.names := by
  unfold palette
  cases hnames : o.registerNames with
  | some names =>
      dsimp only
      rw [Palette.ofNames_eq_ok_iff, ← forall₂_isTrimmed_iff]
      refine ⟨fun h => ⟨?_, ?_, ?_⟩, fun h => h.named names hnames⟩
      · simpa [hnames] using h
      · simp [hnames]
      · simp [hnames]
  | none =>
      cases hcount : o.registers with
      | some k =>
          dsimp only
          rw [ofSize_eq_ok_iff_names_eq]
          refine ⟨fun h => ⟨?_, ?_, ?_⟩, fun h => h.counted k hnames hcount⟩
          · simp [hnames]
          · simpa [hnames, hcount] using h
          · simp [hcount]
      | none =>
          dsimp only
          rw [Except.ok.injEq, eq_standard_iff]
          refine ⟨fun h => ⟨?_, ?_, ?_⟩, fun h => h.unnamed hnames hcount⟩
          · simp [hnames]
          · simp [hcount]
          · exact fun _ _ => h

/-- The options have the configuration that is set by them, if their names make a palette. -/
theorem Options.config_eq_ok_iff : o.config = .ok config ↔ o.Sets config := by
  constructor
  · intro h
    unfold Options.config at h
    cases hpalette : o.palette with
    | error e =>
        rw [hpalette] at h
        cases h
    | ok palette =>
        rw [hpalette] at h
        cases h
        exact ⟨palette_eq_ok_iff.mp hpalette, rfl, rfl, rfl, rfl⟩
  · rintro ⟨hnames, hsweeps, hstrict, hrule, hglobl⟩
    obtain ⟨palette, maxSweeps, strict, rule, globl⟩ := config
    dsimp only at hnames hsweeps hstrict hrule hglobl
    subst hsweeps hstrict hrule hglobl
    rw [Options.config, palette_eq_ok_iff.mpr hnames]
    rfl

end CommandLine

end RegAlloc
