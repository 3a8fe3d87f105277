import RegAlloc.Proofs.Assembly.Literals
import RegAlloc.Proofs.Session.Passes

/-!
# Literals in the output of a session

No pass changes the program of a session, so its document shows the literals of the source text,
whatever calls the session has seen. Only a literal that does not fit a word is refused.
-/

namespace RegAlloc.Session

open Text.Decimal (Denotes)

variable {text : String}

theorem ofSource_eq_invalidNumber_iff {config : Config} {t : Token} :
    ofSource text config = .error (.parse (.invalidNumber t)) ↔
      ∃ ts before after, tokenize text = .ok ts ∧ ts = before ++ t :: after ∧
        t.kind = .number ∧ ExpectsNumber before ∧
        ∃ n, Denotes t.text.toList n ∧ ¬ (-2 ^ 31 ≤ n ∧ n < 2 ^ 31) := by
  have hrange : ∀ {ts : List Token}, tokenize text = .ok ts → t ∈ ts → t.kind = .number →
      (¬ Text.Decimal.FitsWord (Text.Decimal.value t.text.toList) ↔
        ∃ n, Denotes t.text.toList n ∧ ¬ (-2 ^ 31 ≤ n ∧ n < 2 ^ 31)) := by
    intro ts htokens ht hkind
    have hlexeme := numeric_of_tokenize htokens t ht hkind
    simp only [Text.Decimal.denotes_iff hlexeme, exists_eq_left', fitsWord_iff]
  constructor
  · intro h
    rcases Parser.bind_eq_error.mp (Parser.map_eq_error.mp h) with hlex | ⟨ts, hmapped, hprogram⟩
    · obtain ⟨fault, heq⟩ := Parser.mapError_eq_error hlex
      cases heq
    · have htokens := Parser.mapError_eq_ok.mp hmapped
      obtain ⟨before, after, rfl, hkind, hexpects, hfits⟩ :=
        Parser.program_eq_invalidNumber_iff.mp hprogram
      exact ⟨_, before, after, htokens, rfl, hkind, hexpects,
        (hrange htokens (by simp) hkind).mp hfits⟩
  · rintro ⟨ts, before, after, htokens, rfl, hkind, hexpects, hout⟩
    have hprogram := Parser.program_eq_invalidNumber_iff.mpr
      ⟨before, after, rfl, hkind, hexpects, (hrange htokens (by simp) hkind).mpr hout⟩
    exact Parser.map_eq_error.mpr (Parser.bind_eq_error.mpr
      (Or.inr ⟨_, Parser.mapError_eq_ok.mpr htokens, hprogram⟩))

/-- A document has the canonical form of each literal of the source text in its place, and literals
of the code that denote the same integer are one constant of the program. A number where the grammar
expects one is invalid just if it does not fit a word of 32 bits. -/
theorem literals_survive (text : String) (config : Config) :
    (∀ s, ofSource text config = .ok s → ∃ ts, tokenize text = .ok ts ∧
      ∀ calls, let t := s.performAll calls
        t.state.Shows config.palette config.globl ts t.assembly ∧
          t.state.program.SharesConstants ts) ∧
    ∀ t, ofSource text config = .error (.parse (.invalidNumber t)) ↔
      ∃ ts before after, tokenize text = .ok ts ∧ ts = before ++ t :: after ∧
        t.kind = .number ∧ ExpectsNumber before ∧
        ∃ n, Denotes t.text.toList n ∧ ¬ (-2 ^ 31 ≤ n ∧ n < 2 ^ 31) := by
  refine ⟨?_, fun t => ofSource_eq_invalidNumber_iff⟩
  intro s hs
  obtain ⟨p, hparse, rfl⟩ := Parser.map_eq_ok.mp hs
  obtain ⟨ts, hmapped, hprogram⟩ := Parser.bind_eq_ok.mp hparse
  have htokens := Parser.mapError_eq_ok.mp hmapped
  obtain ⟨ss, hspells, _, hrenders⟩ :=
    Parser.renders_of_program (closed_of_tokenize htokens) hprogram
  have hnumeric := numeric_of_tokenize htokens
  refine ⟨ts, htokens, ?_⟩
  intro calls t
  have hsame : t.state.program.Renders ss := by
    rw [program_performAll]
    exact hrenders
  refine ⟨?_, hsame.sharesConstants hspells hnumeric⟩
  rw [assembly, config_performAll]
  exact Annotated.shows_assembly hsame hspells hnumeric _ _

/-- Literals with leading zeros and a sign on zero, two of them for the same integer. -/
def paddedText : String := "_mem m1 -07;_reg r1;_func f;li r1,042;lw r1,-0(r1);addi r1,r1,42;"

theorem padded_literals_survive :
    let t : Token := ⟨.number, "-2147483649", ⟨1, 9⟩⟩
    ofSource "_mem m1 -2147483649;" {} = .error (.parse (.invalidNumber t)) ∧
    ∃ s ts v, ofSource paddedText {} = .ok s ∧ tokenize paddedText = .ok ts ∧
      (s.performAll [.allocate]).state.Shows .standard false ts
        (".data\nm1:\t.word -7\n\n.text\nf:\n\tli $t0, 42\n\tlw $t0, 0($t0)\n" ++
          "\taddi $t0, $t0, 42\n\tjr $ra") ∧
      s.state.program.constantsOf 1 = [v] ∧ s.state.program.constantsOf 3 = [v] := by
  intro t
  refine ⟨?_, ?_⟩
  · -- `_mem m1 0;` has the same tokens before its number
    let front : List Token := [⟨.memoryDirective, "_mem", ⟨1, 1⟩⟩, ⟨.memoryName, "m1", ⟨1, 6⟩⟩]
    let rest : List Token := [⟨.semicolon, ";", ⟨1, 20⟩⟩, Token.eof ⟨1, 21⟩]
    have htokens : tokenize "_mem m1 -2147483649;" = .ok (front ++ t :: rest) := by decide +kernel
    have hexpects : ExpectsNumber front := by
      have hspells : SpellsAll (front ++ [⟨.number, "0", {}⟩] ++ rest) [.memory "m1" 0] :=
        .last (.memory rfl rfl rfl) rfl rfl
      exact ⟨_, _, _, rfl, hspells, admittedAll_nil.snoc ⟨by simp, by decide⟩⟩
    have hdenotes : Denotes ('-' :: "2147483649".toList) (-2147483649) :=
      .negative (by simp) (by simp)
    have htext : '-' :: "2147483649".toList = t.text.toList := by decide
    rw [htext] at hdenotes
    exact ((literals_survive _ {}).2 t).mpr
      ⟨_, _, _, htokens, rfl, rfl, hexpects, _, hdenotes, by decide⟩
  · let u : Token := ⟨.number, "042", ⟨1, 35⟩⟩
    let u' : Token := ⟨.number, "42", ⟨1, 63⟩⟩
    let document := ".data\nm1:\t.word -7\n\n.text\nf:\n\tli $t0, 42\n\tlw $t0, 0($t0)\n" ++
      "\taddi $t0, $t0, 42\n\tjr $ra"
    -- one evaluation, since cutting the text takes most of the time
    obtain ⟨ts, htokens, hpart, hpart', hparsed⟩ : ∃ ts, tokenize paddedText = .ok ts ∧
        (codeParts ts)[1]? = some [⟨.mnemonic .li, "li", ⟨1, 29⟩⟩,
          ⟨.registerName, "r1", ⟨1, 32⟩⟩, ⟨.comma, ",", ⟨1, 34⟩⟩, u] ∧
        (codeParts ts)[3]? = some [⟨.mnemonic .addi, "addi", ⟨1, 52⟩⟩,
          ⟨.registerName, "r1", ⟨1, 57⟩⟩, ⟨.comma, ",", ⟨1, 59⟩⟩, ⟨.registerName, "r1", ⟨1, 60⟩⟩,
          ⟨.comma, ",", ⟨1, 62⟩⟩, u'] ∧
        succeedsWith (fun p => decide (((ofAnnotated (.ofProgram p) {}).performAll
          [.allocate]).assembly = document)) (Parser.program ts) = true :=
      exists_ok_of_decide (by decide +kernel)
    obtain ⟨p, hprogram, hassembly⟩ := exists_ok_of_decide hparsed
    have hs : ofSource paddedText {} = .ok (ofAnnotated (.ofProgram p) {}) :=
      Parser.map_eq_ok.mpr ⟨p,
        Parser.bind_eq_ok.mpr ⟨ts, Parser.mapError_eq_ok.mpr htokens, hprogram⟩, rfl⟩
    obtain ⟨us, htokens', hsurvive⟩ := (literals_survive paddedText {}).1 _ hs
    obtain rfl := Except.ok.inj (htokens.symm.trans htokens')
    obtain ⟨hshows, hshares⟩ := hsurvive [.allocate]
    rw [hassembly] at hshows
    rw [program_performAll] at hshares
    obtain ⟨v, w, hv, hw, hsame⟩ :=
      hshares 1 3 _ _ u u' hpart hpart' (by simp) (by simp) rfl rfl
    have hdenotes : Denotes "042".toList 42 := .unsigned (by simp) (by simp)
    have hdenotes' : Denotes "42".toList 42 := .unsigned (by simp) (by simp)
    obtain rfl := hsame.mpr ⟨42, hdenotes, hdenotes'⟩
    exact ⟨_, ts, v, hs, htokens, hshows, hv, hw⟩

end RegAlloc.Session
