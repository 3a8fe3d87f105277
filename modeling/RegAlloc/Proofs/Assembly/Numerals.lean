import Mathlib.Data.Nat.Digits.Defs
import RegAlloc.Proofs.Assembly.Decoding

/-!
# What numerals denote

A numeral denotes the number that the places of its digits give, or the opposite of this number
after a minus sign. Reading a numeral gives the integer that it denotes, and the numeral that is
written for an integer is the canonical one.
-/

namespace RegAlloc.Text.Decimal

/-- The number with these digits, the ones in the last place. -/
def places (digits : List Char) : Nat :=
  Nat.ofDigits 10 (digits.reverse.map fun d => d.toNat - '0'.toNat)

/-- The integers that numerals denote, leading zeros and `-0` included. -/
inductive Denotes : List Char → Int → Prop where
  | unsigned {ds : List Char} : ds ≠ [] → (∀ d ∈ ds, d.isDigit = true) → Denotes ds (places ds)
  | negative {ds : List Char} : ds ≠ [] → (∀ d ∈ ds, d.isDigit = true) →
      Denotes ('-' :: ds) (-(places ds : Int))

/-- Numerals without leading zeros, and without a sign on zero. -/
inductive Canonical : List Char → Prop where
  | zero : Canonical ['0']
  | positive {d : Char} {ds : List Char} : d ≠ '0' → (∀ c ∈ d :: ds, c.isDigit = true) →
      Canonical (d :: ds)
  | negative {d : Char} {ds : List Char} : d ≠ '0' → (∀ c ∈ d :: ds, c.isDigit = true) →
      Canonical ('-' :: d :: ds)

/-! ## Reading -/

theorem places_concat (ds : List Char) (d : Char) :
    places (ds ++ [d]) = (d.toNat - '0'.toNat) + 10 * places ds := by
  rw [places, List.reverse_append, List.reverse_singleton, List.singleton_append, List.map_cons,
    Nat.ofDigits_cons, places]

theorem magnitude_eq_places (ds : List Char) : magnitude ds = places ds := by
  induction ds using List.reverseRecOn with
  | nil => rfl
  | append_singleton ds d ih =>
      rw [places_concat, ← ih, magnitude, List.foldl_append, Nat.add_comm]
      rfl

theorem value_of_digits {ds : List Char} (h : ∀ d ∈ ds, d.isDigit = true) :
    value ds = places ds := by
  unfold value
  split
  · -- a digit is no sign
    exact absurd (h '-' List.mem_cons_self) (by decide)
  · rw [magnitude_eq_places]

theorem value_negative (ds : List Char) : value ('-' :: ds) = -(places ds : Int) := by
  rw [value, magnitude_eq_places]

theorem Denotes.value_eq {text : List Char} {n : Int} (h : Denotes text n) : value text = n := by
  cases h with
  | unsigned _ hds => exact value_of_digits hds
  | negative _ _ => exact value_negative _

theorem denotes_iff {text : List Char} {n : Int} (h : Lexer.Lexeme .number text) :
    Denotes text n ↔ value text = n := by
  refine ⟨Denotes.value_eq, ?_⟩
  rintro rfl
  cases h with
  | number hne hds =>
      rw [value_of_digits hds]
      exact .unsigned hne hds
  | negative hne hds =>
      rw [value_negative]
      exact .negative hne hds

/-! ## Writing -/

theorem isDigit_of_mem_toDigits (n : Nat) : ∀ c ∈ Nat.toDigits 10 n, c.isDigit = true :=
  fun _ hc => Nat.isDigit_of_mem_toDigits (by decide) (by decide) hc

/-- The first digit of a positive number is no zero. -/
theorem head?_toDigits_ne {n : Nat} (hn : 0 < n) : (Nat.toDigits 10 n).head? ≠ some '0' := by
  induction n using Nat.strongRecOn with
  | _ n ih =>
      by_cases hlt : n < 10
      · have hdigit : ∀ d < 10, 0 < d → Nat.digitChar d ≠ '0' := by decide
        rw [Nat.toDigits_of_lt_base hlt, List.head?_cons]
        exact fun heq => hdigit n hlt hn (Option.some.inj heq)
      · have hle : 10 ≤ n := Nat.le_of_not_lt hlt
        rw [Nat.toDigits_of_base_le (by decide) hle,
          List.head?_append_of_ne_nil _ Nat.toDigits_ne_nil]
        exact ih (n / 10) (Nat.div_lt_self hn (by decide)) (Nat.div_pos hle (by decide))

theorem exists_toDigits {n : Nat} (hn : 0 < n) :
    ∃ d ds, Nat.toDigits 10 n = d :: ds ∧ d ≠ '0' := by
  cases hdigits : Nat.toDigits 10 n with
  | nil => exact absurd hdigits Nat.toDigits_ne_nil
  | cons d ds =>
      refine ⟨d, ds, rfl, ?_⟩
      rintro rfl
      exact head?_toDigits_ne hn (by rw [hdigits]; rfl)

theorem canonical_render (n : Int) : Canonical (render n) := by
  cases n with
  | ofNat n =>
      rcases Nat.eq_zero_or_pos n with rfl | hn
      · exact .zero
      · obtain ⟨d, ds, heq, hne⟩ := exists_toDigits hn
        rw [render, heq]
        exact .positive hne (heq ▸ isDigit_of_mem_toDigits n)
  | negSucc n =>
      obtain ⟨d, ds, heq, hne⟩ := exists_toDigits (Nat.succ_pos n)
      rw [render, heq]
      exact .negative hne (heq ▸ isDigit_of_mem_toDigits (n + 1))

theorem denotes_render (n : Int) : Denotes (render n) n := by
  have hlexeme : Lexer.Lexeme .number (render n) := by
    cases n with
    | ofNat n => exact .number Nat.toDigits_ne_nil (isDigit_of_mem_toDigits n)
    | negSucc n => exact .negative Nat.toDigits_ne_nil (isDigit_of_mem_toDigits (n + 1))
  exact (denotes_iff hlexeme).mpr (value_render n)

end RegAlloc.Text.Decimal
