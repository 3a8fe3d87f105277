/-!
# Decimal numerals

A numeral is an optional minus sign and a run of digits. `Decimal.value` reads one, leading zeros
and `-0` included; `Decimal.render` writes the canonical one.
-/

namespace RegAlloc.Text.Decimal

/-- The number that a run of digits denotes. -/
def magnitude (digits : List Char) : Nat :=
  digits.foldl (fun n c => 10 * n + (c.toNat - '0'.toNat)) 0

/-- The integer that a numeral denotes. -/
def value : List Char → Int
  | '-' :: digits => -(magnitude digits : Int)
  | digits => (magnitude digits : Int)

/-- The numeral of an integer without leading zeros, and without a sign on zero. -/
def render : Int → List Char
  | .ofNat n => Nat.toDigits 10 n
  | .negSucc n => '-' :: Nat.toDigits 10 (n + 1)

/-- The numeral of an integer as a string. -/
def text (n : Int) : String := String.ofList (render n)

/-- Numbers that fit a 32-bit word in two's complement: from `-2^31` to `2^31 - 1`. -/
def FitsWord (n : Int) : Prop := -2147483648 ≤ n ∧ n ≤ 2147483647

instance (n : Int) : Decidable (FitsWord n) := inferInstanceAs (Decidable (_ ∧ _))

example : value "-007".toList = -7 ∧ value "-0".toList = 0 ∧ value "0042".toList = 42 := by decide

end RegAlloc.Text.Decimal
