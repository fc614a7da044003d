import Abacus.Decimal.Basic
import Abacus.Text.Blank

/-! # Decimals as text

The plain form of a decimal: a minus sign where the sign is negative, the whole part without leading
zeros, and exactly as many fractional digits as the scale says. -/

namespace Abacus.Decimal

/-- The last `width` decimal digits of a number, with zeros in front where it is shorter. -/
def lowDigits : (width : Nat) → Nat → Text
  | 0, _ => []
  | width + 1, n => lowDigits width (n / 10) ++ [(n % 10).digitChar]

@[simp] theorem length_lowDigits (width n : Nat) : (lowDigits width n).length = width := by
  induction width generalizing n with
  | zero => rfl
  | succ width ih => simp [lowDigits, ih]

def wholeDigits (d : Decimal) : Text := Nat.toDigits 10 (d.mantissa / pow10 d.scale)

def fractionDigits (d : Decimal) : Text := lowDigits d.scale d.mantissa

def display (d : Decimal) : Text :=
  (if d.negative then ['-'] else []) ++ d.wholeDigits
    ++ (if d.scale = 0 then [] else '.' :: d.fractionDigits)

end Abacus.Decimal
