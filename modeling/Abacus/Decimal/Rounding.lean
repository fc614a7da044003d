import Abacus.Decimal.Basic

/-! # Rounding

`roundHalfEven` rounds a ratio of whole numbers. `fit?` brings a mantissa of any size into range: it
gives up as few digits of the fraction as it can, and is `none` when the rounded value is out of
range even as a whole number. -/

namespace Abacus

/-- `n / d` as the nearest whole number; a half goes to the even neighbour. -/
def roundHalfEven (n d : Nat) : Nat :=
  if d < 2 * (n % d) ∨ (2 * (n % d) = d ∧ n / d % 2 = 1) then n / d + 1 else n / d

theorem roundHalfEven_mul_right (q : Nat) {d : Nat} (hd : 0 < d) : roundHalfEven (q * d) d = q := by
  simp [roundHalfEven, Nat.mul_div_cancel _ hd]
  omega

namespace Decimal

/-- What is left of a mantissa once `dropped` digits are given up, rounded half to even. A rounding
that reaches the limit gives up one digit more. -/
def roundOff? (negative : Bool) (digits scale dropped : Nat) : Option Decimal :=
  let rounded := roundHalfEven digits (pow10 dropped)
  if rounded < limit then ofParts? negative rounded scale
  else match scale with
    | 0 => none
    | scale + 1 => ofParts? negative (roundHalfEven rounded 10) scale

/-- A mantissa brought into range. `scale` digits of its fraction are left once `dropped` digits are
given up, and more of them are while the mantissa is too large. -/
def fit? (negative : Bool) (digits : Nat) : (scale dropped : Nat) → Option Decimal
  | 0, dropped =>
    if digits / pow10 dropped < limit then roundOff? negative digits 0 dropped else none
  | scale + 1, dropped =>
    if digits / pow10 dropped < limit then roundOff? negative digits (scale + 1) dropped
    else fit? negative digits scale (dropped + 1)

end Decimal

end Abacus
