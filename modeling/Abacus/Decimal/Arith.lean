import Abacus.Decimal.Rounding

/-! # Sum, difference and product

Each result is exact where the digits have room and rounded half to even where they have not;
`none` means out of range. A zero operand is set aside first, which decides the scale and the sign
of the result. -/

namespace Abacus.Decimal

/-- The sum. It has the larger of the two scales, and so has a sum that cancels out; next to a zero
the other operand stands unchanged. -/
def add? (a b : Decimal) : Option Decimal :=
  if a.isZero then some b
  else if b.isZero then some a
  else
    let scale := max a.scale b.scale
    let total := a.signedAt scale + b.signedAt scale
    fit? (total < 0) total.natAbs scale 0

/-- The difference; of two zeros it is the second one, sign and all. -/
def sub? (a b : Decimal) : Option Decimal :=
  if a.isZero && b.isZero then some b else add? a (-b)

def isShort (d : Decimal) : Bool := d.mantissa < wordSize

/-- A product of two short mantissas. It is in range, so that only the scale can be too large; where
that is more than 47 the product vanishes altogether. It is never a negative zero. -/
def ofShortProduct? (negative : Bool) (digits scale : Nat) : Option Decimal :=
  if scale ≤ maxScale then ofParts? negative digits scale
  else if 47 < scale then some 0
  else (ofParts? negative (roundHalfEven digits (pow10 (scale - maxScale))) maxScale).map unsignZero

/-- The product, whose sign is that of the factors' signs together. A product of longer mantissas that
vanishes keeps its sign, so that it may be a negative zero with all places, while a zero factor makes the
plain zero. -/
def mul? (a b : Decimal) : Option Decimal :=
  if a.isZero || b.isZero then some 0
  else
    let negative := a.negative != b.negative
    let digits := a.mantissa * b.mantissa
    let scale := a.scale + b.scale
    if a.isShort && b.isShort then ofShortProduct? negative digits scale
    else fit? negative digits (min scale maxScale) (scale - maxScale)

end Abacus.Decimal
