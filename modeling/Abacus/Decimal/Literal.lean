import Abacus.Decimal.Basic
import Abacus.Text.Blank

/-! # Reading a decimal literal

The fixed written form of a decimal: an optional sign, digits, at most one point, and underscores
after the first digit. Nothing is rounded: digits beyond the range of the mantissa and anything
after the 28th fractional digit are refused. The first character that cannot be taken decides the
fault. -/

namespace Abacus

namespace Decimal

/-- Why a text is not an exact decimal literal. -/
inductive LiteralFault where
  | empty
  | tooManyDigits
  | tooPrecise
  | secondPoint
  | leadingUnderscore
  | unknownCharacter
  | noDigits
deriving DecidableEq, Inhabited

def LiteralFault.message : LiteralFault → String
  | .empty => "Invalid decimal: empty"
  | .tooManyDigits => "Invalid decimal: overflow from too many digits"
  | .tooPrecise => "Number has a high precision that can not be represented."
  | .secondPoint => "Invalid decimal: two decimal points"
  | .leadingUnderscore => "Invalid decimal: must start lead with a number"
  | .unknownCharacter => "Invalid decimal: unknown character"
  | .noDigits => "Invalid decimal: no digits found"

/-- What has been read of an unsigned literal: its value so far, whether the point has been passed,
and whether there was a digit. -/
structure Reading where
  mantissa : Nat := 0
  scale : Nat := 0
  pointed : Bool := false
  started : Bool := false
  mantissa_lt : mantissa < limit := by decide
  scale_le : scale ≤ maxScale := by decide

namespace Reading

/-- Takes one more digit. The scale counts the digits after the point. -/
def takeDigit (r : Reading) (digit : Nat) (room : r.scale < maxScale) :
    Except LiteralFault Reading :=
  if h : r.mantissa * 10 + digit < limit then
    .ok { r with
      mantissa := r.mantissa * 10 + digit
      scale := r.scale + r.pointed.toNat
      started := true
      mantissa_lt := h
      scale_le := by have := r.pointed.toNat_le; omega }
  else .error (if r.pointed then .tooPrecise else .tooManyDigits)

/-- Takes one more character. After the last fractional digit there is room for nothing. -/
def step (r : Reading) (c : Char) : Except LiteralFault Reading :=
  if room : r.scale < maxScale then
    if c.isDigit then r.takeDigit (c.toNat - '0'.toNat) room
    else if c = '.' then
      if r.pointed then .error .secondPoint else .ok { r with pointed := true }
    else if c = '_' then
      if r.started then .ok r else .error .leadingUnderscore
    else .error .unknownCharacter
  else .error .tooPrecise

/-- The decimal that has been read; a zero has no sign. -/
def finish (r : Reading) (negative : Bool) : Except LiteralFault Decimal :=
  if r.started then
    .ok ⟨negative && r.mantissa != 0, r.mantissa, r.scale, r.mantissa_lt, r.scale_le⟩
  else .error .noDigits

end Reading

/-- The decimal with this unsigned literal, under a sign. -/
def ofUnsignedLiteral (negative : Bool) (t : Text) : Except LiteralFault Decimal := do
  let r ← t.foldlM Reading.step {}
  r.finish negative

/-- The decimal that a literal stands for. -/
def ofLiteral : Text → Except LiteralFault Decimal
  | [] => .error .empty
  | '-' :: t => ofUnsignedLiteral true t
  | '+' :: t => ofUnsignedLiteral false t
  | t => ofUnsignedLiteral false t

end Decimal

end Abacus
