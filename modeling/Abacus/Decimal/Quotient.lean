import Abacus.Decimal.Rounding

/-! # Quotient

A quotient is found by long division, up to nine digits at a time, until the division comes out even
or there is no room for a further digit. A division that was not even from the start has zeros at
the end of its quotient dropped in blocks, so the scale of a quotient need not be the least one: a
half is `0.50`. -/

namespace Abacus

namespace Decimal

/-- The greatest number of digits developed at a time. -/
def blockLength : Nat := 9

/-- A long division under way: the digits of the quotient, what is left of the dividend, and the
number of digits behind the point. That is negative while digits before the point are missing. -/
structure LongDivision where
  quotient : Nat
  remainder : Nat
  scale : Int
deriving DecidableEq

namespace LongDivision

inductive Progress where
  | going (next : LongDivision)
  | done (mantissa scale : Nat)
  | outOfRange
deriving DecidableEq

def start (a b : Decimal) : LongDivision :=
  ⟨a.mantissa / b.mantissa, a.mantissa % b.mantissa, a.scale - b.scale⟩

/-- The largest number of digits up to a bound that a quotient has room for. -/
def room (quotient : Nat) : (most : Nat) → Nat
  | 0 => 0
  | most + 1 =>
    if quotient * pow10 (most + 1) < limit then most + 1 else room quotient most

theorem room_le (quotient most : Nat) : room quotient most ≤ most := by
  induction most with
  | zero => exact Nat.le_refl 0
  | succ most ih =>
    rw [room]
    split
    · exact Nat.le_refl _
    · exact Nat.le_succ_of_le ih

/-- Ends a division. Digits that are missing before the point have no room. -/
def stop (mantissa : Nat) (scale : Int) : Progress :=
  if scale < 0 then .outOfRange else .done mantissa scale.toNat

/-- The quotient, rounded half to even by the remainder. -/
def nearest (divisor : Nat) (d : LongDivision) : Nat :=
  if divisor < 2 * d.remainder ∨ 2 * d.remainder = divisor ∧ d.quotient % 2 = 1 then d.quotient + 1
  else d.quotient

/-- The quotient without its last digit, rounded half to even: a half is a five and no remainder. -/
def nearestTenth (d : LongDivision) : Nat :=
  let digit := d.quotient % 10
  let kept := d.quotient / 10
  if 5 < digit ∨ digit = 5 ∧ (d.remainder ≠ 0 ∨ kept % 2 = 1) then kept + 1 else kept

/-- Ends a division whose quotient has no room for a further digit. A quotient that is rounded up to
the limit, which ends in 6, gives up its last digit. -/
def roundLast (divisor : Nat) (d : LongDivision) : Progress :=
  let rounded := d.nearest divisor
  if rounded = limit then stop (rounded / 10 + 1) (d.scale - 1) else stop rounded d.scale

/-- Ends a division whose quotient has one digit too many. -/
def giveUpLast (d : LongDivision) : Progress := stop d.nearestTenth (d.scale - 1)

/-- Develops some more digits. -/
def develop (divisor count : Nat) (d : LongDivision) : Progress :=
  let shifted := d.quotient * pow10 count
  if limit ≤ shifted then .outOfRange
  else
    let next : LongDivision :=
      ⟨shifted + d.remainder * pow10 count / divisor, d.remainder * pow10 count % divisor,
        d.scale + count⟩
    if next.quotient < limit then .going next else giveUpLast next

/-- One step. An even division only has to fill up the digits before the point. -/
def step (divisor : Nat) (d : LongDivision) : Progress :=
  if d.remainder = 0 then
    if 0 ≤ d.scale then .done d.quotient d.scale.toNat
    else develop divisor (min blockLength (-d.scale).toNat) d
  else
    let count := room d.quotient (min blockLength (maxScale - d.scale).toNat)
    if count < blockLength ∧ count + d.scale < 0 then .outOfRange
    else if count = 0 then roundLast divisor d
    else develop divisor count d

theorem stop_ne_going (mantissa : Nat) (scale : Int) (next : LongDivision) :
    stop mantissa scale ≠ .going next := by
  unfold stop; split <;> simp

theorem roundLast_ne_going (divisor : Nat) (d next : LongDivision) :
    roundLast divisor d ≠ .going next := by
  dsimp only [roundLast]
  split <;> exact stop_ne_going _ _ _

theorem giveUpLast_ne_going (d next : LongDivision) : giveUpLast d ≠ .going next :=
  stop_ne_going _ _ _

theorem scale_of_develop_eq_going {divisor count : Nat} {d next : LongDivision}
    (h : develop divisor count d = .going next) : next.scale = d.scale + count := by
  dsimp only [develop] at h
  split at h
  · cases h
  · split at h
    · cases h; rfl
    · exact absurd h (giveUpLast_ne_going _ _)

/-- Every step develops a digit, up to the greatest scale. -/
theorem scale_of_step_eq_going {divisor : Nat} {d next : LongDivision}
    (h : step divisor d = .going next) : d.scale < next.scale ∧ next.scale ≤ maxScale := by
  dsimp only [step] at h
  split at h
  · split at h
    · cases h
    · rw [scale_of_develop_eq_going h]
      simp only [blockLength, maxScale]
      omega
  · have := room_le d.quotient (min blockLength (maxScale - d.scale).toNat)
    split at h
    · cases h
    · split at h
      · exact absurd h (roundLast_ne_going _ _ _)
      · rw [scale_of_develop_eq_going h]
        omega

/-- Carries a division through to its end: the mantissa and the scale of the quotient. -/
def run (divisor : Nat) (d : LongDivision) : Option (Nat × Nat) :=
  match _ : step divisor d with
  | .going next => run divisor next
  | .done mantissa scale => some (mantissa, scale)
  | .outOfRange => none
termination_by (maxScale - d.scale).toNat
decreasing_by
  have := scale_of_step_eq_going ‹_›
  omega

end LongDivision

/-- Drops eight final zeros of the fraction, but only where the low 32 bits of the mantissa are
zero as well. -/
def dropEightZeros (d : Decimal) : Decimal :=
  if d.mantissa % wordSize = 0 then d.dropZeros 8 else d

/-- Drops final zeros of the fraction in blocks of eight, then of four, two and one. No scale has
room for a fourth block of eight. -/
def dropZeroBlocks (d : Decimal) : Decimal :=
  (((Nat.repeat dropEightZeros 3 d).dropZeros 4).dropZeros 2).dropZeros 1

/-- The quotient by a divisor that is not zero. It keeps its zeros if the mantissas divide evenly,
and it is never a negative zero. -/
def div? (a b : Decimal) : Option Decimal :=
  if a.isZero then some 0
  else do
    let (mantissa, scale) ← LongDivision.run b.mantissa (.start a b)
    let quotient ← ofParts? (a.negative != b.negative) mantissa scale
    return (if a.mantissa % b.mantissa = 0 then quotient else quotient.dropZeroBlocks).unsignZero

end Decimal

end Abacus
