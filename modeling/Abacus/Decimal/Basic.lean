/-! # Decimals

A decimal is a sign, a mantissa of at most 96 bits and a scale of at most 28: it stands for the
mantissa divided by ten to the scale. Equal values can be written at several scales, and zero has
both signs, so `=` is finer than `sameValue`. -/

namespace Abacus

def pow10 (n : Nat) : Nat := Nat.pow 10 n

@[simp] theorem pow10_zero : pow10 0 = 1 := rfl

theorem pow10_succ (n : Nat) : pow10 (n + 1) = pow10 n * 10 := rfl

theorem pow10_pos (n : Nat) : 0 < pow10 n := Nat.pow_pos (by decide)

namespace Decimal

/-- Every mantissa is below this, the 96th power of two. -/
def limit : Nat := 79228162514264337593543950336

/-- The number of values of 32 bits. -/
def wordSize : Nat := 4294967296

/-- The greatest number of fractional digits. -/
def maxScale : Nat := 28

end Decimal

/-- A signed decimal with `scale` fractional digits. -/
structure Decimal where
  negative : Bool
  mantissa : Nat
  scale : Nat
  mantissa_lt : mantissa < Decimal.limit
  scale_le : scale ≤ Decimal.maxScale
deriving DecidableEq

namespace Decimal

theorem limit_pos : 0 < limit := by decide

instance : Zero Decimal := ⟨⟨false, 0, 0, limit_pos, Nat.zero_le _⟩⟩

instance : Inhabited Decimal := ⟨0⟩

/-- The decimal with these parts, if they are in range. -/
def ofParts? (negative : Bool) (mantissa scale : Nat) : Option Decimal :=
  if h : mantissa < limit ∧ scale ≤ maxScale then some ⟨negative, mantissa, scale, h.1, h.2⟩
  else none

theorem ofParts?_eq_some_iff {negative : Bool} {mantissa scale : Nat} {d : Decimal} :
    ofParts? negative mantissa scale = some d
      ↔ d.negative = negative ∧ d.mantissa = mantissa ∧ d.scale = scale := by
  unfold ofParts?
  split
  · rw [Option.some.injEq]
    exact ⟨fun h => h ▸ ⟨rfl, rfl, rfl⟩, fun ⟨hn, hm, hs⟩ => by cases d; simp_all⟩
  · rename_i h
    exact ⟨fun h => (Option.some_ne_none _ h.symm).elim,
      fun ⟨_, hm, hs⟩ => (h ⟨hm ▸ d.mantissa_lt, hs ▸ d.scale_le⟩).elim⟩

theorem ofParts?_eq_none_iff {negative : Bool} {mantissa scale : Nat} :
    ofParts? negative mantissa scale = none ↔ limit ≤ mantissa ∨ maxScale < scale := by
  unfold ofParts?
  split <;> simp <;> omega

/-- Flips the sign, also of zero. -/
protected def neg (d : Decimal) : Decimal := { d with negative := !d.negative }

instance : Neg Decimal := ⟨Decimal.neg⟩

@[simp] theorem negative_neg (d : Decimal) : (-d).negative = !d.negative := rfl

@[simp] theorem mantissa_neg (d : Decimal) : (-d).mantissa = d.mantissa := rfl

@[simp] theorem scale_neg (d : Decimal) : (-d).scale = d.scale := rfl

protected theorem neg_neg (d : Decimal) : - -d = d := by
  rcases d with ⟨_ | _, _, _, _, _⟩ <;> rfl

def isZero (d : Decimal) : Bool := d.mantissa = 0

/-- A zero loses its sign. -/
def unsignZero (d : Decimal) : Decimal := { d with negative := d.negative && !d.isZero }

/-- The mantissa with the sign. -/
def signed (d : Decimal) : Int := if d.negative then -d.mantissa else d.mantissa

/-- The signed mantissa at a scale that is at least the decimal's own. -/
def signedAt (d : Decimal) (scale : Nat) : Int := d.signed * pow10 (scale - d.scale)

/-- Equality of numbers: neither the scale nor the sign of a zero matters. -/
def sameValue (a b : Decimal) : Bool := a.signed * pow10 b.scale = b.signed * pow10 a.scale

/-- Drops `n` final zeros of the fraction, if it has that many. -/
def dropZeros (n : Nat) (d : Decimal) : Decimal :=
  if n ≤ d.scale ∧ d.mantissa % pow10 n = 0 then
    ⟨d.negative, d.mantissa / pow10 n, d.scale - n,
      Nat.lt_of_le_of_lt (Nat.div_le_self ..) d.mantissa_lt,
      Nat.le_trans (Nat.sub_le ..) d.scale_le⟩
  else d

/-- The shortest way to write a value: no zeros at the end of the fraction, and no sign on zero. -/
def normalize (d : Decimal) : Decimal :=
  if d.isZero then 0 else Nat.repeat (dropZeros 1) d.scale d

end Decimal

end Abacus
