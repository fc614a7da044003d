import Abacus.Proofs.Decimal.Quotient
import Abacus.Reckoning.Operation

/-! # Every operation is correctly rounded

One law for the four operations: the result is the exact one, rounded half to even at the greatest
scale that it fits, and an operation is out of range only when its exact result fits no scale. -/

namespace Abacus

namespace Decimal

variable {x : ℚ} {result : Option Decimal}

theorem exists_isGreatest (h : Fits x 0) : ∃ t, IsGreatest {t | t ≤ maxScale ∧ Fits x t} t := by
  classical
  refine ⟨Nat.findGreatest (Fits x) maxScale, ⟨Nat.findGreatest_le maxScale, ?_⟩, ?_⟩
  · exact Nat.findGreatest_spec (Nat.zero_le maxScale) h
  · rintro t ⟨ht, hfits⟩
    exact Nat.le_findGreatest ht hfits

theorem forall_not_fits_iff : (∀ t ≤ maxScale, ¬ Fits x t) ↔ 2 ^ 96 - 1 / 2 ≤ |x| := by
  have hzero : ¬ Fits x 0 ↔ 2 ^ 96 - 1 / 2 ≤ |x| := by
    rw [fits_iff, pow_zero, mul_one, not_lt]
    norm_num [limit]
  rw [← hzero]
  constructor
  · intro h
    exact h 0 (Nat.zero_le _)
  · intro h t _ hfits
    exact h (hfits.of_le (Nat.zero_le t))

theorem CorrectlyRounded.eq_none_iff (h : CorrectlyRounded x result) :
    result = none ↔ ∀ t ≤ maxScale, ¬ Fits x t := by
  refine ⟨fun hnone t _ hfits => ?_, h.eq_none⟩
  obtain ⟨s, hs⟩ := exists_isGreatest (hfits.of_le (Nat.zero_le t))
  obtain ⟨r, hr, -⟩ := h.eq_some hs
  rw [hnone] at hr
  cases hr

/-- A number that is the value of some decimal is not rounded. -/
theorem CorrectlyRounded.toRat_eq {d : Decimal} (h : CorrectlyRounded d.toRat result) :
    ∃ r, result = some r ∧ r.toRat = d.toRat := by
  obtain ⟨t, ht⟩ := exists_isGreatest ((fits_toRat d).of_le (Nat.zero_le _))
  obtain ⟨r, hr, hround⟩ := h.eq_some ht
  have hle : d.scale ≤ t := ht.2 ⟨d.scale_le, fits_toRat d⟩
  refine ⟨r, hr, ?_⟩
  rw [hround, toRat_mul_pow d hle, halfEven_intCast, ← toRat_mul_pow d hle,
    mul_div_cancel_right₀ _ (by positivity)]

end Decimal

namespace Operator

open Decimal

/-- The exact result of an operation. -/
def exact : Operator → ℚ → ℚ → ℚ
  | plus, x, y => x + y
  | minus, x, y => x - y
  | times, x, y => x * y
  | divide, x, y => x / y

variable {op : Operator} {a b : Decimal}

theorem correctlyRounded_result? (h : ¬ (op = divide ∧ b.isZero)) :
    CorrectlyRounded (op.exact a.toRat b.toRat) (op.result? a b) := by
  cases op with
  | plus => exact correctlyRounded_add? a b
  | minus => exact correctlyRounded_sub? a b
  | times => exact correctlyRounded_mul? a b
  | divide => exact correctlyRounded_div? a fun hb => h ⟨rfl, hb⟩

theorem apply_eq_ok_iff {r : Decimal} (h : ¬ (op = divide ∧ b.isZero)) :
    op.apply a b = .ok r ↔ op.result? a b = some r := by
  rw [apply, if_neg h]
  cases op.result? a b <;> simp

theorem apply_eq_outOfRange_iff (h : ¬ (op = divide ∧ b.isZero)) :
    op.apply a b = .error .outOfRange ↔ op.result? a b = none := by
  rw [apply, if_neg h]
  cases op.result? a b <;> simp

/-- The result of an operation is its exact result `x`, rounded half to even at the greatest scale
that `x` fits. It is out of range if there is no such scale, and a division by zero is a fault. -/
theorem apply_correctlyRounded (op : Operator) (a b : Decimal) :
    (op = divide ∧ b.isZero → op.apply a b = .error .divisionByZero)
    ∧ (¬ (op = divide ∧ b.isZero) → ∀ x, x = op.exact a.toRat b.toRat →
      (∀ t, IsGreatest {t | t ≤ maxScale ∧ halfEven (|x| * 10 ^ t) < 2 ^ 96} t →
        ∃ r, op.apply a b = .ok r ∧ r.toRat = halfEven (x * 10 ^ t) / 10 ^ t)
      ∧ (∀ d : Decimal, d.toRat = x → ∃ r, op.apply a b = .ok r ∧ r.toRat = x)
      ∧ ((∀ t ≤ maxScale, ¬ halfEven (|x| * 10 ^ t) < 2 ^ 96) → op.apply a b = .error .outOfRange)
      ∧ ((∀ t ≤ maxScale, ¬ halfEven (|x| * 10 ^ t) < 2 ^ 96) ↔ 2 ^ 96 - 1 / 2 ≤ |x|)) := by
  constructor
  · intro h
    rw [apply, if_pos h]
  · rintro h x rfl
    have hround := correctlyRounded_result? (a := a) h
    refine ⟨?_, ?_, ?_, forall_not_fits_iff⟩
    · intro t ht
      obtain ⟨r, hr, hvalue⟩ := hround.eq_some ht
      exact ⟨r, (apply_eq_ok_iff h).2 hr, hvalue⟩
    · intro d hd
      rw [← hd] at hround ⊢
      obtain ⟨r, hr, hvalue⟩ := hround.toRat_eq
      exact ⟨r, (apply_eq_ok_iff h).2 hr, hvalue⟩
    · intro hnone
      exact (apply_eq_outOfRange_iff h).2 (hround.eq_none hnone)

end Operator

/-! ### Two thirds -/

namespace TwoThirds

open Decimal

def two : Decimal := ⟨false, 2, 0, by decide, Nat.zero_le _⟩

def three : Decimal := ⟨false, 3, 0, by decide, Nat.zero_le _⟩

theorem two_thirds_rounded :
    ¬ (Operator.divide = .divide ∧ three.isZero)
      ∧ IsGreatest {t | t ≤ maxScale ∧ halfEven (|(2 / 3 : ℚ)| * 10 ^ t) < 2 ^ 96} 28
      ∧ ∃ r, Operator.divide.apply two three = .ok r
        ∧ r.toRat = 6666666666666666666666666667 / 10 ^ 28 := by
  have hx : (2 / 3 : ℚ) = Operator.divide.exact two.toRat three.toRat := by
    norm_num [Operator.exact, toRat, signed, two, three]
  have hthree : ¬ (Operator.divide = .divide ∧ three.isZero) := by decide
  have hround : halfEven (2 / 3 * 10 ^ 28) = 6666666666666666666666666667 :=
    halfEven_eq (by norm_num) (by norm_num) (by norm_num)
  have ht : IsGreatest {t | t ≤ maxScale ∧ halfEven (|(2 / 3 : ℚ)| * 10 ^ t) < 2 ^ 96} 28 := by
    refine ⟨⟨le_rfl, ?_⟩, fun t ht => ht.1⟩
    rw [abs_of_nonneg (by norm_num), hround]
    norm_num
  obtain ⟨r, hr, hvalue⟩ :=
    ((Operator.apply_correctlyRounded .divide two three).2 hthree _ hx).1 28 ht
  refine ⟨hthree, ht, r, hr, ?_⟩
  rw [hvalue, hround]
  norm_num

end TwoThirds

end Abacus
