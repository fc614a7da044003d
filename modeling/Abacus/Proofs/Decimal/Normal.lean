import Abacus.Decimal.Basic

/-! # Shortest decimals

A decimal is shortest when no zero can be dropped from the end of its fraction. `normalize` makes a
decimal shortest (`isShortest_normalize`), and there is nothing left for it to do then
(`normalize_normalize`). -/

namespace Abacus

theorem repeat_eq_self {α : Type} {f : α → α} {a : α} (h : f a = a) (n : Nat) :
    Nat.repeat f n a = a := by
  induction n with
  | zero => rfl
  | succ n ih =>
    show f (Nat.repeat f n a) = a
    rw [ih, h]

namespace Decimal
variable {d : Decimal}

/-- The fraction has no zero at its end. -/
def IsShortest (d : Decimal) : Prop := d.dropZeros 1 = d

theorem isShortest_of_scale_eq_zero (h : d.scale = 0) : d.IsShortest := by
  rw [IsShortest, dropZeros, if_neg (by omega)]

theorem dropZeros_one_cases (d : Decimal) : d.IsShortest ∨ (d.dropZeros 1).scale + 1 = d.scale := by
  by_cases h : 1 ≤ d.scale ∧ d.mantissa % pow10 1 = 0
  · right
    rw [dropZeros, if_pos h]
    show d.scale - 1 + 1 = d.scale
    omega
  · left
    rw [IsShortest, dropZeros, if_neg h]

theorem isZero_dropZeros (n : Nat) (d : Decimal) : (d.dropZeros n).isZero = d.isZero := by
  by_cases h : n ≤ d.scale ∧ d.mantissa % pow10 n = 0
  · have hdiv := Nat.div_add_mod d.mantissa (pow10 n)
    rw [dropZeros, if_pos h, isZero, isZero, decide_eq_decide]
    constructor
    · intro hzero
      have hzero : d.mantissa / pow10 n = 0 := hzero
      rw [hzero, h.2] at hdiv
      exact hdiv.symm
    · intro hzero
      show d.mantissa / pow10 n = 0
      rw [hzero, Nat.zero_div]
  · rw [dropZeros, if_neg h]

/-- Each drop shortens the fraction, until the decimal is shortest. -/
theorem repeat_dropZeros_cases (n : Nat) (d : Decimal) :
    (Nat.repeat (dropZeros 1) n d).IsShortest ∨
      (Nat.repeat (dropZeros 1) n d).scale + n = d.scale := by
  induction n with
  | zero => exact .inr rfl
  | succ n ih =>
    show (dropZeros 1 (Nat.repeat (dropZeros 1) n d)).IsShortest ∨
      (dropZeros 1 (Nat.repeat (dropZeros 1) n d)).scale + (n + 1) = d.scale
    generalize Nat.repeat (dropZeros 1) n d = r at ih ⊢
    by_cases hr : r.IsShortest
    · left
      have hdrop : r.dropZeros 1 = r := hr
      rw [hdrop]
      exact hr
    · right
      have hscale := ih.resolve_left hr
      have hdrop := r.dropZeros_one_cases.resolve_left hr
      omega

theorem isZero_repeat_dropZeros (n : Nat) (d : Decimal) :
    (Nat.repeat (dropZeros 1) n d).isZero = d.isZero := by
  induction n with
  | zero => rfl
  | succ n ih =>
    show (dropZeros 1 (Nat.repeat (dropZeros 1) n d)).isZero = d.isZero
    rw [isZero_dropZeros, ih]

theorem normalize_of_isZero (h : d.isZero = true) : d.normalize = 0 := by rw [normalize, if_pos h]

theorem normalize_of_not_isZero (h : ¬ d.isZero = true) :
    d.normalize = Nat.repeat (dropZeros 1) d.scale d := by rw [normalize, if_neg h]

theorem isShortest_normalize (d : Decimal) : d.normalize.IsShortest := by
  by_cases hzero : d.isZero = true
  · rw [normalize_of_isZero hzero]
    exact isShortest_of_scale_eq_zero rfl
  · rw [normalize_of_not_isZero hzero]
    rcases repeat_dropZeros_cases d.scale d with h | h
    · exact h
    · exact isShortest_of_scale_eq_zero (by omega)

theorem normalize_normalize (d : Decimal) : d.normalize.normalize = d.normalize := by
  by_cases hzero : d.isZero = true
  · rw [normalize_of_isZero hzero]
    rfl
  · have hnormal : ¬ d.normalize.isZero = true := by
      rwa [normalize_of_not_isZero hzero, isZero_repeat_dropZeros]
    rw [normalize_of_not_isZero hnormal]
    exact repeat_eq_self d.isShortest_normalize _

end Decimal

end Abacus
