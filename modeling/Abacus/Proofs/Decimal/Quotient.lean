import Abacus.Decimal.Quotient
import Abacus.Proofs.Decimal.Arith

/-! # The quotient is correctly rounded

A long division keeps `Invariant`: the magnitude, at the scale reached, is the quotient in range and
the remainder over the divisor. Each way of ending it then is `Sound`: a mantissa and a scale are the
finest ones, and out of range is a magnitude that does not even fit as a whole number. -/

namespace Abacus.Decimal

namespace LongDivision

variable {y : ℚ} {divisor count : ℕ} {d : LongDivision}

/-- The digits so far and the remainder make up the magnitude. -/
structure Divides (y : ℚ) (divisor : ℕ) (d : LongDivision) : Prop where
  eq : y * 10 ^ d.scale = d.quotient + d.remainder / divisor
  lt : d.remainder < divisor

structure Invariant (y : ℚ) (divisor : ℕ) (d : LongDivision) : Prop extends Divides y divisor d where
  quotient_lt : d.quotient < limit
  scale_le : d.scale ≤ maxScale

/-- What a step has found out about the magnitude. -/
def Progress.Sound (y : ℚ) (divisor : ℕ) : Progress → Prop
  | .going next => Invariant y divisor next
  | .done mantissa scale => Finest y mantissa scale
  | .outOfRange => ¬ Fits y 0

namespace Divides

theorem nonneg (h : Divides y divisor d) : 0 ≤ y := by
  have hprod : 0 ≤ y * 10 ^ d.scale := by
    rw [h.eq]
    positivity
  exact nonneg_of_mul_nonneg_left hprod (zpow_pos (by norm_num) _)

theorem quotient_le (h : Divides y divisor d) : (d.quotient : ℚ) ≤ y * 10 ^ d.scale := by
  have hr : (0 : ℚ) ≤ d.remainder / divisor := by positivity
  rw [h.eq]
  linarith

theorem lt_quotient_add_one (h : Divides y divisor d) : y * 10 ^ d.scale < d.quotient + 1 := by
  have hpos : (0 : ℚ) < divisor := by exact_mod_cast Nat.zero_lt_of_lt h.lt
  have hr : (d.remainder / divisor : ℚ) < 1 := (div_lt_one hpos).2 (by exact_mod_cast h.lt)
  rw [h.eq]
  linarith

/-- A magnitude that reaches the limit with no digits behind the point. -/
theorem not_fits_zero (h : Divides y divisor d) (hs : d.scale ≤ 0) (hq : limit ≤ d.quotient) :
    ¬ Fits y 0 := by
  have hle : (limit : ℚ) ≤ y * 10 ^ d.scale := le_trans (by exact_mod_cast hq) h.quotient_le
  have hpow : (10 : ℚ) ^ d.scale ≤ 1 := zpow_le_one_of_nonpos₀ (by norm_num) hs
  refine not_fits_of_le h.nonneg ?_
  rw [pow_zero]
  exact hle.trans (mul_le_mul_of_nonneg_left hpow h.nonneg)

theorem develop (h : Divides y divisor d) (count : ℕ) :
    Divides y divisor ⟨d.quotient * pow10 count + d.remainder * pow10 count / divisor,
      d.remainder * pow10 count % divisor, d.scale + count⟩ := by
  have hpos : 0 < divisor := Nat.zero_lt_of_lt h.lt
  refine ⟨?_, Nat.mod_lt _ hpos⟩
  have hdiv := natCast_div_eq (d.remainder * pow10 count) hpos
  rw [zpow_add₀ (by norm_num), zpow_natCast, ← mul_assoc, h.eq, ← cast_pow10]
  push_cast at hdiv ⊢
  rw [add_assoc, ← hdiv]
  ring

end Divides

theorem stop_sound {mantissa : ℕ} {scale : ℤ} (hneg : scale < 0 → ¬ Fits y 0)
    (hdone : ∀ n : ℕ, scale = n → Finest y mantissa n) : (stop mantissa scale).Sound y divisor := by
  unfold stop
  split
  · rename_i h
    exact hneg h
  · rename_i h
    exact hdone _ (Int.toNat_of_nonneg (not_lt.1 h)).symm

/-! ### Rounding at the end -/

section
variable {n : ℕ} (h : Divides y divisor d)
include h

theorem Divides.halfEven_eq (hn : d.scale = n) : halfEven (y * 10 ^ n) = d.nearest divisor := by
  have hround := halfEven_add_div d.quotient h.lt
  rw [← h.eq, hn, zpow_natCast] at hround
  exact hround

/-- One digit less: it makes up a fraction with the remainder. -/
theorem Divides.mul_pow_eq (hn : d.scale = (n + 1 : ℕ)) :
    y * 10 ^ n = (d.quotient / 10 : ℕ)
      + (d.quotient % 10 * divisor + d.remainder : ℕ) / (10 * divisor : ℕ) := by
  have heq : y * 10 ^ (n + 1) = d.quotient + d.remainder / divisor := by
    rw [← h.eq, hn, zpow_natCast]
  have hq : (d.quotient : ℚ) = 10 * (d.quotient / 10 : ℕ) + (d.quotient % 10 : ℕ) := by
    exact_mod_cast (Nat.div_add_mod d.quotient 10).symm
  have hd0 : (divisor : ℚ) ≠ 0 := by exact_mod_cast (Nat.zero_lt_of_lt h.lt).ne'
  rw [pow_succ, ← mul_assoc, hq] at heq
  push_cast
  field_simp
  field_simp at heq
  linarith

theorem Divides.halfEven_tenth_eq (hn : d.scale = (n + 1 : ℕ)) :
    halfEven (y * 10 ^ n) = d.nearestTenth := by
  have hr := h.lt
  have hdigit := Nat.mod_lt d.quotient (by decide : 0 < 10)
  rw [h.mul_pow_eq hn]
  unfold nearestTenth
  dsimp only
  generalize d.quotient % 10 = digit at hdigit ⊢
  have htail : digit * divisor + d.remainder < 10 * divisor := by
    have hle : (digit + 1) * divisor ≤ 10 * divisor := Nat.mul_le_mul_right _ hdigit
    linarith
  have hup : 10 * divisor < 2 * (digit * divisor + d.remainder)
        ∨ 2 * (digit * divisor + d.remainder) = 10 * divisor ∧ d.quotient / 10 % 2 = 1
      ↔ 5 < digit ∨ digit = 5 ∧ (d.remainder ≠ 0 ∨ d.quotient / 10 % 2 = 1) := by
    rcases lt_trichotomy digit 5 with hlt | rfl | hgt
    · have hle : digit * divisor ≤ 4 * divisor := Nat.mul_le_mul_right _ (by omega)
      omega
    · omega
    · have hle : 6 * divisor ≤ digit * divisor := Nat.mul_le_mul_right _ (by omega)
      omega
  rw [halfEven_add_div _ htail]
  simp only [hup]

theorem Divides.not_fits_of_limit_le (hn : d.scale = n) (hq : limit ≤ d.quotient) : ¬ Fits y n := by
  have hle := h.quotient_le
  rw [hn, zpow_natCast] at hle
  exact not_fits_of_le h.nonneg (le_trans (by exact_mod_cast hq) hle)

theorem Divides.not_fits_succ (hn : d.scale = n) (hq : limit ≤ d.quotient * 10) :
    ¬ Fits y (n + 1) := by
  have hle := h.quotient_le
  have hcast : (limit : ℚ) ≤ d.quotient * 10 := by exact_mod_cast hq
  rw [hn, zpow_natCast] at hle
  refine not_fits_of_le h.nonneg ?_
  rw [pow_succ, ← mul_assoc]
  linarith

end

theorem giveUpLast_sound (h : Divides y divisor d) (hle : limit ≤ d.quotient)
    (hlt : d.quotient < 10 * (limit - 1)) (hs : d.scale ≤ maxScale) :
    (giveUpLast d).Sound y divisor := by
  have hdiv := Nat.div_add_mod d.quotient 10
  have htenth : d.nearestTenth < limit := by
    dsimp only [nearestTenth]
    split <;> omega
  refine stop_sound ?_ ?_
  · intro hneg
    exact h.not_fits_zero (by omega) hle
  · intro n hn
    have hscale : d.scale = (n + 1 : ℕ) := by omega
    have hnot := h.not_fits_of_limit_le hscale hle
    exact ⟨htenth, by omega, .inr ⟨h.halfEven_tenth_eq hscale, .inr hnot⟩⟩

/-- A quotient that is rounded up to the limit. -/
theorem stop_sound_of_halfEven_eq_limit (h : Invariant y divisor d) {n : ℕ} (hn : d.scale = n)
    (hround : halfEven (y * 10 ^ n) = limit) :
    (stop (limit / 10 + 1) (d.scale - 1)).Sound y divisor := by
  have hle := h.scale_le
  have hnot : ¬ Fits y n := not_fits_of_halfEven_eq h.nonneg hround le_rfl
  refine stop_sound ?_ ?_
  · intro hneg
    have hzero : n = 0 := by omega
    rwa [hzero] at hnot
  · intro m hm
    have hsucc : n = m + 1 := by omega
    have hlt := h.lt_quotient_add_one
    have hcast : (d.quotient : ℚ) + 1 ≤ limit := by exact_mod_cast h.quotient_lt
    rw [hn, zpow_natCast, hsucc] at hlt
    rw [hsucc] at hround
    exact .of_halfEven_eq_limit h.nonneg (by omega) hround (by linarith)

theorem roundLast_sound (h : Invariant y divisor d) (hs : 0 ≤ d.scale)
    (hmax : d.scale = maxScale ∨ limit ≤ d.quotient * 10) : (roundLast divisor d).Sound y divisor := by
  obtain ⟨n, hn⟩ := Int.eq_ofNat_of_zero_le hs
  have hround := h.halfEven_eq hn
  have hle := h.scale_le
  have hq := h.quotient_lt
  unfold roundLast
  dsimp only
  split
  · rename_i hreach
    rw [hreach] at hround ⊢
    exact stop_sound_of_halfEven_eq_limit h hn hround
  · rename_i hreach
    have hlt : d.nearest divisor < limit := by
      refine lt_of_le_of_ne ?_ hreach
      unfold nearest
      split <;> omega
    refine stop_sound ?_ ?_
    · intro hneg
      exact absurd hs (not_le.2 hneg)
    · intro m hm
      obtain rfl : n = m := by omega
      refine ⟨hlt, by omega, .inr ⟨hround, ?_⟩⟩
      rcases hmax with hmax | hfull
      · exact .inl (by omega)
      · exact .inr (h.not_fits_succ hn hfull)

/-! ### The steps -/

theorem room_spec {quotient : ℕ} (h : quotient < limit) (most : ℕ) :
    quotient * pow10 (room quotient most) < limit
      ∧ (room quotient most < most → limit ≤ quotient * pow10 (room quotient most + 1)) := by
  induction most with
  | zero => exact ⟨by simpa [room] using h, fun hlt => absurd hlt (Nat.lt_irrefl 0)⟩
  | succ most ih =>
    rw [room]
    split
    · rename_i hroom
      exact ⟨hroom, fun hlt => absurd hlt (Nat.lt_irrefl _)⟩
    · rename_i hfull
      refine ⟨ih.1, fun _ => ?_⟩
      rcases (room_le quotient most).lt_or_eq with hlt | heq
      · exact ih.2 hlt
      · rw [heq]
        exact not_lt.1 hfull

theorem develop_sound (h : Invariant y divisor d) (hcount : count ≤ blockLength)
    (hs : d.scale + count ≤ maxScale)
    (hroom : d.scale + count ≤ 0 ∨ d.quotient * pow10 count < limit) :
    (develop divisor count d).Sound y divisor := by
  have hnext := h.toDivides.develop count
  dsimp only [develop]
  split
  · rename_i hfull
    refine hnext.not_fits_zero (hroom.resolve_right (not_lt.2 hfull)) ?_
    exact hfull.trans (Nat.le_add_right _ _)
  split
  · rename_i hq
    exact ⟨hnext, hq, hs⟩
  · rename_i hshift hq
    refine giveUpLast_sound hnext (not_lt.1 hq) ?_ hs
    have hdigits : d.remainder * pow10 count / divisor < pow10 count :=
      Nat.div_lt_of_lt_mul ((Nat.mul_lt_mul_right (pow10_pos count)).2 h.lt)
    have hpow : pow10 count ≤ pow10 blockLength := Nat.pow_le_pow_right (by decide) hcount
    have hlimit : limit + pow10 blockLength < 10 * (limit - 1) := by decide
    dsimp only
    omega

theorem step_sound (h : Invariant y divisor d) : (step divisor d).Sound y divisor := by
  unfold step
  split
  · rename_i hr
    split
    · rename_i hs
      refine ⟨h.quotient_lt, by have := h.scale_le; omega, .inl ?_⟩
      have heq := h.eq
      rw [hr, Nat.cast_zero, zero_div, add_zero] at heq
      rw [← heq, ← zpow_natCast, Int.toNat_of_nonneg hs]
    · rename_i hs
      refine develop_sound h (Nat.min_le_left ..) ?_ (.inl ?_)
      · simp only [maxScale]
        omega
      · omega
  · have hle := room_le d.quotient (min blockLength (maxScale - d.scale).toNat)
    obtain ⟨hroom, hfull⟩ := room_spec h.quotient_lt (min blockLength (maxScale - d.scale).toNat)
    dsimp only
    generalize room d.quotient (min blockLength (maxScale - d.scale).toNat) = count at hle hroom hfull ⊢
    have hscale := h.scale_le
    split
    · rename_i hstuck
      -- one digit more reaches the limit and is still before the point
      refine (h.toDivides.develop (count + 1)).not_fits_zero ?_ ?_
      · push_cast
        omega
      · have hmaxScale : (0 : ℤ) ≤ maxScale := by decide
        exact (hfull (by omega)).trans (Nat.le_add_right _ _)
    split
    · rename_i hcount hzero
      subst hzero
      have hblock : 0 < blockLength := by decide
      refine roundLast_sound h (by omega) ?_
      rcases hscale.eq_or_lt with heq | hlt
      · exact .inl heq
      · exact .inr (hfull (by omega))
    · exact develop_sound h (by omega) (by omega) (.inr hroom)

theorem run_sound (h : Invariant y divisor d) :
    match run divisor d with
    | some (mantissa, scale) => Finest y mantissa scale
    | none => ¬ Fits y 0 := by
  fun_induction run divisor d with
  | case1 d next hstep ih =>
    have hsound := step_sound h
    rw [hstep] at hsound
    exact ih hsound
  | case2 d mantissa scale hstep =>
    have hsound := step_sound h
    rw [hstep] at hsound
    exact hsound
  | case3 d hstep =>
    have hsound := step_sound h
    rw [hstep] at hsound
    exact hsound

/-- The whole part of the ratio of two mantissas begins the division of the magnitudes. -/
theorem invariant_start {a b : Decimal} (hb : 0 < b.mantissa) :
    Invariant (a.mantissa / 10 ^ a.scale / (b.mantissa / 10 ^ b.scale)) b.mantissa (start a b) := by
  have hb' : (b.mantissa : ℚ) ≠ 0 := by exact_mod_cast hb.ne'
  refine ⟨⟨?_, Nat.mod_lt _ hb⟩, ?_, ?_⟩
  · have hdiv := natCast_div_eq a.mantissa hb
    dsimp only [start]
    rw [← hdiv, zpow_sub₀ (by norm_num), zpow_natCast, zpow_natCast]
    field_simp
  · exact Nat.lt_of_le_of_lt (Nat.div_le_self ..) a.mantissa_lt
  · have := a.scale_le
    dsimp only [start]
    omega

end LongDivision

theorem toRat_dropEightZeros (d : Decimal) : d.dropEightZeros.toRat = d.toRat := by
  unfold dropEightZeros
  split
  · exact toRat_dropZeros 8 d
  · rfl

theorem toRat_dropZeroBlocks (d : Decimal) : d.dropZeroBlocks.toRat = d.toRat := by
  unfold dropZeroBlocks
  rw [toRat_dropZeros, toRat_dropZeros, toRat_dropZeros]
  simp only [Nat.repeat, toRat_dropEightZeros]

theorem toRat_div_eq (a b : Decimal) : a.toRat / b.toRat = withSign (a.negative != b.negative)
    (a.mantissa / 10 ^ a.scale / (b.mantissa / 10 ^ b.scale)) := by
  rw [toRat_eq_withSign, toRat_eq_withSign]
  cases a.negative <;> cases b.negative <;> simp [withSign, neg_div, div_neg]

theorem correctlyRounded_div? (a : Decimal) {b : Decimal} (hb : ¬ b.isZero) :
    CorrectlyRounded (a.toRat / b.toRat) (div? a b) := by
  have hpos : 0 < b.mantissa := by
    simp only [isZero, decide_eq_true_eq] at hb
    omega
  have hstart := LongDivision.invariant_start (a := a) hpos
  have hrun := LongDivision.run_sound hstart
  unfold div?
  split
  · rename_i ha
    exact .of_toRat_eq (by rw [toRat_of_isZero ha, toRat_zero, zero_div])
  · rw [toRat_div_eq]
    revert hrun
    rcases LongDivision.run b.mantissa (.start a b) with _ | ⟨mantissa, scale⟩
    · intro hnot
      exact .of_not_fits ((fits_withSign _).not.2 hnot)
    · intro hfinest
      have hround : CorrectlyRounded (withSign (a.negative != b.negative) _)
          (ofParts? (a.negative != b.negative) mantissa scale) :=
        .ofParts? hstart.toDivides.nonneg hfinest
      have hmap := hround.map (f := fun quotient =>
        (if a.mantissa % b.mantissa = 0 then quotient else quotient.dropZeroBlocks).unsignZero) ?_
      · rw [Option.map_eq_bind] at hmap
        exact hmap
      · intro d
        rw [toRat_unsignZero]
        split
        · rfl
        · exact toRat_dropZeroBlocks d

end Abacus.Decimal
