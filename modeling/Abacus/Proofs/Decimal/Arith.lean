import Abacus.Decimal.Arith
import Abacus.Proofs.Decimal.Rounded

/-! # Sum, difference and product are correctly rounded

`fit?` starts at a scale that is exact or as great as any, and lowers it only where the number does
not fit. The three operations hand it their exact results; a product of short mantissas fits every
scale, so that it is rounded at the greatest one. -/

namespace Abacus.Decimal

variable {y : ℚ} {negative : Bool} {digits mantissa scale dropped : ℕ}

theorem CorrectlyRounded.ofParts? (hy : 0 ≤ y) (h : Finest y mantissa scale) :
    CorrectlyRounded (withSign negative y) (ofParts? negative mantissa scale) := by
  cases hr : Decimal.ofParts? negative mantissa scale with
  | none =>
    have hlt := h.lt
    have hle := h.le
    rcases ofParts?_eq_none_iff.1 hr with hm | hs <;> omega
  | some r =>
    obtain ⟨rfl, rfl, rfl⟩ := ofParts?_eq_some_iff.1 hr
    exact .of_finest hy h rfl

/-! ### Giving up digits -/

theorem not_fits_of_halfEven_eq (hy : 0 ≤ y) (h : halfEven (y * 10 ^ scale) = mantissa)
    (hm : limit ≤ mantissa) : ¬ Fits y scale := by
  intro hfits
  unfold Fits at hfits
  rw [abs_of_nonneg hy, h] at hfits
  omega

/-- A number that is rounded up to the limit gives up one digit more. -/
theorem Finest.of_halfEven_eq_limit (hy : 0 ≤ y) (hs : scale ≤ maxScale)
    (hround : halfEven (y * 10 ^ (scale + 1)) = limit) (hlt : y * 10 ^ (scale + 1) < limit) :
    Finest y (roundHalfEven limit 10) scale := by
  have hnear := (halfEven_near (y * 10 ^ (scale + 1))).2
  have hlimit : (roundHalfEven limit 10 : ℚ) * 10 = limit + 4 := by
    have : roundHalfEven limit 10 * 10 = limit + 4 := by decide
    exact_mod_cast this
  rw [hround] at hnear
  rw [pow_succ, ← mul_assoc] at hnear hlt
  push_cast at hnear
  refine ⟨by decide, hs, .inr ⟨halfEven_eq ?_ ?_ ?_, .inr (not_fits_of_halfEven_eq hy hround le_rfl)⟩⟩
  · push_cast
    linarith
  · push_cast
    linarith
  · push_cast
    rintro (h | h) <;> linarith

section
variable (hy : y * 10 ^ scale = digits / 10 ^ dropped)
include hy

theorem nonneg_of_mul_pow_eq : 0 ≤ y :=
  nonneg_of_mul_nonneg_left (hy ▸ by positivity) (by positivity : 0 < (10 : ℚ) ^ scale)

theorem not_fits_of_le_div (h : limit ≤ digits / pow10 dropped) : ¬ Fits y scale := by
  refine not_fits_of_le (nonneg_of_mul_pow_eq hy) ?_
  rw [hy, ← cast_pow10, le_div_iff₀ (by exact_mod_cast pow10_pos dropped)]
  exact_mod_cast (Nat.le_div_iff_mul_le (pow10_pos dropped)).1 h

theorem correctlyRounded_roundOff? (hs : scale ≤ maxScale)
    (hmax : dropped = 0 ∨ scale = maxScale ∨ ¬ Fits y (scale + 1))
    (hlt : digits / pow10 dropped < limit) :
    CorrectlyRounded (withSign negative y) (roundOff? negative digits scale dropped) := by
  have hy0 := nonneg_of_mul_pow_eq hy
  have hround : halfEven (y * 10 ^ scale) = roundHalfEven digits (pow10 dropped) := by
    rw [hy, ← halfEven_div _ (pow10_pos dropped), cast_pow10]
  dsimp only [roundOff?]
  split
  · rename_i h
    refine .ofParts? hy0 ⟨h, hs, ?_⟩
    rcases hmax with rfl | hmax
    · left
      rw [hy, pow10_zero, ← Nat.mul_one digits, roundHalfEven_mul_right _ Nat.one_pos]
      simp
    · exact .inr ⟨hround, hmax⟩
  · rename_i h
    have heq : roundHalfEven digits (pow10 dropped) = limit := by
      unfold roundHalfEven at h ⊢
      split <;> split at h <;> omega
    have hnot : ¬ Fits y scale := not_fits_of_halfEven_eq hy0 hround (by omega)
    cases scale with
    | zero => exact .of_not_fits ((fits_withSign _).not.2 hnot)
    | succ scale =>
      rw [heq] at hround ⊢
      refine .ofParts? hy0 (.of_halfEven_eq_limit hy0 (by omega) hround ?_)
      rw [hy, ← cast_pow10]
      rw [div_lt_iff₀ (by exact_mod_cast pow10_pos dropped)]
      exact_mod_cast (Nat.div_lt_iff_lt_mul (pow10_pos dropped)).1 hlt

/-- The first scale is exact, or it is the greatest one that could do. -/
theorem correctlyRounded_fit? (hs : scale ≤ maxScale)
    (hmax : dropped = 0 ∨ scale = maxScale ∨ ¬ Fits y (scale + 1)) :
    CorrectlyRounded (withSign negative y) (fit? negative digits scale dropped) := by
  induction scale generalizing dropped with
  | zero =>
    rw [fit?]
    split
    · rename_i h
      exact correctlyRounded_roundOff? hy hs hmax h
    · rename_i h
      exact .of_not_fits ((fits_withSign _).not.2 (not_fits_of_le_div hy (not_lt.1 h)))
  | succ scale ih =>
    rw [fit?]
    split
    · rename_i h
      exact correctlyRounded_roundOff? hy hs hmax h
    · rename_i h
      -- the number does not fit this scale, so that the next one is as great as any that could do
      refine ih ?_ (by omega) (.inr (.inr (not_fits_of_le_div hy (not_lt.1 h))))
      rw [pow_succ, ← mul_assoc] at hy
      rw [pow_succ, ← div_div, ← hy, mul_div_cancel_right₀ _ (by norm_num)]

end

/-! ### The operations -/

theorem toRat_eq_signedAt (d : Decimal) {s : ℕ} (h : d.scale ≤ s) : d.toRat = d.signedAt s / 10 ^ s := by
  rw [eq_div_iff (by positivity), toRat_mul_pow d h, signedAt]
  push_cast
  rw [cast_pow10]

theorem withSign_natAbs (n : ℤ) : withSign (decide (n < 0)) n.natAbs = n := by
  rcases lt_or_ge n 0 with h | h
  · simp [h, withSign, Nat.cast_natAbs, abs_of_neg h]
  · simp [not_lt.2 h, withSign, Nat.cast_natAbs, abs_of_nonneg h]

theorem correctlyRounded_add? (a b : Decimal) : CorrectlyRounded (a.toRat + b.toRat) (add? a b) := by
  unfold add?
  split
  · rename_i ha
    exact .of_toRat_eq (by rw [toRat_of_isZero ha, zero_add])
  split
  · rename_i hb
    exact .of_toRat_eq (by rw [toRat_of_isZero hb, add_zero])
  · dsimp only
    set s := max a.scale b.scale
    set total := a.signedAt s + b.signedAt s
    have hx : a.toRat + b.toRat = withSign (decide (total < 0)) (total.natAbs / 10 ^ s) := by
      rw [toRat_eq_signedAt a (le_max_left ..), toRat_eq_signedAt b (le_max_right ..), ← withSign_div,
        withSign_natAbs, ← add_div, ← Int.cast_add]
    rw [hx]
    refine correctlyRounded_fit? ?_ (max_le a.scale_le b.scale_le) (.inl rfl)
    rw [div_mul_cancel₀ _ (by positivity), pow_zero, div_one]

theorem correctlyRounded_sub? (a b : Decimal) : CorrectlyRounded (a.toRat - b.toRat) (sub? a b) := by
  unfold sub?
  split
  · rename_i h
    obtain ⟨ha, hb⟩ := Bool.and_eq_true_iff.1 h
    exact .of_toRat_eq (by rw [toRat_of_isZero ha, toRat_of_isZero hb, sub_zero])
  · rw [sub_eq_add_neg, ← toRat_neg]
    exact correctlyRounded_add? a (-b)

theorem div_pow_mul_pow (z : ℚ) {s t : ℕ} (h : s ≤ t) : z / 10 ^ t * 10 ^ s = z / 10 ^ (t - s) := by
  have ht : (10 : ℚ) ^ t = 10 ^ (t - s) * 10 ^ s := by rw [← pow_add, Nat.sub_add_cancel h]
  rw [ht, ← div_div, div_mul_cancel₀ _ (by positivity)]

/-- A short product rounded at the greatest scale, which it fits. -/
theorem finest_of_maxScale_le (hd : digits < wordSize * wordSize) (hs : maxScale ≤ scale)
    (hy : y = digits / 10 ^ scale) :
    Finest y (roundHalfEven digits (pow10 (scale - maxScale))) maxScale := by
  have hlimit : wordSize * wordSize < limit := by decide
  refine ⟨?_, le_rfl, .inr ⟨?_, .inl rfl⟩⟩
  · have := Nat.div_le_self digits (pow10 (scale - maxScale))
    unfold roundHalfEven
    split <;> omega
  · rw [hy, div_pow_mul_pow _ hs, ← cast_pow10, halfEven_div _ (pow10_pos _)]

theorem roundHalfEven_of_lt_scale (hd : digits < wordSize * wordSize) (hs : 47 < scale) :
    roundHalfEven digits (pow10 (scale - maxScale)) = 0 := by
  have hpow : 2 * (wordSize * wordSize) < pow10 20 := by decide
  have hle : pow10 20 ≤ pow10 (scale - maxScale) :=
    Nat.pow_le_pow_right (by decide) (by simp only [maxScale]; omega)
  rw [roundHalfEven, Nat.mod_eq_of_lt (by omega), Nat.div_eq_of_lt (by omega), if_neg (by omega)]

theorem correctlyRounded_ofShortProduct? (hd : digits < wordSize * wordSize)
    (hy : y = digits / 10 ^ scale) :
    CorrectlyRounded (withSign negative y) (ofShortProduct? negative digits scale) := by
  have hy0 : 0 ≤ y := hy ▸ by positivity
  have hlimit : wordSize * wordSize < limit := by decide
  unfold ofShortProduct?
  split
  · rename_i hs
    refine .ofParts? hy0 ⟨by omega, hs, .inl ?_⟩
    rw [hy, div_mul_cancel₀ _ (by positivity)]
  rename_i hs
  have hfinest := finest_of_maxScale_le hd (not_le.1 hs).le hy
  split
  · rename_i h
    rw [roundHalfEven_of_lt_scale hd h] at hfinest
    let zero : Decimal := ⟨negative, 0, maxScale, limit_pos, le_rfl⟩
    have hzero : CorrectlyRounded (withSign negative y) (some zero) := .of_finest hy0 hfinest rfl
    exact hzero.congr (by rw [toRat_zero, toRat_of_isZero (d := zero) rfl])
  · exact .map toRat_unsignZero (.ofParts? hy0 hfinest)

theorem toRat_mul_eq (a b : Decimal) : a.toRat * b.toRat
    = withSign (a.negative != b.negative) ((a.mantissa * b.mantissa : ℕ) / 10 ^ (a.scale + b.scale)) := by
  rw [toRat_eq_withSign, toRat_eq_withSign]
  have h : (a.mantissa / 10 ^ a.scale * (b.mantissa / 10 ^ b.scale) : ℚ)
      = (a.mantissa * b.mantissa : ℕ) / 10 ^ (a.scale + b.scale) := by
    rw [div_mul_div_comm, ← pow_add]
    push_cast
    rfl
  rw [← h]
  cases a.negative <;> cases b.negative <;> simp [withSign]

theorem correctlyRounded_mul? (a b : Decimal) : CorrectlyRounded (a.toRat * b.toRat) (mul? a b) := by
  unfold mul?
  split
  · rename_i h
    refine .of_toRat_eq ?_
    rcases Bool.or_eq_true_iff.1 h with h | h <;> simp [toRat_of_isZero h]
  · rw [toRat_mul_eq]
    dsimp only
    split
    · rename_i h
      simp only [isShort, Bool.and_eq_true, decide_eq_true_eq] at h
      exact correctlyRounded_ofShortProduct? (Nat.mul_lt_mul'' h.1 h.2) rfl
    · refine correctlyRounded_fit? ?_ (min_le_right ..) ?_
      · rw [div_pow_mul_pow _ (min_le_left ..)]
        congr 2
        omega
      · omega

end Abacus.Decimal
