import Abacus.Decimal.Rounding
import Mathlib.Data.Rat.Floor
import Mathlib.Tactic.FieldSimp
import Mathlib.Tactic.Linarith
import Mathlib.Tactic.NormNum
import Mathlib.Tactic.Positivity
import Mathlib.Tactic.Ring

/-! # Correct rounding

A number fits a scale if its magnitude, rounded half to even to that many digits, has a mantissa in
range. The correctly rounded result is the number rounded half to even at the greatest scale that it
fits, and there is none if it does not even fit as a whole number. -/

namespace Abacus

/-! ### Half to even -/

/-- The nearest whole number; a half goes to the even neighbour. -/
def halfEven (x : ℚ) : ℤ :=
  if 1 < 2 * (x - ⌊x⌋) ∨ 2 * (x - ⌊x⌋) = 1 ∧ ⌊x⌋ % 2 = 1 then ⌊x⌋ + 1 else ⌊x⌋

section
variable {x : ℚ} {n : ℤ}

theorem halfEven_near (x : ℚ) : 2 * x ≤ 2 * halfEven x + 1 ∧ 2 * (halfEven x : ℚ) ≤ 2 * x + 1 := by
  have hlo := Int.floor_le x
  have hhi := Int.lt_floor_add_one x
  unfold halfEven
  split
  · rename_i h
    push_cast
    constructor
    · linarith
    · rcases h with h | h
      · linarith
      · linarith [h.1]
  · rename_i h
    push Not at h
    exact ⟨by linarith [h.1], by linarith⟩

/-- A whole number at most half a unit away, and an even one if it is half a unit away. -/
theorem halfEven_eq (hlo : 2 * x ≤ 2 * n + 1) (hhi : 2 * (n : ℚ) ≤ 2 * x + 1)
    (heven : 2 * x = 2 * n + 1 ∨ 2 * (n : ℚ) = 2 * x + 1 → n % 2 = 0) : halfEven x = n := by
  unfold halfEven
  rcases lt_or_ge x n with hx | hx
  · have hf : ⌊x⌋ = n - 1 := Int.floor_eq_iff.2 ⟨by push_cast; linarith, by push_cast; linarith⟩
    rw [hf, if_pos]
    · ring
    · push_cast
      rcases hhi.lt_or_eq with hlt | heq
      · exact .inl (by linarith)
      · have := heven (.inr heq)
        exact .inr ⟨by linarith, by omega⟩
  · have hf : ⌊x⌋ = n := Int.floor_eq_iff.2 ⟨hx, by linarith⟩
    rw [hf, if_neg]
    rintro (h | ⟨h, hodd⟩)
    · linarith
    · have := heven (.inl (by linarith))
      omega

theorem halfEven_even (h : 2 * x = 2 * halfEven x + 1 ∨ 2 * (halfEven x : ℚ) = 2 * x + 1) :
    halfEven x % 2 = 0 := by
  have hlo := Int.floor_le x
  have hhi := Int.lt_floor_add_one x
  unfold halfEven at h ⊢
  split at h
  · rename_i hup
    rw [if_pos hup]
    push_cast at h
    rcases hup with hup | ⟨hup, hodd⟩
    · rcases h with h | h <;> linarith
    · omega
  · rename_i hdown
    rw [if_neg hdown]
    push Not at hdown
    rcases h with h | h
    · have := hdown.2 (by linarith)
      omega
    · linarith

@[simp] theorem halfEven_intCast (n : ℤ) : halfEven n = n :=
  halfEven_eq (by linarith) (by linarith) (by rintro (h | h) <;> linarith)

theorem halfEven_neg (x : ℚ) : halfEven (-x) = -halfEven x := by
  have hnear := halfEven_near x
  refine halfEven_eq (by push_cast; linarith [hnear.2]) (by push_cast; linarith [hnear.1]) ?_
  push_cast
  intro h
  have := halfEven_even (x := x) (h.symm.imp (by intro h; linarith) (by intro h; linarith))
  omega

/-- Below an even number after rounding means half a unit below it before. -/
theorem halfEven_lt_iff (hn : n % 2 = 0) : halfEven x < n ↔ x < n - 1 / 2 := by
  have hnear := halfEven_near x
  constructor
  · intro h
    have hle : (halfEven x : ℚ) ≤ n - 1 := by exact_mod_cast Int.le_sub_one_of_lt h
    by_contra hx
    have heq : halfEven x = n - 1 := by
      have : (halfEven x : ℚ) = ((n - 1 : ℤ) : ℚ) := by push_cast; linarith [hnear.1]
      exact_mod_cast this
    have := halfEven_even (x := x) (.inl (by rw [heq]; push_cast; linarith [hnear.1]))
    omega
  · intro h
    have : (halfEven x : ℚ) < n := by linarith [hnear.2]
    exact_mod_cast this

/-- A whole part and a proper fraction. -/
theorem halfEven_add_div (q : ℕ) {r d : ℕ} (hr : r < d) :
    halfEven (q + r / d) = ((if d < 2 * r ∨ 2 * r = d ∧ q % 2 = 1 then q + 1 else q : ℕ) : ℤ) := by
  have hd : (0 : ℚ) < d := by exact_mod_cast Nat.zero_lt_of_lt hr
  have hlt : (r / d : ℚ) < 1 := (div_lt_one hd).2 (by exact_mod_cast hr)
  have hf : ⌊(q + r / d : ℚ)⌋ = q :=
    Int.floor_eq_iff.2 ⟨by push_cast; linarith [div_nonneg r.cast_nonneg hd.le], by push_cast; linarith⟩
  have hup : 1 < 2 * ((q + r / d : ℚ) - (q : ℤ)) ↔ d < 2 * r := by
    rw [Int.cast_natCast, add_sub_cancel_left, mul_div_assoc', one_lt_div hd]
    exact_mod_cast Iff.rfl
  have htie : 2 * ((q + r / d : ℚ) - (q : ℤ)) = 1 ↔ 2 * r = d := by
    rw [Int.cast_natCast, add_sub_cancel_left, mul_div_assoc', div_eq_one_iff_eq hd.ne']
    exact_mod_cast Iff.rfl
  have hodd : (q : ℤ) % 2 = 1 ↔ q % 2 = 1 := by omega
  simp only [halfEven, hf, hup, htie, hodd]
  split <;> simp

theorem natCast_div_eq (n : ℕ) {d : ℕ} (hd : 0 < d) :
    (n / d : ℚ) = (n / d : ℕ) + (n % d : ℕ) / d := by
  have hd' : (d : ℚ) ≠ 0 := by exact_mod_cast hd.ne'
  have h : (n : ℚ) = d * (n / d : ℕ) + (n % d : ℕ) := by exact_mod_cast (Nat.div_add_mod n d).symm
  rw [eq_comm, eq_div_iff hd', add_mul, div_mul_cancel₀ _ hd', mul_comm, ← h]

theorem halfEven_div (n : ℕ) {d : ℕ} (hd : 0 < d) : halfEven (n / d) = roundHalfEven n d := by
  rw [natCast_div_eq n hd, halfEven_add_div _ (Nat.mod_lt n hd)]
  rfl

end

namespace Decimal

/-! ### Values -/

/-- The number that a decimal stands for. -/
def toRat (d : Decimal) : ℚ := d.signed / 10 ^ d.scale

/-- A magnitude under a sign. -/
def withSign : Bool → ℚ → ℚ
  | false, y => y
  | true, y => -y

@[simp] theorem withSign_zero (negative : Bool) : withSign negative 0 = 0 := by
  cases negative <;> simp [withSign]

@[simp] theorem abs_withSign (negative : Bool) (y : ℚ) : |withSign negative y| = |y| := by
  cases negative <;> simp [withSign]

theorem withSign_mul (negative : Bool) (y z : ℚ) :
    withSign negative y * z = withSign negative (y * z) := by
  cases negative <;> simp [withSign]

theorem withSign_div (negative : Bool) (y z : ℚ) :
    withSign negative y / z = withSign negative (y / z) := by
  cases negative <;> simp [withSign, neg_div]

theorem withSign_not (negative : Bool) (y : ℚ) : withSign (!negative) y = -withSign negative y := by
  cases negative <;> simp [withSign]

theorem halfEven_withSign (negative : Bool) (y : ℚ) :
    (halfEven (withSign negative y) : ℚ) = withSign negative (halfEven y) := by
  cases negative <;> simp [withSign, halfEven_neg]

theorem toRat_eq_withSign (d : Decimal) :
    d.toRat = withSign d.negative (d.mantissa / 10 ^ d.scale) := by
  unfold toRat signed
  cases d.negative <;> simp [withSign, neg_div]

theorem cast_pow10 (n : ℕ) : (pow10 n : ℚ) = 10 ^ n := by
  have h : pow10 n = 10 ^ n := rfl
  rw [h]
  push_cast
  rfl

theorem toRat_of_isZero {d : Decimal} (h : d.isZero) : d.toRat = 0 := by
  have hm : d.mantissa = 0 := of_decide_eq_true h
  simp [toRat_eq_withSign, hm]

theorem isZero_iff {d : Decimal} : d.isZero = true ↔ d.toRat = 0 := by
  refine ⟨toRat_of_isZero, fun h => ?_⟩
  rw [toRat, div_eq_zero_iff] at h
  have hpow : (10 : ℚ) ^ d.scale ≠ 0 := by positivity
  have hsigned : d.signed = 0 := by exact_mod_cast h.resolve_right hpow
  rw [isZero, decide_eq_true_iff]
  unfold signed at hsigned
  split at hsigned <;> omega

@[simp] theorem toRat_zero : toRat 0 = 0 := toRat_of_isZero rfl

@[simp] theorem toRat_neg (d : Decimal) : (-d).toRat = -d.toRat := by
  rw [toRat_eq_withSign, toRat_eq_withSign, negative_neg, withSign_not, mantissa_neg, scale_neg]

theorem toRat_unsignZero (d : Decimal) : d.unsignZero.toRat = d.toRat := by
  by_cases hz : d.isZero
  · rw [toRat_of_isZero hz]
    exact toRat_of_isZero (d := d.unsignZero) hz
  · simp [toRat_eq_withSign, unsignZero, hz]

theorem toRat_dropZeros (n : ℕ) (d : Decimal) : (d.dropZeros n).toRat = d.toRat := by
  unfold dropZeros
  split
  · rename_i h
    have hm : (d.mantissa : ℚ) = (d.mantissa / pow10 n : ℕ) * 10 ^ n := by
      rw [← cast_pow10]
      exact_mod_cast (Nat.div_mul_cancel (Nat.dvd_of_mod_eq_zero h.2)).symm
    have hs : (10 : ℚ) ^ d.scale = 10 ^ (d.scale - n) * 10 ^ n := by
      rw [← pow_add, Nat.sub_add_cancel h.1]
    rw [toRat_eq_withSign, toRat_eq_withSign, hm, hs]
    congr 1
    exact (mul_div_mul_right _ _ (by positivity)).symm
  · rfl

/-! ### The scales that a number fits -/

/-- Whether a number, rounded half to even to a scale, has a mantissa in range. -/
def Fits (x : ℚ) (scale : ℕ) : Prop := halfEven (|x| * 10 ^ scale) < limit

section
variable {x y : ℚ} {s t : ℕ}

theorem fits_iff : Fits x t ↔ |x| * 10 ^ t < limit - 1 / 2 := by
  unfold Fits
  rw [halfEven_lt_iff (by decide)]
  rfl

theorem Fits.of_le (h : Fits x t) (hs : s ≤ t) : Fits x s := by
  rw [fits_iff] at h ⊢
  refine lt_of_le_of_lt ?_ h
  exact mul_le_mul_of_nonneg_left (pow_le_pow_right₀ (by norm_num) hs) (abs_nonneg x)

theorem fits_withSign (negative : Bool) : Fits (withSign negative y) t ↔ Fits y t := by
  rw [fits_iff, fits_iff, abs_withSign]

/-- A magnitude that reaches the limit at some scale. -/
theorem not_fits_of_le (hy : 0 ≤ y) (h : (limit : ℚ) ≤ y * 10 ^ t) : ¬ Fits y t := by
  rw [fits_iff, abs_of_nonneg hy]
  linarith

end

/-- A result is the number rounded half to even at the greatest scale that the number fits. -/
structure CorrectlyRounded (x : ℚ) (result : Option Decimal) : Prop where
  eq_some : ∀ {t}, IsGreatest {t | t ≤ maxScale ∧ Fits x t} t →
    ∃ r, result = some r ∧ r.toRat = halfEven (x * 10 ^ t) / 10 ^ t
  eq_none : (∀ t ≤ maxScale, ¬ Fits x t) → result = none

/-- A magnitude at a scale: exact, or rounded half to even at the greatest scale that it fits. -/
structure Finest (y : ℚ) (mantissa scale : ℕ) : Prop where
  lt : mantissa < limit
  le : scale ≤ maxScale
  near : y * 10 ^ scale = mantissa
    ∨ halfEven (y * 10 ^ scale) = mantissa ∧ (scale = maxScale ∨ ¬ Fits y (scale + 1))

theorem fits_toRat (d : Decimal) : Fits d.toRat d.scale := by
  have hlt : (d.mantissa : ℚ) + 1 ≤ limit := by exact_mod_cast d.mantissa_lt
  rw [fits_iff, toRat_eq_withSign, abs_withSign, abs_of_nonneg (by positivity),
    div_mul_cancel₀ _ (by positivity)]
  linarith

/-- At any scale that is at least its own a decimal has a whole mantissa. -/
theorem toRat_mul_pow (d : Decimal) {t : ℕ} (h : d.scale ≤ t) :
    d.toRat * 10 ^ t = (d.signed * 10 ^ (t - d.scale) : ℤ) := by
  have ht : (10 : ℚ) ^ t = 10 ^ d.scale * 10 ^ (t - d.scale) := by rw [← pow_add, Nat.add_sub_cancel' h]
  rw [toRat, ht, ← mul_assoc, div_mul_cancel₀ _ (by positivity)]
  push_cast
  rfl

namespace CorrectlyRounded
variable {x y : ℚ} {r : Decimal}

theorem of_toRat_eq (h : r.toRat = x) : CorrectlyRounded x (some r) := by
  subst h
  constructor
  · intro t ht
    have hle : r.scale ≤ t := ht.2 ⟨r.scale_le, fits_toRat r⟩
    refine ⟨r, rfl, ?_⟩
    rw [eq_div_iff (by positivity), toRat_mul_pow r hle, halfEven_intCast]
  · intro hnone
    exact absurd (fits_toRat r) (hnone _ r.scale_le)

theorem of_finest (hy : 0 ≤ y) (h : Finest y r.mantissa r.scale) (hx : x = withSign r.negative y) :
    CorrectlyRounded x (some r) := by
  subst hx
  rcases h.near with hexact | ⟨hround, hmax⟩
  · refine of_toRat_eq ?_
    rw [toRat_eq_withSign, ← hexact, mul_div_cancel_right₀ _ (by positivity)]
  · have hfits : Fits y r.scale := by
      unfold Fits
      rw [abs_of_nonneg hy, hround]
      exact_mod_cast h.lt
    have hfits' : Fits (withSign r.negative y) r.scale := (fits_withSign _).2 hfits
    constructor
    · rintro t ⟨⟨ht, htfits⟩, hgreatest⟩
      have heq : t = r.scale := by
        refine le_antisymm ?_ (hgreatest ⟨r.scale_le, hfits'⟩)
        rcases hmax with hmax | hmax
        · exact hmax ▸ ht
        · by_contra hlt
          exact hmax (((fits_withSign _).1 htfits).of_le (by omega))
      refine ⟨r, rfl, ?_⟩
      rw [heq, withSign_mul, halfEven_withSign, hround, withSign_div, toRat_eq_withSign]
      rfl
    · intro hnone
      exact absurd hfits' (hnone _ r.scale_le)

theorem congr {r' : Decimal} (h : CorrectlyRounded x (some r)) (hr : r'.toRat = r.toRat) :
    CorrectlyRounded x (some r') := by
  constructor
  · intro t ht
    obtain ⟨_, ⟨⟩, hround⟩ := h.eq_some ht
    exact ⟨r', rfl, hr.trans hround⟩
  · intro hnone
    exact absurd (h.eq_none hnone) (Option.some_ne_none r)

theorem map {f : Decimal → Decimal} (hf : ∀ d, (f d).toRat = d.toRat) {result : Option Decimal}
    (h : CorrectlyRounded x result) : CorrectlyRounded x (result.map f) := by
  cases result with
  | none => exact h
  | some r => exact h.congr (hf r)

theorem of_not_fits (h : ¬ Fits x 0) : CorrectlyRounded x none :=
  ⟨fun ht => absurd (ht.1.2.of_le (Nat.zero_le _)) h, fun _ => rfl⟩

end CorrectlyRounded

end Decimal

end Abacus
