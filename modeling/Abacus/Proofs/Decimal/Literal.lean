import Abacus.Decimal.Display
import Abacus.Decimal.Literal

/-! # The decimal of a row of digits

What `ofLiteral` reads from digits, and from digits on both sides of a point: the number that the digits
write together, with one place for each digit after the point (`ofLiteral_eq_ok_iff`,
`ofLiteral_point_eq_ok_iff`). A decimal without a sign is read back from its digits
(`ofDigitChars_digits`). -/

namespace Abacus

theorem bind_eq_ok_iff {ε α β : Type} {x : Except ε α} {f : α → Except ε β} {b : β} :
    x >>= f = .ok b ↔ ∃ a, x = .ok a ∧ f a = .ok b := by
  cases x with
  | error e => simp [bind, Except.bind]
  | ok a => simp [bind, Except.bind]

namespace Decimal

/-! ### Digits -/

theorem le_ofDigitChars (ds : Text) (init : Nat) : init ≤ Nat.ofDigitChars 10 ds init := by
  induction ds generalizing init with
  | nil => simp
  | cons c ds ih =>
    rw [Nat.ofDigitChars_cons]
    have := ih (10 * init + (c.toNat - '0'.toNat))
    omega

theorem ofDigitChars_lowDigits (width n init : Nat) :
    Nat.ofDigitChars 10 (lowDigits width n) init = init * pow10 width + n % pow10 width := by
  induction width generalizing n with
  | zero => simp [lowDigits, Nat.mod_one]
  | succ width ih =>
    have hd : n % 10 < 10 := Nat.mod_lt _ (by decide)
    rw [lowDigits, Nat.ofDigitChars_append, ih, Nat.ofDigitChars_cons_digitChar_of_lt_ten hd,
      Nat.ofDigitChars_nil, pow10_succ, Nat.mul_comm (pow10 width) 10, Nat.mod_mul]
    grind

theorem isDigit_of_mem_lowDigits {width n : Nat} {c : Char} (h : c ∈ lowDigits width n) :
    c.isDigit = true := by
  induction width generalizing n with
  | zero => simp [lowDigits] at h
  | succ width ih =>
    rcases List.mem_append.1 h with h | h
    · exact ih h
    · rw [List.mem_singleton.1 h, Nat.isDigit_digitChar]
      exact decide_eq_true (Nat.mod_lt _ (by decide))

variable (d : Decimal)

theorem isDigit_of_mem_wholeDigits {c : Char} (h : c ∈ d.wholeDigits) : c.isDigit = true :=
  Nat.isDigit_of_mem_toDigits (by decide) (by decide) h

theorem isDigit_of_mem_fractionDigits {c : Char} (h : c ∈ d.fractionDigits) : c.isDigit = true :=
  isDigit_of_mem_lowDigits h

theorem wholeDigits_ne_nil : d.wholeDigits ≠ [] := Nat.toDigits_ne_nil

theorem exists_digit_mem_head?_wholeDigits : ∃ c ∈ d.wholeDigits.head?, c.isDigit = true := by
  obtain ⟨c, w, hw⟩ := List.exists_cons_of_ne_nil d.wholeDigits_ne_nil
  exact ⟨c, by simp [hw], d.isDigit_of_mem_wholeDigits (by simp [hw])⟩

@[simp] theorem length_fractionDigits : d.fractionDigits.length = d.scale := length_lowDigits ..

theorem ofDigitChars_digits :
    Nat.ofDigitChars 10 (d.wholeDigits ++ d.fractionDigits) 0 = d.mantissa := by
  rw [Nat.ofDigitChars_append, wholeDigits, fractionDigits, Nat.ofDigitChars_ten_toDigits,
    ofDigitChars_lowDigits, Nat.mul_comm, Nat.div_add_mod]

/-! ### Reading them -/

namespace Reading

theorem ext_iff {r r' : Reading} : r' = r ↔ r'.mantissa = r.mantissa ∧ r'.scale = r.scale ∧
    r'.pointed = r.pointed ∧ r'.started = r.started := by
  cases r
  cases r'
  simp

theorem step_digit_eq_ok_iff {r r' : Reading} {c : Char} (hc : c.isDigit = true) :
    r.step c = .ok r' ↔ r.scale < maxScale ∧ r'.mantissa = 10 * r.mantissa + (c.toNat - '0'.toNat) ∧
      r'.scale = r.scale + r.pointed.toNat ∧ r'.pointed = r.pointed ∧ r'.started = true := by
  by_cases room : r.scale < maxScale
  · rw [step, dif_pos room, if_pos hc, takeDigit]
    split
    · rw [Except.ok.injEq, eq_comm, ext_iff]
      simp [room, Nat.mul_comm 10]
    · have := r'.mantissa_lt
      simp only [reduceCtorEq, false_iff]
      omega
  · rw [step, dif_neg room]
    simp [room]

theorem step_point {r : Reading} (hr : r.pointed = false) (room : r.scale < maxScale) :
    r.step '.' = .ok { r with pointed := true } := by
  rw [step, dif_pos room, if_neg (by decide), if_pos rfl, hr]
  rfl

/-- Digits are taken as long as there is room for them; only behind the point can room run out. -/
theorem foldlM_step_eq_ok_iff {r r' : Reading} {ds : Text} (hd : ∀ c ∈ ds, c.isDigit = true)
    (hr : r.pointed = false → r.scale = 0) :
    ds.foldlM step r = .ok r' ↔ r'.mantissa = Nat.ofDigitChars 10 ds r.mantissa ∧
      r'.scale = r.scale + r.pointed.toNat * ds.length ∧ r'.pointed = r.pointed ∧
      r'.started = (r.started || !ds.isEmpty) := by
  induction ds generalizing r with
  | nil =>
    rw [List.foldlM_nil]
    show Except.ok r = Except.ok r' ↔ _
    rw [Except.ok.injEq, eq_comm, ext_iff]
    simp
  | cons c ds ih =>
    have hc := hd c (by simp)
    rw [List.foldlM_cons, bind_eq_ok_iff, Nat.ofDigitChars_cons, List.length_cons, Nat.mul_succ]
    constructor
    · rintro ⟨r₁, h₁, h⟩
      obtain ⟨room, hm, hs, hp, hst⟩ := (step_digit_eq_ok_iff hc).1 h₁
      have hr₁ : r₁.pointed = false → r₁.scale = 0 := fun hf => by simp_all
      obtain ⟨hm', hs', hp', hst'⟩ := (ih (fun x hx => hd x (by simp [hx])) hr₁).1 h
      rw [hp] at hs'
      exact ⟨by rw [hm', hm], by omega, hp'.trans hp, by simp [hst', hst]⟩
    · rintro ⟨hm, hs, hp, hst⟩
      have hlt := r'.mantissa_lt
      have hle := r'.scale_le
      have hle' := le_ofDigitChars ds (10 * r.mantissa + (c.toNat - '0'.toNat))
      -- before the point the scale is still zero, behind it the result has more places
      have room : r.scale < maxScale := by
        cases hpt : r.pointed with
        | false => rw [hr hpt]; decide
        | true => rw [hpt] at hs; simp only [Bool.toNat_true] at hs; omega
      let r₁ : Reading := ⟨10 * r.mantissa + (c.toNat - '0'.toNat), r.scale + r.pointed.toNat,
        r.pointed, true, by omega, by omega⟩
      have hr₁ : r₁.pointed = false → r₁.scale = 0 := fun hf => by
        have hf : r.pointed = false := hf
        simp [r₁, hf, hr hf]
      refine ⟨r₁, (step_digit_eq_ok_iff hc).2 ⟨room, rfl, rfl, rfl, rfl⟩,
        (ih (fun x hx => hd x (by simp [hx])) hr₁).2 ⟨hm, ?_, hp, by simp [hst, r₁]⟩⟩
      show r'.scale = r.scale + r.pointed.toNat + r.pointed.toNat * ds.length
      omega

theorem foldlM_step_empty_eq_ok_iff {r : Reading} {ds : Text} (hd : ∀ c ∈ ds, c.isDigit = true) :
    ds.foldlM step {} = .ok r ↔ r.mantissa = Nat.ofDigitChars 10 ds 0 ∧ r.scale = 0 ∧
      r.pointed = false ∧ r.started = !ds.isEmpty := by
  rw [foldlM_step_eq_ok_iff hd fun _ => rfl]
  simp

theorem foldlM_step_point_eq_ok_iff {r : Reading} {w f : Text} (hw : ∀ c ∈ w, c.isDigit = true)
    (hf : ∀ c ∈ f, c.isDigit = true) :
    (w ++ '.' :: f).foldlM step {} = .ok r ↔ r.mantissa = Nat.ofDigitChars 10 (w ++ f) 0 ∧
      r.scale = f.length ∧ r.pointed = true ∧ r.started = (!w.isEmpty || !f.isEmpty) := by
  simp only [List.foldlM_append, List.foldlM_cons, bind_eq_ok_iff, Nat.ofDigitChars_append]
  constructor
  · rintro ⟨r₁, h₁, r₂, h₂, h⟩
    obtain ⟨hm₁, hs₁, hp₁, hst₁⟩ := (foldlM_step_empty_eq_ok_iff hw).1 h₁
    rw [step_point hp₁ (by rw [hs₁]; decide)] at h₂
    cases h₂
    obtain ⟨hm, hs, hp, hst⟩ := (foldlM_step_eq_ok_iff hf (by simp)).1 h
    exact ⟨by rw [hm, hm₁], by simpa [hs₁] using hs, hp, by simp [hst, hst₁]⟩
  · rintro ⟨hm, hs, hp, hst⟩
    have hlt := r.mantissa_lt
    have hle := le_ofDigitChars f (Nat.ofDigitChars 10 w 0)
    have h₁ : w.foldlM step {} =
        .ok ⟨Nat.ofDigitChars 10 w 0, 0, false, !w.isEmpty, by omega, by decide⟩ :=
      (foldlM_step_empty_eq_ok_iff hw).2 ⟨rfl, rfl, rfl, rfl⟩
    refine ⟨_, h₁, _, step_point rfl (show 0 < maxScale by decide),
      (foldlM_step_eq_ok_iff hf (by simp)).2 ⟨hm, by simpa using hs, hp, hst⟩⟩

end Reading

variable {d : Decimal} {w f : Text}

theorem ofUnsignedLiteral_eq_ok_iff {t : Text} {m s : Nat} {p : Bool}
    (h : ∀ r : Reading, t.foldlM Reading.step {} = .ok r ↔
      r.mantissa = m ∧ r.scale = s ∧ r.pointed = p ∧ r.started = true) :
    ofUnsignedLiteral false t = .ok d ↔ d.negative = false ∧ d.mantissa = m ∧ d.scale = s := by
  rw [ofUnsignedLiteral, bind_eq_ok_iff]
  constructor
  · rintro ⟨r, hr, hd⟩
    obtain ⟨rfl, rfl, rfl, hst⟩ := (h r).1 hr
    rw [Reading.finish, if_pos hst, Except.ok.injEq] at hd
    subst hd
    exact ⟨rfl, rfl, rfl⟩
  · rintro ⟨hn, rfl, rfl⟩
    refine ⟨⟨d.mantissa, d.scale, p, true, d.mantissa_lt, d.scale_le⟩, (h _).2 ⟨rfl, rfl, rfl, rfl⟩, ?_⟩
    cases d
    cases hn
    rfl

theorem ofLiteral_append_of_isDigit (hne : w ≠ []) (hw : ∀ c ∈ w, c.isDigit = true) (t : Text) :
    ofLiteral (w ++ t) = ofUnsignedLiteral false (w ++ t) := by
  obtain ⟨c, w, rfl⟩ := List.exists_cons_of_ne_nil hne
  have hc := hw c (by simp)
  rw [List.cons_append]
  unfold ofLiteral
  split <;> simp_all

theorem ofLiteral_eq_ok_iff (hne : w ≠ []) (hw : ∀ c ∈ w, c.isDigit = true) :
    ofLiteral w = .ok d ↔
      d.negative = false ∧ d.mantissa = Nat.ofDigitChars 10 w 0 ∧ d.scale = 0 := by
  have hd := ofLiteral_append_of_isDigit hne hw []
  rw [List.append_nil] at hd
  have hst : (!w.isEmpty) = true := by simpa using hne
  rw [hd]
  refine ofUnsignedLiteral_eq_ok_iff (p := false) fun r => ?_
  rw [Reading.foldlM_step_empty_eq_ok_iff hw, hst]

theorem ofLiteral_point_eq_ok_iff (hne : w ≠ []) (hw : ∀ c ∈ w, c.isDigit = true)
    (hf : ∀ c ∈ f, c.isDigit = true) :
    ofLiteral (w ++ '.' :: f) = .ok d ↔
      d.negative = false ∧ d.mantissa = Nat.ofDigitChars 10 (w ++ f) 0 ∧ d.scale = f.length := by
  have hst : (!w.isEmpty) = true := by simpa using hne
  rw [ofLiteral_append_of_isDigit hne hw]
  refine ofUnsignedLiteral_eq_ok_iff (p := true) fun r => ?_
  rw [Reading.foldlM_step_point_eq_ok_iff hw hf, hst, Bool.true_or]

/-! ### Texts without a digit -/

theorem Reading.started_of_step_eq_ok {r r' : Reading} {c : Char} (hc : c.isDigit = false)
    (h : r.step c = .ok r') : r'.started = r.started := by
  rw [step, hc] at h
  split at h
  · simp only [Bool.false_eq_true, if_false] at h
    split at h
    · split at h <;> cases h
      rfl
    · split at h
      · split at h <;> cases h
        rfl
      · cases h
  · cases h

theorem Reading.started_of_foldlM_step_eq_ok {r r' : Reading} {t : Text}
    (ht : ∀ c ∈ t, c.isDigit = false) (h : t.foldlM step r = .ok r') : r'.started = r.started := by
  induction t generalizing r with
  | nil => cases h; rfl
  | cons c t ih =>
    rw [List.foldlM_cons, bind_eq_ok_iff] at h
    obtain ⟨r₁, h₁, h⟩ := h
    rw [ih (fun d hd => ht d (by simp [hd])) h, started_of_step_eq_ok (ht c (by simp)) h₁]

theorem exists_ofUnsignedLiteral_eq_error {t : Text} (ht : ∀ c ∈ t, c.isDigit = false)
    (negative : Bool) : ∃ fault, ofUnsignedLiteral negative t = .error fault := by
  rw [ofUnsignedLiteral]
  rcases h : t.foldlM Reading.step {} with fault | r
  · exact ⟨fault, rfl⟩
  · have hst : r.started = false := Reading.started_of_foldlM_step_eq_ok ht h
    exact ⟨.noDigits, if_neg (by simp [hst])⟩

/-- Without a digit there is no decimal, whatever signs, points and underscores there are. -/
theorem exists_ofLiteral_eq_error {t : Text} (ht : ∀ c ∈ t, c.isDigit = false) :
    ∃ fault, ofLiteral t = .error fault := by
  unfold ofLiteral
  split
  · exact ⟨.empty, rfl⟩
  · exact exists_ofUnsignedLiteral_eq_error (fun c hc => ht c (by simp [hc])) true
  · exact exists_ofUnsignedLiteral_eq_error (fun c hc => ht c (by simp [hc])) false
  · exact exists_ofUnsignedLiteral_eq_error ht false

end Decimal

end Abacus
