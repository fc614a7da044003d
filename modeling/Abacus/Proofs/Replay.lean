import Abacus.Proofs.Decimal.Normal
import Abacus.Proofs.Layout
import Abacus.Proofs.Lines
import Abacus.Proofs.Locale

/-! # Reading the output of a run

What a run writes to standard output is a list of values, each in its shortest form on a line of its own
(`Outcome.writesListing_ofCommand`). Read as an input, each line evaluates to its value, whatever the locale
(`Outcome.ofInput_listing`).

`ofCommand_stdout`: so a run on the output of another writes it once more and finds no error. -/

namespace Abacus

/-! ### The bytes of a displayed decimal -/

theorem Text.exists_mem_of_mem_encode {t : Text} (h : ∀ c ∈ t, c.toNat < 128) {b : UInt8}
    (hb : b ∈ t.encode) : ∃ c ∈ t, b.toNat = c.toNat := by
  obtain ⟨c, hc, hbytes⟩ := List.mem_flatMap.1 hb
  have hlt : c.toNat < 128 := h c hc
  have hsize : c.utf8Size = 1 := by
    rw [Char.utf8Size_eq_one_iff, UInt32.le_iff_toNat_le]
    exact Nat.le_of_lt_succ hlt
  rw [String.utf8EncodeChar_eq_singleton hsize, List.mem_singleton] at hbytes
  refine ⟨c, hc, ?_⟩
  rw [hbytes, UInt32.toNat_toUInt8]
  exact Nat.mod_eq_of_lt (Nat.lt_trans hlt (by decide))

namespace Decimal
variable {d : Decimal}

theorem eq_or_isDigit_of_mem_display {c : Char} (h : c ∈ d.display) :
    c = '-' ∨ c = '.' ∨ c.isDigit = true := by
  cases hd : d.negative with
  | false => exact .inr (eq_point_or_isDigit_of_mem_display hd h)
  | true =>
    rw [display_of_negative hd] at h
    rcases List.mem_cons.1 h with rfl | h
    · exact .inl rfl
    · exact .inr (eq_point_or_isDigit_of_mem_display (by simp [hd]) h)

theorem toNat_of_mem_display {c : Char} (h : c ∈ d.display) : 45 ≤ c.toNat ∧ c.toNat ≤ 57 := by
  rcases eq_or_isDigit_of_mem_display h with rfl | rfl | hdigit
  · decide
  · decide
  · have hc := Text.toNat_of_isDigit hdigit
    omega

/-- The bytes of a displayed decimal come after those that end a line. -/
theorem le_toNat_of_mem_encode_display {b : UInt8} (h : b ∈ d.display.encode) : 45 ≤ b.toNat := by
  have hascii : ∀ c ∈ d.display, c.toNat < 128 := by
    intro c hc
    have := toNat_of_mem_display hc
    omega
  obtain ⟨c, hc, hb⟩ := Text.exists_mem_of_mem_encode hascii h
  rw [hb]
  exact (toNat_of_mem_display hc).1

theorem newline_not_mem_encode_display (d : Decimal) : 0x0A ∉ d.display.encode := by
  intro h
  exact absurd (le_toNat_of_mem_encode_display h) (by decide)

theorem getLast?_encode_display_ne (d : Decimal) : d.display.encode.getLast? ≠ some 0x0D := by
  intro h
  exact absurd (le_toNat_of_mem_encode_display (List.mem_of_getLast? h)) (by decide)

theorem all_isBlank_display (d : Decimal) : d.display.all Text.isBlank = false := by
  obtain ⟨c, digits, hwhole⟩ := List.exists_cons_of_ne_nil d.wholeDigits_ne_nil
  have hc : c ∈ d.wholeDigits := by simp [hwhole]
  rw [List.all_eq_false]
  refine ⟨c, by simp [display, hc], ?_⟩
  rw [Text.not_isBlank_of_isDigit (d.isDigit_of_mem_wholeDigits hc)]
  exact Bool.false_ne_true

end Decimal

/-! ### Listings -/

/-- Values in their shortest form, each on a line of its own. -/
def listing (values : List Decimal) : Text :=
  values.flatMap fun v => v.normalize.display ++ ['\n']

theorem listing_cons (v : Decimal) (values : List Decimal) :
    listing (v :: values) = v.normalize.display ++ '\n' :: listing values := by
  simp [listing]

theorem listing_append (values more : List Decimal) :
    listing (values ++ more) = listing values ++ listing more := List.flatMap_append

theorem encode_listing_cons (v : Decimal) (values : List Decimal) :
    (listing (v :: values)).encode = v.normalize.display.encode ++ 0x0A :: (listing values).encode := by
  rw [listing_cons, Text.encode_append]
  rfl

namespace Outcome
variable {S : Separators}

/-- What a run has written to standard output is a listing. -/
def WritesListing (o : Outcome) : Prop := ∃ values, o.stdout = listing values

theorem WritesListing.of_stdout_eq_nil {o : Outcome} (h : o.stdout = []) : o.WritesListing := ⟨[], h⟩

theorem WritesListing.append {a b : Outcome} (ha : a.WritesListing) (hb : b.WritesListing) :
    (a ++ b).WritesListing := by
  obtain ⟨values, ha⟩ := ha
  obtain ⟨more, hb⟩ := hb
  exact ⟨values ++ more, by rw [stdout_append, ha, hb, listing_append]⟩

theorem writesListing_ofExpression (S : Separators) (source : Text) :
    (ofExpression S source).WritesListing := by
  rw [ofExpression]
  rcases evaluate S source with e | v
  · exact .of_stdout_eq_nil rfl
  · exact ⟨[v], by simp [listing]⟩

theorem writesListing_ofExpressions (S : Separators) (sources : List Text) :
    (ofExpressions S sources).WritesListing := by
  induction sources with
  | nil => exact .of_stdout_eq_nil rfl
  | cons source sources ih => exact (writesListing_ofExpression S source).append ih

theorem writesListing_ofLines (S : Separators) (lines : List (List UInt8)) :
    (ofLines S lines).WritesListing := by
  induction lines with
  | nil => exact .of_stdout_eq_nil rfl
  | cons line lines ih =>
    rw [ofLines]
    rcases decode? line with _ | source
    · exact .of_stdout_eq_nil rfl
    · dsimp only
      by_cases hblank : source.all Text.isBlank = true
      · rw [if_pos hblank]
        exact ih
      · rw [if_neg hblank]
        exact (writesListing_ofExpression S source).append ih

theorem writesListing_ofCommand (env : Environment) (arguments : List Text) (input : List UInt8) :
    (ofCommand env arguments input).WritesListing := by
  rw [ofCommand]
  split
  · rw [ofInput_eq_ofLines]
    exact writesListing_ofLines ..
  · exact writesListing_ofExpressions ..

/-! ### Reading a listing -/

/-- A shortest form evaluates to its own value, which is written as it was. -/
theorem ofExpression_display (hS : S.Avoids Char.isDigit) (v : Decimal) :
    ofExpression S v.normalize.display = { stdout := v.normalize.display ++ ['\n'] } := by
  have hvalue : evaluate S v.normalize.display = .ok v.normalize :=
    evaluate_eq_ok_iff.2 (scan_display hS v.normalize)
  rw [ofExpression, hvalue]
  simp only [v.normalize_normalize]

theorem ofInput_listing (hS : S.Avoids Char.isDigit) (values : List Decimal) :
    ofInput S (listing values).encode = { stdout := listing values } := by
  induction values with
  | nil => rfl
  | cons v values ih =>
    rw [encode_listing_cons, ofInput_encode_append S (Decimal.newline_not_mem_encode_display _)
      (Decimal.getLast?_encode_display_ne _) (Decimal.all_isBlank_display _), ofExpression_display hS,
      ih, listing_cons]
    simp [Outcome.ext_iff]

end Outcome

/-- A run that is given the output of another one as its input writes it once more and finds no error,
whatever the two runs are given else and whatever their locales. -/
theorem ofCommand_stdout (env env' : Environment) (arguments : List Text) (input : List UInt8) :
    let first := Outcome.ofCommand env arguments input
    let second := Outcome.ofCommand env' [] first.stdout.encode
    second.stdout = first.stdout ∧ second.stderr = [] ∧ second.exitCode = 0 := by
  obtain ⟨values, hvalues⟩ := Outcome.writesListing_ofCommand env arguments input
  have hsecond : Outcome.ofCommand env' [] (listing values).encode = { stdout := listing values } :=
    Outcome.ofInput_listing env'.separators_avoids_digit values
  dsimp only
  rw [hvalues, hsecond]
  exact ⟨rfl, rfl, rfl⟩

end Abacus
