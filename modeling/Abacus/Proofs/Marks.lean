import Abacus.Proofs.Layout
import Abacus.Proofs.Locale

/-! # Numbers in the convention of a locale

`Conventions.Writes` says how a decimal is written in a locale: in its plain form, but with the mark of
the locale for the point and with grouping marks wherever one likes among the digits of the whole part.

`evaluate_of_writes`: under the separators of the locale such a text is a single number, the decimal that
was written with all its places, whatever characters the two marks are, as long as they are no digits. -/

namespace Abacus

/-! ### Digits with marks between them -/

/-- A mark may stand any number of times between two digits that follow each other. -/
inductive Marked (mark : Option Char) : (digits text : Text) → Prop where
  | last (c : Char) : Marked mark [c] [c]
  | cons (c : Char) {digits marks text : Text} (hmarks : ∀ m ∈ marks, mark = some m)
      (h : Marked mark digits text) : Marked mark (c :: digits) (c :: (marks ++ text))

namespace Marked
variable {mark : Option Char} {digits text : Text}

theorem self : ∀ {digits : Text}, digits ≠ [] → Marked mark digits digits
  | [], hne => absurd rfl hne
  | [c], _ => .last c
  | c :: d :: digits, _ => .cons c (List.forall_mem_nil _) (self (List.cons_ne_nil d digits))

theorem head?_eq (h : Marked mark digits text) : text.head? = digits.head? := by
  cases h <;> rfl

theorem mem_or_eq_mark (h : Marked mark digits text) {c : Char} (hc : c ∈ text) :
    c ∈ digits ∨ mark = some c := by
  induction h with
  | last d => exact .inl hc
  | cons d hmarks _ ih =>
    rcases List.mem_cons.1 hc with rfl | hc
    · exact .inl (by simp)
    · rcases List.mem_append.1 hc with hc | hc
      · exact .inr (hmarks c hc)
      · exact (ih hc).imp_left (List.mem_cons_of_mem d)

/-- Without the marks the digits are left. -/
theorem filter_eq (h : Marked mark digits text) {p : Char → Bool} (hdigits : ∀ c ∈ digits, p c = true)
    (hmark : ∀ c ∈ mark, p c = false) : text.filter p = digits := by
  induction h with
  | last c => exact List.filter_eq_self.2 hdigits
  | @cons c digits marks text hmarks _ ih =>
    have hnone : marks.filter p = [] := by
      rw [List.filter_eq_nil_iff]
      intro m hm
      simp [hmark m (hmarks m hm)]
    rw [List.filter_cons_of_pos (hdigits c (by simp)), List.filter_append, hnone, List.nil_append,
      ih fun d hd => hdigits d (by simp [hd])]

end Marked

/-! ### Writing a decimal -/

/-- The parts of the plain form on both sides of its point. -/
theorem Decimal.display_eq_append_point_iff {d : Decimal} (hd : d.negative = false) {w f : Text} :
    d.display = w ++ '.' :: f ↔ d.scale ≠ 0 ∧ w = d.wholeDigits ∧ f = d.fractionDigits := by
  have hw : '.' ∉ d.wholeDigits := fun h => absurd (d.isDigit_of_mem_wholeDigits h) (by decide)
  have hf : '.' ∉ d.fractionDigits := fun h => absurd (d.isDigit_of_mem_fractionDigits h) (by decide)
  rw [display_of_nonneg hd]
  by_cases hs : d.scale = 0
  · rw [if_pos hs, List.append_nil]
    refine ⟨fun h => absurd ?_ hw, fun h => absurd hs h.1⟩
    rw [h]
    simp
  · rw [if_neg hs, List.append_cons_inj_of_notMem hw hf]
    simp [hs, eq_comm]

namespace Conventions
variable {c : Conventions} {d : Decimal} {text : Text}

/-- The text is the plain form of the decimal with the decimal mark in the place of the point and with
grouping marks between the digits before it. -/
def Writes (c : Conventions) (d : Decimal) (text : Text) : Prop :=
  ∃ whole fraction marked, d.display = whole ++ '.' :: fraction ∧ Marked c.grouping whole marked ∧
    text = marked ++ c.decimal :: fraction

theorem exists_writes_iff (hd : d.negative = false) : (∃ text, c.Writes d text) ↔ 1 ≤ d.scale := by
  simp only [Writes, Decimal.display_eq_append_point_iff hd]
  constructor
  · rintro ⟨-, -, -, -, ⟨hs, -⟩, -⟩
    exact Nat.pos_of_ne_zero hs
  · intro hs
    exact ⟨_, _, _, _, ⟨Nat.ne_of_gt hs, rfl, rfl⟩, .self d.wholeDigits_ne_nil, rfl⟩

theorem contains_decimal (c : Conventions) : c.separators.contains c.decimal = true := by
  simp [Separators.contains, Separators.isAdded, separators]

theorem contains_of_grouping_eq {m : Char} (h : c.grouping = some m) :
    c.separators.contains m = true := by
  simp [Separators.contains, Separators.isAdded, separators, h]

theorem scan_of_writes (hc : c.separators.Avoids Char.isDigit) (hd : d.negative = false)
    (h : c.Writes d text) : scan c.separators text = ⟨[⟨.number d, 0⟩], none⟩ := by
  obtain ⟨whole, fraction, marked, hdisplay, hmarked, rfl⟩ := h
  obtain ⟨hs, rfl, rfl⟩ := (Decimal.display_eq_append_point_iff hd).1 hdisplay
  have hfilter : marked.filter (fun m => !c.separators.contains m) = d.wholeDigits := by
    refine hmarked.filter_eq (fun m hm => ?_) fun m hm => by simp [contains_of_grouping_eq hm]
    simp [hc.contains_digit (d.isDigit_of_mem_wholeDigits hm)]
  have hrun : ∀ m ∈ marked ++ c.decimal :: d.fractionDigits, c.separators.acceptsInRun m = true := by
    refine List.forall_mem_append.2 ⟨fun m hm => ?_, List.forall_mem_cons.2 ⟨?_, fun m hm => ?_⟩⟩
    · rcases hmarked.mem_or_eq_mark hm with hm | hm
      · exact Separators.acceptsInRun_of_isDigit (d.isDigit_of_mem_wholeDigits hm)
      · exact Separators.acceptsInRun_of_contains (contains_of_grouping_eq hm)
    · exact Separators.acceptsInRun_of_contains c.contains_decimal
    · exact Separators.acceptsInRun_of_isDigit (d.isDigit_of_mem_fractionDigits hm)
  -- the text begins as the plain form does, with a digit
  have hhead : ∃ m ∈ (marked ++ c.decimal :: d.fractionDigits).head?, m.isDigit = true := by
    obtain ⟨m, hm, hdigit⟩ := d.exists_digit_mem_head?_wholeDigits
    refine ⟨m, ?_, hdigit⟩
    rw [List.head?_append, hmarked.head?_eq, Option.mem_def.1 hm]
    rfl
  exact scan_of_read_eq_ok hhead hrun
    (Numeral.read_separated hc hd hs c.contains_decimal hfilter hrun)

/-- A decimal with places that is written in the convention of a locale is read exactly: the text is a
single number, at its beginning, and evaluates to the decimal with every place. The marks can be any
characters but digits; no known locale has others. -/
theorem evaluate_of_writes
    (hc : c.separators.Avoids Char.isDigit ∨ ∃ name, ofName? name = some c) (hd : d.negative = false) :
    ((∃ text, c.Writes d text) ↔ 1 ≤ d.scale) ∧
    ∀ text, c.Writes d text → evaluate c.separators text = .ok d ∧
      tokenize c.separators text = .ok [⟨.number d, 0⟩] := by
  refine ⟨exists_writes_iff hd, fun text h => ?_⟩
  have havoids : c.separators.Avoids Char.isDigit := by
    rcases hc with hc | ⟨name, hname⟩
    · exact hc
    · exact avoids_digit_of_ofName?_eq_some hname
  have hscan := scan_of_writes havoids hd h
  refine ⟨evaluate_eq_ok_iff.2 ?_, tokenize_eq_ok_iff.2 ?_⟩
  · rw [hscan]
    exact ⟨rfl, rfl⟩
  · rw [hscan]
    exact ⟨rfl, rfl⟩

end Conventions

namespace PlusForPoint

/-- A plus sign and a line break as marks. -/
def conventions : Conventions := ⟨'+', some '\n'⟩

def amount : Decimal := ⟨false, 12050000, 5, by decide, by decide⟩

/-- The plain form is 120.50000. -/
def text : Text := ['1', '\n', '\n', '2', '0', '+', '5', '0', '0', '0', '0']

theorem evaluate_amount : conventions.Writes amount text ∧
    evaluate conventions.separators text = .ok amount ∧
    tokenize conventions.separators text = .ok [⟨.number amount, 0⟩] := by
  have hmarks : ∀ m ∈ ['\n', '\n'], conventions.grouping = some m := by simp [conventions]
  have hmarked : Marked conventions.grouping ['1', '2', '0'] ['1', '\n', '\n', '2', '0'] :=
    .cons '1' hmarks (.cons '2' (List.forall_mem_nil _) (.last '0'))
  have hwrites : conventions.Writes amount text :=
    ⟨['1', '2', '0'], ['5', '0', '0', '0', '0'], _, by decide, hmarked, rfl⟩
  exact ⟨hwrites, (Conventions.evaluate_of_writes (.inl (by decide)) rfl).2 text hwrites⟩

end PlusForPoint

end Abacus
