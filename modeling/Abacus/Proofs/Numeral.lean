import Abacus.Numeral
import Abacus.Proofs.Decimal.Literal

/-! # Reading numerals

`Groups` says from left to right what the groups of a run are. Every run has exactly one list of groups,
the one that `groups` computes (`groups_iff`); together they have the digits of the run
(`flatten_groups`), and separators behind the run change nothing (`read_append_separators`).

`read_run`: a run with a group is a number exactly if the digits of its groups write one in range, and is
then this number. `read_display`: whatever a locale adds, as long as it is no digit, a decimal without a
sign is read back from its plain form. -/

namespace Abacus

namespace Separators

/-- No separator that a locale adds is a character of this kind. -/
def Avoids (S : Separators) (kind : Char → Bool) : Prop :=
  (∀ c ∈ S.decimal, kind c = false) ∧ ∀ c ∈ S.grouping, kind c = false

instance (S : Separators) (kind : Char → Bool) : Decidable (S.Avoids kind) :=
  @instDecidableAnd _ _ (Option.decidableForallMem S.decimal) (Option.decidableForallMem S.grouping)

variable {S : Separators} {c : Char}

theorem Avoids.isAdded_eq_false {kind : Char → Bool} (h : S.Avoids kind) (hc : kind c = true) :
    S.isAdded c = false := by
  cases ha : S.isAdded c with
  | false => rfl
  | true =>
    simp only [isAdded, Bool.or_eq_true, beq_iff_eq] at ha
    rw [ha.elim (h.1 c) (h.2 c)] at hc
    cases hc

theorem Avoids.contains_digit (h : S.Avoids Char.isDigit) (hc : c.isDigit = true) :
    S.contains c = false := by
  rw [contains, not_isCommon_of_isDigit hc, h.isAdded_eq_false hc]
  rfl

theorem Avoids.not_isDigit_of_contains (h : S.Avoids Char.isDigit) (hc : S.contains c = true) :
    c.isDigit = false := by
  cases hd : c.isDigit with
  | false => rfl
  | true => rw [h.contains_digit hd] at hc; cases hc

theorem contains_point : S.contains '.' = true := rfl

end Separators

namespace Numeral
variable {S : Separators} {run w t tail whole fraction : Text} {gs : List Text}

/-! ### Groups -/

/-- The groups of a run, from left to right. Separators belong to none of them, and a group goes on to
the next separator or to the end. -/
inductive Groups (S : Separators) : Text → List Text → Prop where
  | finished : Groups S [] []
  | separator {c : Char} {t : Text} {gs : List Text} (hc : S.contains c = true) (ht : Groups S t gs) :
      Groups S (c :: t) gs
  | group {w t : Text} {gs : List Text} (hne : w ≠ []) (hw : ∀ c ∈ w, S.contains c = false)
      (hend : ∀ c ∈ t.head?, S.contains c = true) (ht : Groups S t gs) : Groups S (w ++ t) (w :: gs)

theorem exists_groups (S : Separators) (run : Text) : ∃ gs, Groups S run gs := by
  induction run with
  | nil => exact ⟨[], .finished⟩
  | cons c t ih =>
    obtain ⟨gs, h⟩ := ih
    cases hc : S.contains c with
    | true => exact ⟨gs, .separator hc h⟩
    | false =>
      -- the character begins a group, or belongs to the one that the rest begins with
      have hsingle : ∀ d ∈ [c], S.contains d = false := by simpa using hc
      cases h with
      | finished => exact ⟨[[c]], .group (List.cons_ne_nil c []) hsingle (by simp) .finished⟩
      | separator hd ht =>
        exact ⟨_, .group (List.cons_ne_nil c []) hsingle (by simpa using hd) (.separator hd ht)⟩
      | group hne hw hend ht =>
        exact ⟨_, .group (List.cons_ne_nil c _) (List.forall_mem_cons.2 ⟨hc, hw⟩) hend ht⟩

theorem groups_append_separator {c : Char} (hc : S.contains c = true) (a b : Text) :
    groups S (a ++ c :: b) = groups S a ++ groups S b := by
  rw [groups, List.splitOnP_append_cons a b hc, List.filter_append]
  rfl

theorem groups_nil : groups S [] = [] := by simp [groups]

theorem groups_cons_separator {c : Char} (hc : S.contains c = true) (t : Text) :
    groups S (c :: t) = groups S t := by
  have h := groups_append_separator hc [] t
  rwa [List.nil_append, groups_nil] at h

theorem groups_of_separators (h : ∀ c ∈ tail, S.contains c = true) : groups S tail = [] := by
  induction tail with
  | nil => exact groups_nil
  | cons c tail ih => rw [groups_cons_separator (h c (by simp)), ih fun d hd => h d (by simp [hd])]

theorem groups_of_digits (hne : w ≠ []) (h : ∀ c ∈ w, S.contains c = false) : groups S w = [w] := by
  rw [groups, List.splitOnP_eq_singleton h]
  simp [hne]

theorem groups_append_separators (h : ∀ c ∈ tail, S.contains c = true) (a : Text) :
    groups S (a ++ tail) = groups S a := by
  cases tail with
  | nil => simp
  | cons c tail =>
    have htail : groups S tail = [] := groups_of_separators fun d hd => h d (by simp [hd])
    rw [groups_append_separator (h c (by simp)), htail, List.append_nil]

theorem Groups.eq_groups (h : Groups S run gs) : gs = groups S run := by
  induction h with
  | finished => exact groups_nil.symm
  | separator hc _ ih => rw [groups_cons_separator hc, ih]
  | @group w t gs hne hw hend _ ih =>
    cases t with
    | nil => rw [List.append_nil, groups_of_digits hne hw, ih, groups_nil]
    | cons c t =>
      have hc : S.contains c = true := hend c rfl
      rw [groups_append_separator hc, groups_of_digits hne hw, ih, groups_cons_separator hc]
      rfl

theorem groups_iff : Groups S run gs ↔ gs = groups S run := by
  refine ⟨Groups.eq_groups, ?_⟩
  rintro rfl
  obtain ⟨gs, h⟩ := exists_groups S run
  rwa [← h.eq_groups]

/-- No character but the separators is lost. -/
theorem flatten_groups (S : Separators) (run : Text) :
    (groups S run).flatten = run.filter fun c => !S.contains c := by
  obtain ⟨gs, h⟩ := exists_groups S run
  rw [← h.eq_groups]
  induction h with
  | finished => rfl
  | separator hc _ ih => rw [ih, List.filter_cons_of_neg (by simp [hc])]
  | @group w t gs _ hw _ _ ih =>
    have hfilter : w.filter (fun c => !S.contains c) = w :=
      List.filter_eq_self.2 fun c hc => by simp [hw c hc]
    rw [List.flatten_cons, ih, List.filter_append, hfilter]

theorem groups_eq_nil_iff : groups S run = [] ↔ ∀ c ∈ run, S.contains c = true := by
  refine ⟨fun h c hc => ?_, groups_of_separators⟩
  have hflatten := flatten_groups S run
  rw [h, List.flatten_nil, eq_comm, List.filter_eq_nil_iff] at hflatten
  simpa using hflatten c hc

theorem ne_nil_of_mem_groups (h : w ∈ groups S run) : w ≠ [] := by
  simpa using (List.mem_filter.1 h).2

theorem startsWithSeparator_eq_any : startsWithSeparator S run = run.head?.any S.contains := by
  cases run <;> rfl

theorem startsWithSeparator_append (hne : w ≠ []) (t : Text) :
    startsWithSeparator S (w ++ t) = startsWithSeparator S w := by
  obtain ⟨c, w, rfl⟩ := List.exists_cons_of_ne_nil hne
  rfl

theorem startsWithSeparator_eq_false (hw : ∀ c ∈ w, S.contains c = false) :
    startsWithSeparator S w = false := by
  cases w with
  | nil => rfl
  | cons c w => exact hw c (by simp)

/-! ### Reading -/

/-- The digits of the whole part and those of the fraction. The last group is the fraction, and so is a
single one if a separator comes first. -/
def parts (leading : Bool) : List Text → Text × Text
  | [] => ([], [])
  | [w] => if leading then ([], w) else (w, [])
  | several => (several.dropLast.flatten, several.getLastD [])

theorem parts_append_singleton (hne : gs ≠ []) (leading : Bool) (f : Text) :
    parts leading (gs ++ [f]) = (gs.flatten, f) := by
  rcases gs with _ | ⟨w, _ | ⟨w', gs⟩⟩
  · exact absurd rfl hne
  · simp [parts]
  · show ((w :: w' :: gs ++ [f]).dropLast.flatten, (w :: w' :: gs ++ [f]).getLastD []) = _
    rw [List.dropLast_concat, List.getLastD_concat]

theorem append_parts (leading : Bool) (gs : List Text) :
    (parts leading gs).1 ++ (parts leading gs).2 = gs.flatten := by
  rcases List.eq_nil_or_concat gs with rfl | ⟨gs, w, rfl⟩
  · rfl
  · rw [List.concat_eq_append]
    by_cases hgs : gs = []
    · cases leading <;> simp [parts, hgs]
    · rw [parts_append_singleton hgs, List.flatten_append, List.flatten_singleton]

theorem mem_of_parts_eq
    (hparts : parts (startsWithSeparator S run) (groups S run) = (whole, fraction)) :
    ∀ c ∈ whole ++ fraction, c ∈ run ∧ S.contains c = false := by
  have hflatten : whole ++ fraction = (groups S run).flatten := by
    rw [← append_parts (startsWithSeparator S run), hparts]
  intro c hc
  rw [hflatten, flatten_groups, List.mem_filter, Bool.not_eq_true'] at hc
  exact hc

/-- The literals that are written for a run with a group. -/
theorem canonical_cases (hne : groups S run ≠ [])
    (hparts : parts (startsWithSeparator S run) (groups S run) = (whole, fraction)) :
    whole ≠ [] ∧ fraction = [] ∧ canonical S run = whole ∨
      whole = [] ∧ fraction ≠ [] ∧ canonical S run = '0' :: '.' :: fraction ∨
      whole ≠ [] ∧ fraction ≠ [] ∧ canonical S run = whole ++ '.' :: fraction := by
  have hne' : ∀ w ∈ groups S run, w ≠ [] := fun w => ne_nil_of_mem_groups
  rw [canonical]
  rcases hgs : groups S run with _ | ⟨w, _ | ⟨w', gs⟩⟩
  · exact absurd hgs hne
  · rw [hgs] at hparts hne'
    have hw : w ≠ [] := hne' w (by simp)
    cases hlead : startsWithSeparator S run with
    | false =>
      rw [hlead] at hparts
      obtain ⟨rfl, rfl⟩ := Prod.mk.inj hparts
      exact .inl ⟨hw, rfl, rfl⟩
    | true =>
      rw [hlead] at hparts
      obtain ⟨rfl, rfl⟩ := Prod.mk.inj hparts
      exact .inr (.inl ⟨rfl, hw, rfl⟩)
  · rw [hgs] at hparts hne'
    obtain ⟨rfl, rfl⟩ := Prod.mk.inj hparts
    refine .inr (.inr ⟨?_, ?_, rfl⟩)
    · rw [List.dropLast_cons_cons, List.flatten_cons]
      simp [hne' w (by simp)]
    · rw [List.getLastD_cons]
      exact hne' _ (List.getLastD_mem_cons ..)

theorem read_eq_ok_iff (hrun : ∀ c ∈ run, S.acceptsInRun c = true) (hne : groups S run ≠ [])
    (hparts : parts (startsWithSeparator S run) (groups S run) = (whole, fraction)) {d : Decimal} :
    read S run = .ok d ↔ d.negative = false ∧
      d.mantissa = Nat.ofDigitChars 10 (whole ++ fraction) 0 ∧ d.scale = fraction.length := by
  have hdigit : ∀ c ∈ whole ++ fraction, c.isDigit = true := by
    intro c hc
    obtain ⟨hmem, hclear⟩ := mem_of_parts_eq hparts c hc
    exact Separators.isDigit_of_acceptsInRun (hrun c hmem) hclear
  obtain ⟨hwhole, hfraction⟩ := List.forall_mem_append.1 hdigit
  rcases canonical_cases hne hparts with ⟨hw, rfl, h⟩ | ⟨rfl, -, h⟩ | ⟨hw, -, h⟩
  · rw [read, h, Decimal.ofLiteral_eq_ok_iff hw hwhole, List.append_nil, List.length_nil]
  · show Decimal.ofLiteral (canonical S run) = .ok d ↔ _
    have hzero : canonical S run = ['0'] ++ '.' :: fraction := h
    rw [hzero, Decimal.ofLiteral_point_eq_ok_iff (by simp) (by simp) hfraction,
      Nat.ofDigitChars_append]
    rfl
  · rw [read, h, Decimal.ofLiteral_point_eq_ok_iff hw hwhole hfraction]

/-- Separators behind a run change nothing. -/
theorem read_append_separators (hne : groups S run ≠ []) (ht : ∀ c ∈ tail, S.contains c = true) :
    read S (run ++ tail) = read S run := by
  have hrun : run ≠ [] := by
    rintro rfl
    exact hne groups_nil
  rw [read, read, canonical, canonical, groups_append_separators ht, startsWithSeparator_append hrun]
  rcases hgs : groups S run with _ | ⟨w, _ | ⟨w', gs⟩⟩
  · exact absurd hgs hne
  · rfl
  · rfl

theorem groups_ne_nil_of_read_eq_ok (hS : S.Avoids Char.isDigit) {d : Decimal}
    (h : read S run = .ok d) : groups S run ≠ [] := by
  intro hgs
  have hrun := groups_eq_nil_iff.1 hgs
  obtain ⟨fault, herror⟩ := Decimal.exists_ofLiteral_eq_error fun c hc =>
    hS.not_isDigit_of_contains (hrun c hc)
  rw [read, canonical, hgs, herror] at h
  cases h

/-- What a run of digits and separators stands for. Its groups say what its whole part and its fraction
are. With at least one group it is a number exactly if the digits of both parts together write a mantissa
in range and the fraction is not too long, and it is then the number with this mantissa and one place for
each digit of the fraction. A run of separators alone is no number, unless a locale makes separators of
digits. -/
theorem read_run (hrun : ∀ c ∈ run, S.acceptsInRun c = true) :
    ∃ gs, Groups S run gs ∧ (∀ gs', Groups S run gs' → gs' = gs) ∧
      (gs ≠ [] → ∀ whole fraction, parts (run.head?.any S.contains) gs = (whole, fraction) →
        ((∃ d, read S run = .ok d) ↔ Nat.ofDigitChars 10 (whole ++ fraction) 0 < Decimal.limit ∧
          fraction.length ≤ Decimal.maxScale) ∧
        ∀ d, read S run = .ok d → d.negative = false ∧
          d.mantissa = Nat.ofDigitChars 10 (whole ++ fraction) 0 ∧ d.scale = fraction.length) ∧
      (gs = [] → S.Avoids Char.isDigit → ∃ fault, read S run = .error fault) := by
  refine ⟨groups S run, groups_iff.2 rfl, fun gs' => groups_iff.1, ?_, ?_⟩
  · intro hne whole fraction hparts
    rw [← startsWithSeparator_eq_any] at hparts
    have hread : ∀ d, read S run = .ok d ↔ _ := fun d => read_eq_ok_iff hrun hne hparts
    refine ⟨⟨?_, ?_⟩, fun d => (hread d).1⟩
    · rintro ⟨d, hd⟩
      obtain ⟨-, hm, hs⟩ := (hread d).1 hd
      exact ⟨hm ▸ d.mantissa_lt, hs ▸ d.scale_le⟩
    · rintro ⟨hlt, hle⟩
      exact ⟨⟨false, _, _, hlt, hle⟩, (hread _).2 ⟨rfl, rfl, rfl⟩⟩
  · intro hnil hS
    rcases h : read S run with fault | d
    · exact ⟨fault, rfl⟩
    · exact absurd hnil (groups_ne_nil_of_read_eq_ok hS h)

namespace FivesApart

/-- The digit five is a separator here. -/
def separators : Separators := ⟨some '5', none⟩

def fives : Text := ['1', ' ', '2', '5', '3', ',', '5']

/-- One group, behind a separator. -/
def behindFive : Text := ['5', '7', '8']

theorem read_fives : Groups separators fives [['1'], ['2'], ['3']] ∧
    (∃ d, read separators fives = .ok d ∧ d.negative = false ∧ d.mantissa = 123 ∧ d.scale = 1) ∧
    (∃ d, read separators behindFive = .ok d ∧ d.negative = false ∧ d.mantissa = 78 ∧ d.scale = 2) ∧
    ∃ fault, read {} ['.', ','] = .error fault := by
  have hrun : ∀ c ∈ fives, separators.acceptsInRun c = true := List.all_eq_true.1 (by decide)
  have hbehind : ∀ c ∈ behindFive, separators.acceptsInRun c = true := List.all_eq_true.1 (by decide)
  have hmarks : ∀ c ∈ ['.', ','], Separators.acceptsInRun {} c = true := List.all_eq_true.1 (by decide)
  obtain ⟨gs, hgs, -, hvalue, -⟩ := read_run hrun
  obtain rfl : gs = [['1'], ['2'], ['3']] := groups_iff.1 hgs
  obtain ⟨hiff, hparts⟩ := hvalue (by decide) ['1', '2'] ['3'] rfl
  obtain ⟨d, hd⟩ := hiff.2 (by decide)
  obtain ⟨gs, hgs', -, hvalue', -⟩ := read_run hbehind
  obtain rfl : gs = [['7', '8']] := groups_iff.1 hgs'
  obtain ⟨hiff', hparts'⟩ := hvalue' (by decide) [] ['7', '8'] rfl
  obtain ⟨d', hd'⟩ := hiff'.2 (by decide)
  obtain ⟨gs, hgs'', -, -, hnone⟩ := read_run hmarks
  obtain rfl : gs = [] := groups_iff.1 hgs''
  exact ⟨hgs, ⟨d, hd, hparts d hd⟩, ⟨d', hd', hparts' d' hd'⟩, hnone rfl (by decide)⟩

end FivesApart

/-! ### Reading displayed decimals -/

/-- A decimal with places is read from its digits, with any separators among those of the whole part and
any separator before those of the fraction. -/
theorem read_separated (hS : S.Avoids Char.isDigit) {d : Decimal} (hd : d.negative = false)
    (hs : d.scale ≠ 0) {point : Char} (hpoint : S.contains point = true)
    (hwhole : t.filter (fun c => !S.contains c) = d.wholeDigits)
    (hrun : ∀ c ∈ t ++ point :: d.fractionDigits, S.acceptsInRun c = true) :
    read S (t ++ point :: d.fractionDigits) = .ok d := by
  have hf : ∀ c ∈ d.fractionDigits, S.contains c = false := fun c hc =>
    hS.contains_digit (d.isDigit_of_mem_fractionDigits hc)
  have hne : d.fractionDigits ≠ [] := by
    rw [← List.length_pos_iff, d.length_fractionDigits]
    exact Nat.pos_of_ne_zero hs
  have hgroups : groups S (t ++ point :: d.fractionDigits) = groups S t ++ [d.fractionDigits] := by
    rw [groups_append_separator hpoint, groups_of_digits hne hf]
  have hflatten : (groups S t).flatten = d.wholeDigits := (flatten_groups S t).trans hwhole
  have hne' : groups S t ≠ [] := by
    intro h
    rw [h, List.flatten_nil] at hflatten
    exact d.wholeDigits_ne_nil hflatten.symm
  rw [read_eq_ok_iff hrun (by simp [hgroups]) (by rw [hgroups, parts_append_singleton hne', hflatten])]
  exact ⟨hd, d.ofDigitChars_digits.symm, d.length_fractionDigits.symm⟩

theorem read_display (hS : S.Avoids Char.isDigit) {d : Decimal} (hd : d.negative = false)
    (ht : ∀ c ∈ tail, S.contains c = true) : read S (d.display ++ tail) = .ok d := by
  have hw : ∀ c ∈ d.wholeDigits, S.contains c = false := fun c hc =>
    hS.contains_digit (d.isDigit_of_mem_wholeDigits hc)
  have haccepts : ∀ c ∈ d.wholeDigits, S.acceptsInRun c = true := fun c hc =>
    Separators.acceptsInRun_of_isDigit (d.isDigit_of_mem_wholeDigits hc)
  have hread : read S d.display = .ok d := by
    rw [Decimal.display, hd]
    by_cases hs : d.scale = 0
    · -- without places the plain form has no point, so it is one group of digits
      have hgroups := groups_of_digits d.wholeDigits_ne_nil hw
      have hlead : startsWithSeparator S d.wholeDigits = false := startsWithSeparator_eq_false hw
      have hparts : parts (startsWithSeparator S d.wholeDigits) (groups S d.wholeDigits)
          = (d.wholeDigits, []) := by rw [hgroups, hlead]; rfl
      have hnil : d.fractionDigits = [] := List.length_eq_zero_iff.1 (d.length_fractionDigits.trans hs)
      have hm := d.ofDigitChars_digits
      rw [hnil] at hm
      simp only [hs, Bool.false_eq_true, if_true, if_false, List.nil_append, List.append_nil]
      rw [read_eq_ok_iff haccepts (by simp [hgroups]) hparts]
      exact ⟨hd, hm.symm, hs⟩
    · have hfilter : d.wholeDigits.filter (fun c => !S.contains c) = d.wholeDigits :=
        List.filter_eq_self.2 fun c hc => by simp [hw c hc]
      simp only [hs, Bool.false_eq_true, if_false, List.nil_append]
      refine read_separated hS hd hs Separators.contains_point hfilter (List.forall_mem_append.2
        ⟨haccepts, List.forall_mem_cons.2 ⟨rfl, fun c hc => ?_⟩⟩)
      exact Separators.acceptsInRun_of_isDigit (d.isDigit_of_mem_fractionDigits hc)
  rw [read_append_separators (groups_ne_nil_of_read_eq_ok hS hread) ht, hread]

end Numeral

end Abacus
