import Abacus.Locale.Conventions
import Abacus.Proofs.Evaluation

/-! # What is asked of the separators

A scan asks of its separators which characters of the source are among them, and nothing else: sets
that agree on these characters lead to the same scan (`scan_congr`), and so to the same lexemes, value
or error (`evaluate_agreement`). Which mark is the decimal one does not matter. -/

namespace Abacus

namespace Separators

/-- The same characters of a text are among the separators of both sets. -/
def AgreeOn (S T : Separators) (t : Text) : Prop := ∀ c ∈ t, S.contains c = T.contains c

variable {S T : Separators} {t u : Text}

theorem AgreeOn.of_subset (h : S.AgreeOn T t) (hu : u ⊆ t) : S.AgreeOn T u := fun c hc => h c (hu hc)

theorem AgreeOn.acceptsInRun (h : S.AgreeOn T t) : ∀ c ∈ t, S.acceptsInRun c = T.acceptsInRun c := by
  intro c hc
  rw [Separators.acceptsInRun, h c hc, Separators.acceptsInRun]

theorem agreeOn_swap (a b : Option Char) (t : Text) : AgreeOn ⟨a, b⟩ ⟨b, a⟩ t := by
  intro c _
  rw [contains, contains, isAdded, isAdded, Bool.or_comm (a == some c)]

/-- Marks that need no locale add nothing. -/
theorem agreeOn_of_isCommon (hdecimal : ∀ c ∈ S.decimal, isCommon c = true)
    (hgrouping : ∀ c ∈ S.grouping, isCommon c = true) (t : Text) : S.AgreeOn {} t := by
  intro c _
  have hadded : S.isAdded c = true → isCommon c = true := by
    intro h
    simp only [isAdded, Bool.or_eq_true, beq_iff_eq] at h
    exact h.elim (hdecimal c) (hgrouping c)
  have hnone : isAdded {} c = false := rfl
  rw [contains, contains, hnone, Bool.or_false]
  cases hc : isCommon c with
  | true => rfl
  | false =>
    cases ha : S.isAdded c with
    | false => rfl
    | true => rw [hadded ha] at hc; cases hc

end Separators

/-! ### Agreement along a scan -/

section Lists
variable {α : Type} {p q : α → Bool} {l : List α}

theorem takeWhile_congr (h : ∀ x ∈ l, p x = q x) : l.takeWhile p = l.takeWhile q := by
  induction l with
  | nil => rfl
  | cons x l ih =>
    rw [List.takeWhile_cons, List.takeWhile_cons, h x (by simp), ih fun y hy => h y (by simp [hy])]

theorem dropWhile_congr (h : ∀ x ∈ l, p x = q x) : l.dropWhile p = l.dropWhile q := by
  induction l with
  | nil => rfl
  | cons x l ih =>
    rw [List.dropWhile_cons, List.dropWhile_cons, h x (by simp), ih fun y hy => h y (by simp [hy])]

theorem splitOnP_congr (h : ∀ x ∈ l, p x = q x) : l.splitOnP p = l.splitOnP q := by
  induction l with
  | nil => rw [List.splitOnP_nil, List.splitOnP_nil]
  | cons x l ih =>
    rw [List.splitOnP_cons_eq_if_modifyHead, List.splitOnP_cons_eq_if_modifyHead, h x (by simp),
      ih fun y hy => h y (by simp [hy])]

end Lists

variable {S T : Separators}

theorem pieces_congr {t : Text} (h : S.AgreeOn T t) : pieces S t = pieces T t := by
  fun_induction pieces T t with
  | case1 => rw [pieces]
  | case2 c t hb ih => rw [pieces_blank hb, ih (h.of_subset (by simp))]
  | case3 c t _ s hs ih =>
    rw [Symbol.ofChar?_eq_some_iff.1 hs, pieces_symbol, ih (h.of_subset (by simp))]
  | case4 c t hb hs hr ih =>
    have ht : S.AgreeOn T t := h.of_subset (by simp)
    have hrest : S.AgreeOn T (t.dropWhile T.acceptsInRun) :=
      ht.of_subset (List.dropWhile_sublist _).subset
    rw [← h.acceptsInRun c (by simp)] at hr
    rw [pieces_run (by simpa using hb) hs hr, takeWhile_congr ht.acceptsInRun,
      dropWhile_congr ht.acceptsInRun, ih hrest]
  | case5 c t hb hs hr ih =>
    rw [← h.acceptsInRun c (by simp)] at hr
    rw [pieces_stray (by simpa using hb) hs (by simpa using hr), ih (h.of_subset (by simp))]

namespace Numeral

theorem startsWithSeparator_congr {run : Text} (h : S.AgreeOn T run) :
    startsWithSeparator S run = startsWithSeparator T run := by
  cases run with
  | nil => rfl
  | cons c run => exact h c (by simp)

theorem read_congr {run : Text} (h : S.AgreeOn T run) : read S run = read T run := by
  rw [read, read, canonical, canonical, groups, groups, splitOnP_congr h, startsWithSeparator_congr h]

end Numeral

theorem Piece.token?_congr {p : Piece} (h : S.AgreeOn T p.text) : p.token? S = p.token? T := by
  cases p with
  | run t =>
    have hread : Numeral.read S t = Numeral.read T t := Numeral.read_congr h
    rw [token?, token?, hread]
  | blank c => rfl
  | symbol s => rfl
  | stray c => rfl

theorem Scan.ofPieces_congr {ps : List Piece} (h : ∀ p ∈ ps, p.token? S = p.token? T)
    (cursor : Cursor) (byte : Nat) : ofPieces S cursor byte ps = ofPieces T cursor byte ps := by
  induction ps generalizing cursor byte with
  | nil => rfl
  | cons p ps ih =>
    have hps : ∀ q ∈ ps, q.token? S = q.token? T := fun q hq => h q (by simp [hq])
    rw [ofPieces, ofPieces, h p (by simp)]
    simp only [ih hps]

/-- Separators that agree on a source scan it in the same way. -/
theorem scan_congr {source : Text} (h : S.AgreeOn T source) : scan S source = scan T source := by
  have htext : ∀ p ∈ pieces T source, S.AgreeOn T p.text := by
    intro p hp
    refine h.of_subset fun c hc => ?_
    rw [← flatMap_text_pieces T source]
    exact List.mem_flatMap.2 ⟨p, hp, hc⟩
  rw [scan, scan, pieces_congr h, Scan.ofPieces_congr fun p hp => Piece.token?_congr (htext p hp)]

theorem tokenize_evaluate_congr {source : Text} (h : S.AgreeOn T source) :
    tokenize S source = tokenize T source ∧ evaluate S source = evaluate T source := by
  rw [tokenize, tokenize, evaluate, evaluate, scan_congr h]
  exact ⟨rfl, rfl⟩

/-- Separators count only by which characters of the source they contain. So the two marks of a locale
can change places, and a locale whose marks need none is as good as no locale. -/
theorem evaluate_agreement (source : Text) :
    (∀ S T : Separators, (∀ c ∈ source, S.contains c = T.contains c) →
      tokenize S source = tokenize T source ∧ evaluate S source = evaluate T source) ∧
    (∀ a b : Option Char,
      tokenize ⟨a, b⟩ source = tokenize ⟨b, a⟩ source
        ∧ evaluate ⟨a, b⟩ source = evaluate ⟨b, a⟩ source) ∧
    (∀ locale : Conventions, Separators.isCommon locale.decimal = true →
      (∀ c ∈ locale.grouping, Separators.isCommon c = true) →
      tokenize locale.separators source = tokenize {} source
        ∧ evaluate locale.separators source = evaluate {} source) := by
  refine ⟨fun S T h => tokenize_evaluate_congr h, fun a b => ?_, fun locale hdecimal hgrouping => ?_⟩
  · exact tokenize_evaluate_congr (Separators.agreeOn_swap a b source)
  · have hmark : ∀ c ∈ locale.separators.decimal, Separators.isCommon c = true := by
      rintro c ⟨⟩
      exact hdecimal
    exact tokenize_evaluate_congr (Separators.agreeOn_of_isCommon hmark hgrouping source)

namespace EighthTwice

/-- Twice one and an eighth, with the Arabic mark. -/
def source : Text := ['1', '\u066b', '1', '2', '5', '*', '2']

/-- The same mark in the other place, and one that does not occur. -/
def separators : Separators := ⟨some '%', some '\u066b'⟩

def value : Decimal := ⟨false, 2250, 3, by decide, by decide⟩

theorem evaluate_eighthTwice :
    (∀ c ∈ source, Conventions.arabic.separators.contains c = separators.contains c) ∧
    evaluate Conventions.arabic.separators source = .ok value ∧
    evaluate separators source = .ok value ∧
    Separators.isCommon Conventions.commaNarrowSpace.decimal = true ∧
    (∀ c ∈ Conventions.commaNarrowSpace.grouping, Separators.isCommon c = true) ∧
    evaluate {} source = .error ⟨.scanning ⟨.strayCharacter '\u066b', 1⟩, 1⟩ ∧
    evaluate Conventions.commaNarrowSpace.separators source
      = .error ⟨.scanning ⟨.strayCharacter '\u066b', 1⟩, 1⟩ := by
  have hall : source.all (fun c =>
      Conventions.arabic.separators.contains c == separators.contains c) = true := by decide +kernel
  have hagree : ∀ c ∈ source, Conventions.arabic.separators.contains c = separators.contains c :=
    fun c hc => eq_of_beq (List.all_eq_true.1 hall c hc)
  have hvalue : evaluate Conventions.arabic.separators source = .ok value := by decide +kernel
  have hdecimal : Separators.isCommon Conventions.commaNarrowSpace.decimal = true := by decide
  have hgrouping : ∀ c ∈ Conventions.commaNarrowSpace.grouping, Separators.isCommon c = true := by
    rintro c ⟨⟩
    decide
  have hstray : evaluate {} source = .error ⟨.scanning ⟨.strayCharacter '\u066b', 1⟩, 1⟩ := by
    decide +kernel
  obtain ⟨hsame, -, hlocale⟩ := evaluate_agreement source
  refine ⟨hagree, hvalue, ?_, hdecimal, hgrouping, hstray, ?_⟩
  · rw [← (hsame _ _ hagree).2, hvalue]
  · rw [(hlocale _ hdecimal hgrouping).2, hstray]

end EighthTwice

end Abacus
