import Abacus.Proofs.Decimal.Operation
import Abacus.Proofs.Evaluation
import Abacus.Proofs.Failure
import Abacus.Proofs.Grammar

/-! # When a value is exact

An operation other than division is exact if its exact result is the value of some decimal. Any other
result is rounded without notice, unless it is so large that it is out of range.

`evaluate_exact_iff`: without division the operations of an expression are all exact if and only if the
results that they would have without any rounding are all representable, and then the value is exact. -/

namespace Abacus

/-- Whether a number is the value of some decimal. -/
def Representable (x : ℚ) : Prop := ∃ d : Decimal, d.toRat = x

theorem representable_iff {x : ℚ} : Representable x ↔
    ∃ (n : ℤ) (scale : ℕ), n.natAbs < Decimal.limit ∧ scale ≤ Decimal.maxScale ∧ x = n / 10 ^ scale := by
  constructor
  · rintro ⟨d, rfl⟩
    refine ⟨d.signed, d.scale, ?_, d.scale_le, rfl⟩
    have hm : d.signed.natAbs = d.mantissa := by
      unfold Decimal.signed
      split <;> simp
    rw [hm]
    exact d.mantissa_lt
  · rintro ⟨n, scale, hn, hscale, rfl⟩
    refine ⟨⟨decide (n < 0), n.natAbs, scale, hn, hscale⟩, ?_⟩
    have hsigned : Decimal.signed ⟨decide (n < 0), n.natAbs, scale, hn, hscale⟩ = n := by
      simp only [Decimal.signed, decide_eq_true_eq]
      split <;> omega
    rw [Decimal.toRat, hsigned]

/-- Whether the operands of an application have values for which its operator has its exact result. -/
def Application.IsExact (a : Application) : Prop :=
  ∃ x y r, a.left = .ok x ∧ a.right = .ok y ∧ a.op.apply x y = .ok r ∧
    r.toRat = a.op.exact x.toRat y.toRat

/-! ### Exact values -/

mutual
/-- What a primary comes to if nothing is rounded. -/
def Primary.exact : Primary → ℚ
  | .number v => v.toRat
  | .positive p => p.exact
  | .negative p => -p.exact
  | .group e => e.exact

def Term.exact : Term → ℚ
  | .single p => p.exact
  | .product t op _ p => op.exact t.exact p.exact

def Expression.exact : Expression → ℚ
  | .single t => t.exact
  | .sum t op _ e => op.exact t.exact e.exact
end

mutual
/-- What the applications in a primary come to if nothing is rounded, in their order. -/
def Primary.results : Primary → List ℚ
  | .number _ => []
  | .positive p => p.results
  | .negative p => p.results
  | .group e => e.results

def Term.results : Term → List ℚ
  | .single p => p.results
  | .product t op _ p => t.results ++ p.results ++ [op.exact t.exact p.exact]

def Expression.results : Expression → List ℚ
  | .single t => t.results
  | .sum t op _ e => t.results ++ e.results ++ [op.exact t.exact e.exact]
end

/-! ### One operation -/

namespace Operator
variable {op : Operator} {a b : Decimal}

theorem exists_apply_eq_ok (h : ¬ (op = divide ∧ b.isZero))
    (hx : Representable (op.exact a.toRat b.toRat)) :
    ∃ r, op.apply a b = .ok r ∧ r.toRat = op.exact a.toRat b.toRat := by
  obtain ⟨d, hd⟩ := hx
  have hround := correctlyRounded_result? (a := a) h
  rw [← hd] at hround ⊢
  obtain ⟨r, hr, hvalue⟩ := hround.toRat_eq
  exact ⟨r, (apply_eq_ok_iff h).2 hr, hvalue⟩

theorem apply_eq_outOfRange_iff_le (h : ¬ (op = divide ∧ b.isZero)) :
    op.apply a b = .error .outOfRange ↔ 2 ^ 96 - 1 / 2 ≤ |op.exact a.toRat b.toRat| := by
  rw [apply_eq_outOfRange_iff h, (correctlyRounded_result? h).eq_none_iff,
    Decimal.forall_not_fits_iff]

end Operator

theorem Application.isExact_iff {a : Application} {x y : Decimal} (hx : a.left = .ok x)
    (hy : a.right = .ok y) (h : a.op ≠ .divide) :
    a.IsExact ↔ Representable (a.op.exact x.toRat y.toRat) := by
  constructor
  · rintro ⟨x', y', r, hx', hy', -, hr⟩
    cases hx.symm.trans hx'
    cases hy.symm.trans hy'
    exact ⟨r, hr⟩
  · intro hrep
    obtain ⟨r, hr, hvalue⟩ := Operator.exists_apply_eq_ok (fun hzero => h hzero.1) hrep
    exact ⟨x, y, r, hx, hy, hr, hvalue⟩

/-! ### All operations of an expression -/

/-- Applications are exact if and only if their exact results are representable, and then the value that
they lead to is exact. -/
structure Faithful (value : Except ReckonFault Decimal) (exact : ℚ) (applications : List Application)
    (results : List ℚ) : Prop where
  isExact_iff : (∀ a ∈ applications, a.IsExact) ↔ ∀ x ∈ results, Representable x
  exists_value : (∀ x ∈ results, Representable x) → ∃ v, value = .ok v ∧ v.toRat = exact

namespace Faithful
variable {left right : Except ReckonFault Decimal} {x y : ℚ} {as bs : List Application} {xs ys : List ℚ}

theorem neg (h : Faithful left x as xs) : Faithful (do return -(← left)) (-x) as xs := by
  refine ⟨h.isExact_iff, fun hxs => ?_⟩
  obtain ⟨v, rfl, rfl⟩ := h.exists_value hxs
  exact ⟨-v, rfl, Decimal.toRat_neg v⟩

/-- Two operands and the application that joins them. -/
theorem join (hl : Faithful left x as xs) (hr : Faithful right y bs ys) {op : Operator}
    (hop : op ≠ .divide) (i : Nat) :
    Faithful (do op.apply (← left) (← right)) (op.exact x y) (as ++ bs ++ [⟨i, op, left, right⟩])
      (xs ++ ys ++ [op.exact x y]) := by
  constructor
  · simp only [List.forall_mem_append, List.forall_mem_singleton, hl.isExact_iff, hr.isExact_iff]
    -- an operand need not have a value unless its own results are representable
    refine and_congr_right fun ⟨hxs, hys⟩ => ?_
    obtain ⟨v, hv, rfl⟩ := hl.exists_value hxs
    obtain ⟨w, hw, rfl⟩ := hr.exists_value hys
    exact Application.isExact_iff hv hw hop
  · simp only [List.forall_mem_append, List.forall_mem_singleton]
    rintro ⟨⟨hxs, hys⟩, hxy⟩
    obtain ⟨v, rfl, rfl⟩ := hl.exists_value hxs
    obtain ⟨w, rfl, rfl⟩ := hr.exists_value hys
    exact Operator.exists_apply_eq_ok (fun hzero => hop hzero.1) hxy

end Faithful

theorem not_mem_join_iff {ts us : List Token} {op : Operator} :
    .symbol (.operator .divide) ∉ ts ++ .symbol (.operator op) :: us ↔
      .symbol (.operator .divide) ∉ ts ∧ op ≠ .divide ∧ .symbol (.operator .divide) ∉ us := by
  simp [eq_comm]

mutual
theorem Primary.faithful : ∀ (p : Primary) (i : Nat), .symbol (.operator .divide) ∉ p.tokens →
    Faithful p.value p.exact (p.applications i) p.results
  | .number v, _, _ => ⟨by simp [Primary.applications, Primary.results], fun _ => ⟨v, rfl, rfl⟩⟩
  | .positive p, i, h => p.faithful (i + 1) (List.not_mem_of_not_mem_cons h)
  | .negative p, i, h => (p.faithful (i + 1) (List.not_mem_of_not_mem_cons h)).neg
  | .group e, i, h =>
    e.faithful (i + 1) fun he => h (List.mem_cons_of_mem _ (List.mem_append_left _ he))

theorem Term.faithful : ∀ (t : Term) (i : Nat), .symbol (.operator .divide) ∉ t.tokens →
    Faithful t.value t.exact (t.applications i) t.results
  | .single p, i, h => p.faithful i h
  | .product t _ _ p, i, h =>
    have ⟨ht, hop, hp⟩ := not_mem_join_iff.1 h
    (t.faithful i ht).join (p.faithful _ hp) hop _

theorem Expression.faithful : ∀ (e : Expression) (i : Nat), .symbol (.operator .divide) ∉ e.tokens →
    Faithful e.value e.exact (e.applications i) e.results
  | .single t, i, h => t.faithful i h
  | .sum t _ _ e, i, h =>
    have ⟨ht, hop, he⟩ := not_mem_join_iff.1 h
    (t.faithful i ht).join (e.faithful _ he) hop _
end

/-! ### Sources without division -/

section
variable {S : Separators} {source : Text} {ls : List Lexeme}

theorem evaluate_eq_ok_iff_value {e : Expression} (hls : tokenize S source = .ok ls)
    (he : e.tokens = ls.map Lexeme.token) {v : Decimal} :
    evaluate S source = .ok v ↔ e.value = .ok v := by
  obtain ⟨hstop, rfl⟩ := tokenize_eq_ok_iff.1 hls
  rw [evaluate_eq_ok_iff, Scan.tokens, ← he, e.reckon_tokens, e.valueAt_eq_ok_iff]
  exact and_iff_right hstop

/-- A source without division that has a value is derived by an expression. Its operations are all exact
if and only if their exact results are all representable, and then its value is exact. An operation on
two values is exact if its exact result is representable, out of range if that is too large, and rounded
in every other case. -/
theorem evaluate_exact_iff (hls : tokenize S source = .ok ls)
    (h : ∀ l ∈ ls, l.token ≠ .symbol (.operator .divide)) :
    (∀ v, evaluate S source = .ok v → ∃ e : Expression, e.tokens = ls.map Lexeme.token) ∧
    ∀ e : Expression, e.tokens = ls.map Lexeme.token →
      ((∀ a ∈ e.applications 0, a.IsExact) ↔ ∀ x ∈ e.results, Representable x) ∧
      ((∀ x ∈ e.results, Representable x) → ∃ v, evaluate S source = .ok v ∧ v.toRat = e.exact) ∧
      ∀ a ∈ e.applications 0, ∀ x y, a.left = .ok x → a.right = .ok y →
        (a.IsExact ↔ Representable (a.op.exact x.toRat y.toRat)) ∧
        (a.op.apply x y = .error .outOfRange ↔ 2 ^ 96 - 1 / 2 ≤ |a.op.exact x.toRat y.toRat|) := by
  refine ⟨fun v hv => ?_, fun e he => ?_⟩
  · obtain ⟨-, hv⟩ := evaluate_eq_ok_iff.1 hv
    have hverdict := agrees_verdict (scan S source).tokens
    rw [hv] at hverdict
    obtain ⟨-, rfl⟩ := tokenize_eq_ok_iff.1 hls
    exact Outline.exists_tokens_eq hverdict
  · have hdiv : .symbol (.operator .divide) ∉ e.tokens := by
      rw [he]
      intro hmem
      obtain ⟨l, hl, htoken⟩ := List.mem_map.1 hmem
      exact h l hl htoken
    have hfaithful := e.faithful 0 hdiv
    refine ⟨hfaithful.isExact_iff, fun hxs => ?_, fun a ha x y hx hy => ?_⟩
    · obtain ⟨v, hv, hexact⟩ := hfaithful.exists_value hxs
      exact ⟨v, (evaluate_eq_ok_iff_value hls he).2 hv, hexact⟩
    · have hop : a.op ≠ .divide := by
        intro hop
        have hat := List.mem_of_getElem? (e.standsAt 0 a ha).2
        rw [hop] at hat
        exact hdiv hat
      exact ⟨Application.isExact_iff hx hy hop,
        Operator.apply_eq_outOfRange_iff_le fun hzero => hop hzero.1⟩

end

/-! ### The last digit

A product has as many fractional digits as its factors have together. Up to 28 of them are kept. -/

namespace LastDigit

def six : Decimal := ⟨false, 6, 0, by decide, Nat.zero_le _⟩

def left : Decimal := ⟨false, 17, 14, by decide, by decide⟩

def right : Decimal := ⟨false, 23, 14, by decide, by decide⟩

theorem isTight_times : Operator.times.isTight = true := rfl

def fitting : Expression :=
  .sum (.single (.number six)) .minus rfl
    (.single (.product (.single (.number left)) .times isTight_times (.number right)))

def fittingText : Text := six.display ++ '-' :: (left.display ++ '*' :: right.display)

def fittingLexemes : List Lexeme :=
  [⟨.number six, 0⟩, ⟨.symbol (.operator .minus), 1⟩, ⟨.number left, 2⟩,
    ⟨.symbol (.operator .times), 18⟩, ⟨.number right, 19⟩]

theorem evaluate_fitting :
    tokenize {} fittingText = .ok fittingLexemes ∧
    (∀ l ∈ fittingLexemes, l.token ≠ .symbol (.operator .divide)) ∧
    (∀ a ∈ fitting.applications 0, a.IsExact) ∧
    ∃ v, evaluate {} fittingText = .ok v ∧ v.toRat = 6 - 391 / 10 ^ 28 := by
  have hls : tokenize {} fittingText = .ok fittingLexemes := by decide +kernel
  have h : ∀ l ∈ fittingLexemes, l.token ≠ .symbol (.operator .divide) := by decide
  have hproduct : Operator.times.exact left.toRat right.toRat = 391 / 10 ^ 28 := by
    norm_num [Operator.exact, Decimal.toRat, Decimal.signed, left, right]
  have hsix : six.toRat = 6 := by norm_num [Decimal.toRat, Decimal.signed, six]
  have hexact : fitting.exact = 6 - 391 / 10 ^ 28 := by
    rw [← hproduct, ← hsix]
    rfl
  have hresults : fitting.results = [391 / 10 ^ 28, 6 - 391 / 10 ^ 28] := by
    rw [← hexact, ← hproduct]
    rfl
  have hrep : ∀ x ∈ fitting.results, Representable x := by
    rw [hresults, List.forall_mem_cons, List.forall_mem_singleton]
    exact ⟨representable_iff.2 ⟨391, 28, by decide, by decide, by norm_num⟩,
      representable_iff.2 ⟨59999999999999999999999999609, 28, by decide, by decide, by norm_num⟩⟩
  obtain ⟨-, hexpression⟩ := evaluate_exact_iff hls h
  obtain ⟨hiff, hvalue, -⟩ := hexpression fitting rfl
  obtain ⟨v, hv, hv'⟩ := hvalue hrep
  exact ⟨hls, h, hiff.2 hrep, v, hv, hv'.trans hexact⟩

theorem one_lt_limit : 1 < Decimal.limit := by decide

def tiny : Decimal := ⟨false, 1, 15, one_lt_limit, by decide⟩

def small : Decimal := ⟨false, 1, 14, one_lt_limit, by decide⟩

def vanishing : Expression :=
  .single (.product (.single (.number tiny)) .times isTight_times (.number small))

def vanishingText : Text := tiny.display ++ '*' :: small.display

def vanishingLexemes : List Lexeme :=
  [⟨.number tiny, 0⟩, ⟨.symbol (.operator .times), 17⟩, ⟨.number small, 18⟩]

/-- With 29 digits the product of two positive numbers is zero. -/
theorem evaluate_vanishing :
    tokenize {} vanishingText = .ok vanishingLexemes ∧
    (∀ l ∈ vanishingLexemes, l.token ≠ .symbol (.operator .divide)) ∧
    vanishing.tokens = vanishingLexemes.map Lexeme.token ∧
    ∃ v, evaluate {} vanishingText = .ok v ∧ v.toRat = 0 ∧ vanishing.exact = 1 / 10 ^ 29 ∧
      v.toRat ≠ vanishing.exact := by
  have hvalue : evaluate {} vanishingText = .ok ⟨false, 0, 28, by decide, by decide⟩ := by decide +kernel
  have hexact : vanishing.exact = 1 / 10 ^ 29 := by
    show Operator.times.exact tiny.toRat small.toRat = _
    norm_num [Operator.exact, Decimal.toRat, Decimal.signed, tiny, small]
  refine ⟨by decide +kernel, by decide, rfl, _, hvalue, Decimal.toRat_of_isZero rfl, hexact, ?_⟩
  rw [hexact, Decimal.toRat_of_isZero rfl]
  norm_num

end LastDigit

end Abacus
