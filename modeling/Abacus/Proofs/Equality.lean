import Abacus.Proofs.Decimal.Operation
import Abacus.Proofs.Expression
import Mathlib.Data.List.Forall2

/-! # Equal numbers

Decimals of one value are written in several ways. The operations, which work on mantissas and scales,
cannot tell them apart: equal operands have equal results, or fail in the same way (`alike_apply`).
So two reckonings whose stacks hold equal numbers go on with equal numbers (`alike_step`,
`alike_walk`), and token sequences that are equal token by token have equal values or one error. -/

namespace Abacus

/-! ### Equal values -/

namespace Decimal
variable {a b : Decimal} {x : ℚ} {result result' : Option Decimal}

theorem sameValue_iff : a.sameValue b = true ↔ a.toRat = b.toRat := by
  have ha : (10 : ℚ) ^ a.scale ≠ 0 := by positivity
  have hb : (10 : ℚ) ^ b.scale ≠ 0 := by positivity
  rw [toRat, toRat, div_eq_div_iff ha hb, ← cast_pow10, ← cast_pow10, sameValue, decide_eq_true_iff]
  exact_mod_cast Iff.rfl

/-- A number has only one correctly rounded value. -/
theorem CorrectlyRounded.map_toRat_unique (h : CorrectlyRounded x result)
    (h' : CorrectlyRounded x result') : result.map toRat = result'.map toRat := by
  by_cases hfits : Fits x 0
  · obtain ⟨t, ht⟩ := exists_isGreatest hfits
    obtain ⟨r, rfl, hr⟩ := h.eq_some ht
    obtain ⟨r', rfl, hr'⟩ := h'.eq_some ht
    rw [Option.map_some, Option.map_some, hr, hr']
  · have hnone : ∀ t ≤ maxScale, ¬ Fits x t := fun t _ ht => hfits (ht.of_le (Nat.zero_le t))
    rw [h.eq_none hnone, h'.eq_none hnone]

end Decimal

/-! ### Alike results -/

/-- The same error, or values related by `R`. -/
inductive Alike {ε α : Type} (R : α → α → Prop) : Except ε α → Except ε α → Prop where
  | ok {a b : α} (h : R a b) : Alike R (.ok a) (.ok b)
  | error (e : ε) : Alike R (.error e) (.error e)

namespace Alike
variable {ε ε' α β : Type} {R : α → α → Prop} {Q : β → β → Prop} {x y : Except ε α}

theorem bind {f g : α → Except ε β} (h : Alike R x y) (hfg : ∀ a b, R a b → Alike Q (f a) (g b)) :
    Alike Q (x >>= f) (y >>= g) := by
  cases h with
  | ok h => exact hfg _ _ h
  | error e => exact .error e

theorem mapError (h : Alike R x y) (f : ε → ε') : Alike R (x.mapError f) (y.mapError f) := by
  cases h with
  | ok h => exact .ok h
  | error e => exact .error (f e)

theorem cases (h : Alike R x y) :
    (∃ a b, x = .ok a ∧ y = .ok b ∧ R a b) ∨ ∃ e, x = .error e ∧ y = .error e := by
  cases h with
  | ok h => exact .inl ⟨_, _, rfl, rfl, h⟩
  | error e => exact .inr ⟨e, rfl, rfl⟩

end Alike

/-- The same number, however it is written. -/
def SameNumber (a b : Decimal) : Prop := a.toRat = b.toRat

theorem SameNumber.neg {a b : Decimal} (h : SameNumber a b) : SameNumber (-a) (-b) := by
  rw [SameNumber, Decimal.toRat_neg, Decimal.toRat_neg, h]

namespace Operator
variable {a a' b b' : Decimal}

theorem alike_apply (op : Operator) (ha : SameNumber a a') (hb : SameNumber b b') :
    Alike SameNumber (op.apply a b) (op.apply a' b') := by
  have hzero : b.isZero = b'.isZero := by
    rw [Bool.eq_iff_iff, Decimal.isZero_iff, Decimal.isZero_iff, hb]
  by_cases hdiv : op = divide ∧ b.isZero
  · have hdiv' : op = divide ∧ b'.isZero := hzero ▸ hdiv
    rw [apply, apply, if_pos hdiv, if_pos hdiv']
    exact .error _
  · have hdiv' : ¬ (op = divide ∧ b'.isZero) := hzero ▸ hdiv
    have hround := correctlyRounded_result? (a := a) hdiv
    rw [ha, hb] at hround
    have hmap := hround.map_toRat_unique (correctlyRounded_result? (a := a') hdiv')
    rw [apply, apply, if_neg hdiv, if_neg hdiv']
    rcases hr : op.result? a b with _ | r <;> rcases hr' : op.result? a' b' with _ | r' <;>
      rw [hr, hr'] at hmap
    · exact .error _
    · cases hmap
    · cases hmap
    · exact .ok (Option.some.inj hmap)

theorem alike_applyAt (op : Operator) (i : Nat) (ha : SameNumber a a') (hb : SameNumber b b') :
    Alike SameNumber (op.applyAt i a b) (op.applyAt i a' b') :=
  (op.alike_apply ha hb).mapError _

end Operator

/-! ### Reckonings with equal numbers -/

/-- Frames of the same kind, with equal numbers. -/
inductive Frame.Same : Frame → Frame → Prop where
  | negation : Same .negation .negation
  | factor {a b : Decimal} (h : SameNumber a b) (op : Operator) (i : Nat) :
      Same (.factor a op i) (.factor b op i)
  | addend {a b : Decimal} (h : SameNumber a b) (op : Operator) (i : Nat) :
      Same (.addend a op i) (.addend b op i)
  | group : Same .group .group

namespace Stack

def Same (s t : Stack) : Prop := List.Forall₂ Frame.Same s t

variable {s t : Stack} {v w : Decimal}

/-- A stack and the operand above it. -/
def SameBelow (r r' : Stack × Decimal) : Prop := r.1.Same r'.1 ∧ SameNumber r.2 r'.2

theorem alike_supply (h : s.Same t) (hv : SameNumber v w) :
    Alike SameBelow (s.supply v) (t.supply w) := by
  induction h generalizing v w with
  | nil => exact .ok ⟨.nil, hv⟩
  | cons hframe hbelow ih =>
    cases hframe with
    | negation => exact ih hv.neg
    | factor ha op i => exact (op.alike_applyAt i ha hv).bind fun _ _ hr => .ok ⟨hbelow, hr⟩
    | addend ha op i => exact .ok ⟨.cons (.addend ha op i) hbelow, hv⟩
    | group => exact .ok ⟨.cons .group hbelow, hv⟩

theorem alike_endChain (h : s.Same t) (hv : SameNumber v w) :
    Alike SameBelow (s.endChain v) (t.endChain w) := by
  induction h generalizing v w with
  | nil => exact .ok ⟨.nil, hv⟩
  | cons hframe hbelow ih =>
    cases hframe with
    | negation => exact .ok ⟨.cons .negation hbelow, hv⟩
    | factor ha op i => exact .ok ⟨.cons (.factor ha op i) hbelow, hv⟩
    | addend ha op i => exact (op.alike_applyAt i ha hv).bind fun _ _ hr => ih hr
    | group => exact .ok ⟨.cons .group hbelow, hv⟩

end Stack

/-- The same symbol, or the same number. -/
inductive Token.Same : Token → Token → Prop where
  | number {a b : Decimal} (h : SameNumber a b) : Same (.number a) (.number b)
  | symbol (s : Symbol) : Same (.symbol s) (.symbol s)

theorem Token.same_iff {t u : Token} : t.same u = true ↔ t.Same u := by
  constructor
  · intro h
    cases t with
    | number a =>
      cases u with
      | number b => exact .number (Decimal.sameValue_iff.1 h)
      | symbol s => cases h
    | symbol s =>
      cases u with
      | number b => cases h
      | symbol s' =>
        obtain rfl : s = s' := eq_of_beq h
        exact .symbol s
  · rintro (h | s)
    · exact Decimal.sameValue_iff.2 h
    · exact beq_self_eq_true s

namespace Reckoning

inductive Same : Reckoning → Reckoning → Prop where
  | awaiting (site : Site) {s t : Stack} (h : s.Same t) : Same (.awaiting site s) (.awaiting site t)
  | holding {s t : Stack} {v w : Decimal} (h : s.Same t) (hv : SameNumber v w) :
      Same (.holding s v) (.holding t w)

section
variable {s t : Stack} {v w : Decimal}

theorem alike_supplied (h : s.Same t) (hv : SameNumber v w) :
    Alike Same (supplied s v) (supplied t w) :=
  (Stack.alike_supply h hv).bind fun _ _ hr => .ok (.holding hr.1 hr.2)

theorem same_operated (h : s.Same t) (hv : SameNumber v w) (op : Operator) (i : Nat) :
    Same (operated s v op i) (operated t w op i) := by
  cases op with
  | plus => exact .awaiting _ (.cons (.addend hv _ i) h)
  | minus => exact .awaiting _ (.cons (.addend hv _ i) h)
  | times => exact .awaiting _ (.cons (.factor hv _ i) h)
  | divide => exact .awaiting _ (.cons (.factor hv _ i) h)

theorem alike_closed (h : s.Same t) (hv : SameNumber v w) (i : Nat) :
    Alike Same (closed s v i) (closed t w i) := by
  refine (Stack.alike_endChain h hv).bind ?_
  rintro ⟨s, v⟩ ⟨t, w⟩ ⟨hst, hvw⟩
  rcases hst with _ | ⟨hframe, hbelow⟩
  · exact .error _
  · cases hframe with
    | group => exact alike_supplied hbelow hvw
    | negation => exact .error _
    | factor ha op j => exact .error _
    | addend ha op j => exact .error _

end

variable {state state' : Reckoning}

/-- One token. -/
theorem alike_step (h : state.Same state') (i : Nat) {t u : Token} (ht : t.Same u) :
    Alike Same (state.step i t) (state'.step i u) := by
  cases h with
  | awaiting site h =>
    cases ht with
    | number hv => exact alike_supplied h hv
    | symbol s =>
      rcases s with (_ | _ | _ | _) | _ | _
      · exact .ok (.awaiting _ h)
      · exact .ok (.awaiting _ (.cons .negation h))
      · exact .error _
      · exact .error _
      · exact .ok (.awaiting _ (.cons .group h))
      · exact .error _
  | holding h hv =>
    cases ht with
    | number _ => exact .error _
    | symbol s =>
      rcases s with op | _ | _
      · exact .ok (same_operated h hv op i)
      · exact .error _
      · exact alike_closed h hv i

/-- All tokens. -/
theorem alike_walk {ts us : List Token} (hts : List.Forall₂ Token.Same ts us)
    (h : state.Same state') (i : Nat) : Alike Same (state.walk i ts) (state'.walk i us) := by
  induction hts generalizing state state' i with
  | nil => exact .ok h
  | cons ht _ ih => exact (alike_step h i ht).bind fun _ _ hnext => ih hnext (i + 1)

theorem alike_finish (h : state.Same state') (i : Nat) :
    Alike SameNumber (state.finish i) (state'.finish i) := by
  cases h with
  | awaiting site h => exact .error _
  | holding h hv =>
    refine (Stack.alike_endChain h hv).bind ?_
    rintro ⟨s, v⟩ ⟨t, w⟩ ⟨hst, hvw⟩
    rcases hst with _ | ⟨hframe, hbelow⟩
    · exact .ok hvw
    · exact .error _

end Reckoning

theorem alike_reckon {ts us : List Token} (h : List.Forall₂ Token.Same ts us) :
    Alike SameNumber (reckon ts) (reckon us) := by
  have hstart : Reckoning.start.Same .start := .awaiting _ .nil
  refine (Reckoning.alike_walk h hstart 0).bind fun _ _ hstate => ?_
  rw [h.length_eq]
  exact Reckoning.alike_finish hstate us.length

/-- Token sequences that are equal token by token, numbers by their value, have equal values or the same
error at the same place. -/
theorem reckon_sameValue {ts us : List Token} (h : List.Forall₂ (fun t u => t.same u = true) ts us) :
    (∃ v w, reckon ts = .ok v ∧ reckon us = .ok w ∧ v.sameValue w = true) ∨
      ∃ e, reckon ts = .error e ∧ reckon us = .error e := by
  have hsame : List.Forall₂ Token.Same ts us := h.imp fun _ _ ht => Token.same_iff.1 ht
  rcases (alike_reckon hsame).cases with ⟨v, w, hv, hw, hvw⟩ | herror
  · exact .inl ⟨v, w, hv, hw, Decimal.sameValue_iff.2 hvw⟩
  · exact .inr herror

namespace NineteenThirteenths

def plain : List Token :=
  [.number ⟨false, 19, 0, by decide, Nat.zero_le _⟩, .symbol (.operator .divide),
    .number ⟨false, 13, 0, by decide, Nat.zero_le _⟩]

/-- The same numbers with zeros behind the point. -/
def padded : List Token :=
  [.number ⟨false, 190000, 4, by decide, by decide⟩, .symbol (.operator .divide),
    .number ⟨false, 13000000, 6, by decide, by decide⟩]

theorem reckon_padded : List.Forall₂ (fun t u => t.same u = true) plain padded ∧
    (reckon plain).map Decimal.mantissa = .ok 14615384615384615384615384615 ∧
    ∃ v w, reckon plain = .ok v ∧ reckon padded = .ok w ∧ v.sameValue w = true := by
  have hsame : List.Forall₂ (fun t u => t.same u = true) plain padded :=
    .cons (by decide) (.cons (by decide) (.cons (by decide) .nil))
  have hplain : (reckon plain).map Decimal.mantissa = .ok 14615384615384615384615384615 := by
    decide +kernel
  refine ⟨hsame, hplain, (reckon_sameValue hsame).resolve_right ?_⟩
  rintro ⟨e, he, -⟩
  rw [he] at hplain
  cases hplain

end NineteenThirteenths

end Abacus
