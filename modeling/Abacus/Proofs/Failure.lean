import Abacus.Proofs.Decimal.Rounded
import Abacus.Proofs.Expression

/-! # Where a computation fails

The applications of a derivation are its binary operators in the order in which they are carried
out: those of the left operand, those of the right operand, then the operator between them. The
first of them that fails is the one that reckoning reports, with its own fault and at its own
token. -/

namespace Abacus

/-- An operator of a derivation with the index of its token and the values of its operands. -/
structure Application where
  index : Nat
  op : Operator
  left : Except ReckonFault Decimal
  right : Except ReckonFault Decimal

mutual
/-- The applications in a primary whose first token has an index. -/
def Primary.applications : Primary → (index : Nat) → List Application
  | .number _, _ => []
  | .positive p, i => p.applications (i + 1)
  | .negative p, i => p.applications (i + 1)
  | .group e, i => e.applications (i + 1)

def Term.applications : Term → (index : Nat) → List Application
  | .single p, i => p.applications i
  | .product t op _ p, i =>
    t.applications i ++ p.applications (i + t.tokens.length + 1)
      ++ [⟨i + t.tokens.length, op, t.value, p.value⟩]

def Expression.applications : Expression → (index : Nat) → List Application
  | .single t, i => t.applications i
  | .sum t op _ e, i =>
    t.applications i ++ e.applications (i + t.tokens.length + 1)
      ++ [⟨i + t.tokens.length, op, t.value, e.value⟩]
end

/-- The error of a result, if it is one. -/
def errorOf {α : Type} : Except ReckonError α → Option ReckonError
  | .error e => some e
  | .ok _ => none

/-- The error of an application both of whose operands have a value. -/
def Application.error? (a : Application) : Option ReckonError :=
  match a.left, a.right with
  | .ok x, .ok y => errorOf (a.op.applyAt a.index x y)
  | _, _ => none

namespace Operator

theorem apply_eq_error_divisionByZero_iff {op : Operator} {a b : Decimal} :
    op.apply a b = .error .divisionByZero ↔ op = divide ∧ b.toRat = 0 := by
  rw [← Decimal.isZero_iff]
  unfold apply
  split
  · simpa
  · rename_i h
    refine ⟨fun he => ?_, fun hz => absurd hz h⟩
    split at he <;> simp at he

theorem applyAt_of_apply_eq_error {op : Operator} {a b : Decimal} {fault : ReckonFault}
    (h : op.apply a b = .error fault) (i : Nat) : op.applyAt i a b = .error ⟨fault, i⟩ := by
  rw [applyAt, h]; rfl

end Operator

theorem Application.error?_of_apply_eq_error {a : Application} {x y : Decimal} {fault : ReckonFault}
    (hx : a.left = .ok x) (hy : a.right = .ok y) (h : a.op.apply x y = .error fault) :
    a.error? = some ⟨fault, a.index⟩ := by
  simp only [error?, hx, hy, Operator.applyAt_of_apply_eq_error h, errorOf]

/-! ### The first failure -/

/-- The applications of two operands and then the one that joins them. -/
theorem findSome?_error?_join {as bs : List Application} {left right : Except ReckonError Decimal}
    (hl : as.findSome? Application.error? = errorOf left)
    (hr : bs.findSome? Application.error? = errorOf right) (op : Operator) (i : Nat) :
    List.findSome? Application.error? (as ++ bs
        ++ [⟨i, op, left.mapError ReckonError.fault, right.mapError ReckonError.fault⟩])
      = errorOf (do op.applyAt i (← left) (← right)) := by
  rw [List.findSome?_append, List.findSome?_append, hl, hr]
  rcases left with e | x
  · rfl
  · rcases right with e | y
    · rfl
    · show List.findSome? Application.error? [⟨i, op, .ok x, .ok y⟩] = errorOf (op.applyAt i x y)
      rw [List.findSome?_singleton]
      rfl

mutual
theorem Primary.findSome?_applications : ∀ (p : Primary) (i : Nat),
    (p.applications i).findSome? Application.error? = errorOf (p.valueAt i)
  | .number _, _ => rfl
  | .positive p, i => p.findSome?_applications (i + 1)
  | .negative p, i => by
    refine (p.findSome?_applications (i + 1)).trans ?_
    rw [Primary.valueAt]
    cases p.valueAt (i + 1) <;> rfl
  | .group e, i => e.findSome?_applications (i + 1)

theorem Term.findSome?_applications : ∀ (t : Term) (i : Nat),
    (t.applications i).findSome? Application.error? = errorOf (t.valueAt i)
  | .single p, i => p.findSome?_applications i
  | .product t op _ p, i => by
    rw [Term.applications, ← t.mapError_valueAt i, ← p.mapError_valueAt (i + t.tokens.length + 1)]
    exact findSome?_error?_join (t.findSome?_applications i) (p.findSome?_applications _) op _

theorem Expression.findSome?_applications : ∀ (e : Expression) (i : Nat),
    (e.applications i).findSome? Application.error? = errorOf (e.valueAt i)
  | .single t, i => t.findSome?_applications i
  | .sum t op _ e, i => by
    rw [Expression.applications, ← t.mapError_valueAt i,
      ← e.mapError_valueAt (i + t.tokens.length + 1)]
    exact findSome?_error?_join (t.findSome?_applications i) (e.findSome?_applications _) op _
end

/-! ### The tokens of the operators -/

/-- The index of an application is that of its operator among tokens that start at `i`. -/
def Application.StandsAt (tokens : List Token) (i : Nat) (a : Application) : Prop :=
  i ≤ a.index ∧ tokens[a.index - i]? = some (.symbol (.operator a.op))

namespace Application.StandsAt
variable {ts us : List Token} {i : Nat} {a : Application}

theorem append (h : a.StandsAt ts i) (us : List Token) : a.StandsAt (ts ++ us) i :=
  ⟨h.1, by rw [List.getElem?_append_left (List.getElem?_eq_some_iff.1 h.2).1, h.2]⟩

theorem prepend (h : a.StandsAt us (i + ts.length)) : a.StandsAt (ts ++ us) i := by
  refine ⟨by have := h.1; omega, ?_⟩
  rw [List.getElem?_append_right (by have := h.1; omega), ← h.2]
  congr 1
  omega

theorem cons (t : Token) (h : a.StandsAt ts (i + 1)) : a.StandsAt (t :: ts) i := by
  show a.StandsAt ([t] ++ ts) i
  exact prepend h

/-- An application in one of two operands, or the one that joins them. -/
theorem join {op : Operator} {left right : Except ReckonFault Decimal} {as bs : List Application}
    (hl : ∀ a ∈ as, a.StandsAt ts i) (hr : ∀ b ∈ bs, b.StandsAt us (i + ts.length + 1))
    (ha : a ∈ as ++ bs ++ [⟨i + ts.length, op, left, right⟩]) :
    a.StandsAt (ts ++ .symbol (.operator op) :: us) i := by
  rw [List.append_assoc, List.mem_append, List.mem_append, List.mem_singleton] at ha
  rcases ha with ha | ha | rfl
  · exact (hl a ha).append _
  · exact ((hr a ha).cons _).prepend
  · exact ⟨Nat.le_add_right .., by simp⟩

end Application.StandsAt

mutual
theorem Primary.standsAt : ∀ (p : Primary) (i : Nat), ∀ a ∈ p.applications i, a.StandsAt p.tokens i
  | .number _, _, _, ha => by cases ha
  | .positive p, i, a, ha => (p.standsAt (i + 1) a ha).cons _
  | .negative p, i, a, ha => (p.standsAt (i + 1) a ha).cons _
  | .group e, i, a, ha => ((e.standsAt (i + 1) a ha).append _).cons _

theorem Term.standsAt : ∀ (t : Term) (i : Nat), ∀ a ∈ t.applications i, a.StandsAt t.tokens i
  | .single p, i, a, ha => p.standsAt i a ha
  | .product t _ _ p, i, _, ha => .join (t.standsAt i) (p.standsAt _) ha

theorem Expression.standsAt : ∀ (e : Expression) (i : Nat),
    ∀ a ∈ e.applications i, a.StandsAt e.tokens i
  | .single t, i, a, ha => t.standsAt i a ha
  | .sum t _ _ e, i, _, ha => .join (t.standsAt i) (e.standsAt _) ha
end

variable {e : Expression} {done rest : List Application} {a : Application} {x y : Decimal}
  {fault : ReckonFault}

/-- An operator that fails when none before it does is the one that reckoning reports. Its fault is that
of a division by zero exactly if it divides by a number whose value is zero. -/
theorem Expression.reckon_of_first_failure (h : e.applications 0 = done ++ a :: rest)
    (hdone : ∀ b ∈ done, b.error? = none) (hx : a.left = .ok x) (hy : a.right = .ok y)
    (hf : a.op.apply x y = .error fault) :
    reckon e.tokens = .error ⟨fault, a.index⟩
      ∧ e.tokens[a.index]? = some (.symbol (.operator a.op))
      ∧ (fault = .divisionByZero ↔ a.op = .divide ∧ y.toRat = 0) := by
  have hfirst : (e.applications 0).findSome? Application.error? = some ⟨fault, a.index⟩ :=
    List.findSome?_eq_some_iff.2
      ⟨done, a, rest, h, Application.error?_of_apply_eq_error hx hy hf, hdone⟩
  have hvalue : errorOf (e.valueAt 0) = some ⟨fault, a.index⟩ := by
    rw [← e.findSome?_applications 0, hfirst]
  refine ⟨?_, ?_, ?_⟩
  · rw [e.reckon_tokens]
    cases hv : e.valueAt 0 <;> rw [hv] at hvalue <;> cases hvalue
    rfl
  · exact (e.standsAt 0 a (by simp [h])).2
  · rw [← Operator.apply_eq_error_divisionByZero_iff (a := x), hf, Except.error.injEq]

/-! ### A failure after a success

In `m + (1 + 1) * m`, for the greatest decimal `m`, the multiplication is carried out second and
fails, and the addition to its left is not carried out. In `1 / -z` the divisor is a zero of ten places
with a sign. -/

namespace Overflowing

theorem two_lt_limit : 2 < Decimal.limit := by decide

def one : Decimal := ⟨false, 1, 0, by decide, Nat.zero_le _⟩

def two : Decimal := ⟨false, 2, 0, two_lt_limit, Nat.zero_le _⟩

def greatest : Decimal := ⟨false, Decimal.limit - 1, 0, by decide, Nat.zero_le _⟩

def expression : Expression :=
  let group := Primary.group (.sum (.single (.number one)) .plus rfl (.single (.single (.number one))))
  .sum (.single (.number greatest)) .plus rfl
    (.single (.product (.single group) .times rfl (.number greatest)))

def inner : Application := ⟨4, .plus, .ok one, .ok one⟩

def product : Application := ⟨7, .times, .ok two, .ok greatest⟩

def outer : Application := ⟨1, .plus, .ok greatest, .error .outOfRange⟩

def longZero : Decimal := ⟨false, 0, 10, Decimal.limit_pos, by decide⟩

def quotient : Expression :=
  .single (.product (.single (.number one)) .divide rfl (.negative (.number longZero)))

def division : Application := ⟨1, .divide, .ok one, .ok (-longZero)⟩

theorem reckon_expression :
    expression.applications 0 = [inner] ++ product :: [outer]
      ∧ (∀ b ∈ [inner], b.error? = none)
      ∧ product.op.apply two greatest = .error .outOfRange
      ∧ reckon expression.tokens = .error ⟨.outOfRange, 7⟩
      ∧ quotient.applications 0 = [] ++ division :: []
      ∧ reckon quotient.tokens = .error ⟨.divisionByZero, 1⟩
      ∧ (-longZero).toRat = 0 := by
  have happ : expression.applications 0 = [inner] ++ product :: [outer] := rfl
  have hdone : ∀ b ∈ [inner], b.error? = none := fun b hb => List.mem_singleton.1 hb ▸ rfl
  have hf : product.op.apply two greatest = .error .outOfRange := rfl
  have happ' : quotient.applications 0 = [] ++ division :: [] := rfl
  have hdone' : ∀ b ∈ ([] : List Application), b.error? = none := by
    intro b hb
    cases hb
  have hf' : division.op.apply one (-longZero) = .error .divisionByZero := rfl
  obtain ⟨hreckon, -, hzero⟩ := Expression.reckon_of_first_failure happ' hdone' rfl rfl hf'
  exact ⟨happ, hdone, hf, (Expression.reckon_of_first_failure happ hdone rfl rfl hf).1, happ', hreckon,
    (hzero.1 rfl).2⟩

end Overflowing

end Abacus
