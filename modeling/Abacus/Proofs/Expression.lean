import Abacus.Reckoning

/-! # The grammar of expressions

An expression is derived level by level: signs bind tightest, `*` and `/` group to the left, `+` and
`-` to the right. A derivation has the tokens it is written with and a value; `valueAt` is the value
with every fault at the operator where it arises.

`Expression.reckon_tokens`: the walk along the tokens of a derivation computes its value. -/

namespace Abacus

/-- Whether an operator is carried out as soon as its right operand is there. -/
def Operator.isTight : Operator → Bool
  | times | divide => true
  | plus | minus => false

mutual
/-- A number, an operand under a sign, or a group in parentheses. -/
inductive Primary where
  | number (value : Decimal)
  | positive (operand : Primary)
  | negative (operand : Primary)
  | group (content : Expression)

/-- Multiplications and divisions, the last one outermost. -/
inductive Term where
  | single (operand : Primary)
  | product (left : Term) (op : Operator) (tight : op.isTight = true) (right : Primary)

/-- Additions and subtractions, the first one outermost. -/
inductive Expression where
  | single (term : Term)
  | sum (left : Term) (op : Operator) (loose : op.isTight = false) (right : Expression)
end

mutual
def Primary.tokens : Primary → List Token
  | .number v => [.number v]
  | .positive p => .symbol (.operator .plus) :: p.tokens
  | .negative p => .symbol (.operator .minus) :: p.tokens
  | .group e => .symbol .opening :: (e.tokens ++ [.symbol .closing])

def Term.tokens : Term → List Token
  | .single p => p.tokens
  | .product t op _ p => t.tokens ++ .symbol (.operator op) :: p.tokens

def Expression.tokens : Expression → List Token
  | .single t => t.tokens
  | .sum t op _ e => t.tokens ++ .symbol (.operator op) :: e.tokens
end

mutual
def Primary.value : Primary → Except ReckonFault Decimal
  | .number v => .ok v
  | .positive p => p.value
  | .negative p => do return -(← p.value)
  | .group e => e.value

def Term.value : Term → Except ReckonFault Decimal
  | .single p => p.value
  | .product t op _ p => do op.apply (← t.value) (← p.value)

def Expression.value : Expression → Except ReckonFault Decimal
  | .single t => t.value
  | .sum t op _ e => do op.apply (← t.value) (← e.value)
end

mutual
/-- The value of a primary whose first token has an index. -/
def Primary.valueAt : Primary → (index : Nat) → Except ReckonError Decimal
  | .number v, _ => .ok v
  | .positive p, i => p.valueAt (i + 1)
  | .negative p, i => do return -(← p.valueAt (i + 1))
  | .group e, i => e.valueAt (i + 1)

def Term.valueAt : Term → (index : Nat) → Except ReckonError Decimal
  | .single p, i => p.valueAt i
  | .product t op _ p, i => do
    op.applyAt (i + t.tokens.length) (← t.valueAt i) (← p.valueAt (i + t.tokens.length + 1))

def Expression.valueAt : Expression → (index : Nat) → Except ReckonError Decimal
  | .single t, i => t.valueAt i
  | .sum t op _ e, i => do
    op.applyAt (i + t.tokens.length) (← t.valueAt i) (← e.valueAt (i + t.tokens.length + 1))
end

/-! ### Placing the faults -/

theorem mapError_applyAt (op : Operator) (i : Nat) (a b : Decimal) :
    (op.applyAt i a b).mapError ReckonError.fault = op.apply a b := by
  unfold Operator.applyAt
  cases op.apply a b <;> rfl

/-- Forgetting the places of two operands and of their operator. -/
theorem mapError_bind_applyAt {x y : Except ReckonError Decimal} {x' y' : Except ReckonFault Decimal}
    (hx : x.mapError ReckonError.fault = x') (hy : y.mapError ReckonError.fault = y')
    (op : Operator) (i : Nat) :
    (do op.applyAt i (← x) (← y)).mapError ReckonError.fault = (do op.apply (← x') (← y')) := by
  subst hx hy
  rcases x with e | a
  · rfl
  · rcases y with e | b
    · rfl
    · exact mapError_applyAt op i a b

mutual
theorem Primary.mapError_valueAt : ∀ (p : Primary) (i : Nat),
    (p.valueAt i).mapError ReckonError.fault = p.value
  | .number _, _ => rfl
  | .positive p, i => p.mapError_valueAt (i + 1)
  | .negative p, i => by
    have ih := p.mapError_valueAt (i + 1)
    rw [Primary.valueAt, Primary.value, ← ih]
    cases p.valueAt (i + 1) <;> rfl
  | .group e, i => e.mapError_valueAt (i + 1)

theorem Term.mapError_valueAt : ∀ (t : Term) (i : Nat),
    (t.valueAt i).mapError ReckonError.fault = t.value
  | .single p, i => p.mapError_valueAt i
  | .product t op _ p, i =>
    mapError_bind_applyAt (t.mapError_valueAt i) (p.mapError_valueAt _) op _

theorem Expression.mapError_valueAt : ∀ (e : Expression) (i : Nat),
    (e.valueAt i).mapError ReckonError.fault = e.value
  | .single t, i => t.mapError_valueAt i
  | .sum t op _ e, i =>
    mapError_bind_applyAt (t.mapError_valueAt i) (e.mapError_valueAt _) op _
end

theorem Expression.valueAt_eq_ok_iff (e : Expression) (i : Nat) {v : Decimal} :
    e.valueAt i = .ok v ↔ e.value = .ok v := by
  rw [← e.mapError_valueAt i, mapError_eq_ok_iff]

/-! ### The walk along a derivation -/

namespace Stack

/-- No sign and no multiplication or division waits on top of a stack. -/
def Settled (stack : Stack) : Prop := ∀ v, stack.supply v = .ok (stack, v)

theorem settled_nil : Settled [] := fun _ => rfl

theorem settled_group (below : Stack) : Settled (.group :: below) := fun _ => rfl

theorem settled_addend (left : Decimal) (op : Operator) (i : Nat) (below : Stack) :
    Settled (.addend left op i :: below) := fun _ => rfl

end Stack

namespace Reckoning

theorem supplied_factor (left : Decimal) (op : Operator) (i : Nat) (below : Stack) (v : Decimal) :
    supplied (.factor left op i :: below) v
      = op.applyAt i left v >>= fun result => .ok (holding below result) := by
  simp only [supplied, Stack.supply, bind_assoc, pure_bind]
  rfl

theorem supplied_of_settled {stack : Stack} (h : stack.Settled) (v : Decimal) :
    supplied stack v = .ok (holding stack v) := by
  rw [supplied, h v]; rfl

theorem operated_of_tight {op : Operator} (h : op.isTight = true) (stack : Stack) (v : Decimal)
    (i : Nat) : operated stack v op i = awaiting .afterOperator (.factor v op i :: stack) := by
  cases op <;> first | rfl | cases h

theorem operated_of_loose {op : Operator} (h : op.isTight = false) (stack : Stack) (v : Decimal)
    (i : Nat) : operated stack v op i = awaiting .afterOperator (.addend v op i :: stack) := by
  cases op <;> first | rfl | cases h

theorem walk_append_bind (i : Nat) (state : Reckoning) (ts us : List Token) :
    walk i state (ts ++ us) = walk i state ts >>= fun state => walk (i + ts.length) state us :=
  walk_append i state ts us

theorem walk_holding_operator (i : Nat) (stack : Stack) (v : Decimal) (op : Operator)
    (ts : List Token) :
    walk i (holding stack v) (.symbol (.operator op) :: ts)
      = walk (i + 1) (operated stack v op i) ts := rfl

theorem walk_singleton (i : Nat) (state : Reckoning) (t : Token) :
    walk i state [t] = state.step i t := bind_pure _

/-- `finish` ends the chain after an operand and goes on with `rest`. -/
def EndsChain {α : Type} (finish : Reckoning → Except ReckonError α)
    (rest : Stack × Decimal → Except ReckonError α) : Prop :=
  ∀ stack v, finish (holding stack v) = stack.endChain v >>= rest

/-- Leaves the group whose closing parenthesis has an index. -/
def leaveGroup (i : Nat) : Stack × Decimal → Except ReckonError Reckoning
  | (.group :: below, v) => supplied below v
  | _ => .error ⟨.unexpectedToken (.symbol .closing), i⟩

theorem endsChain_closing (i : Nat) :
    EndsChain (fun state => walk i state [.symbol .closing]) (leaveGroup i) :=
  fun stack v => walk_singleton i (holding stack v) _

/-- The value of a whole expression, if all its groups are closed. -/
def leaveAll (i : Nat) : Stack × Decimal → Except ReckonError Decimal
  | ([], v) => .ok v
  | _ => .error ⟨.closingExpected, i⟩

theorem endsChain_finish (i : Nat) : EndsChain (finish i) (leaveAll i) := fun _ _ => rfl

end Reckoning

open Reckoning

mutual
theorem Primary.walk_tokens : ∀ (p : Primary) (i : Nat) (site : Site) (stack : Stack),
    walk i (awaiting site stack) p.tokens = p.valueAt i >>= supplied stack
  | .number v, i, site, stack => by
    rw [Primary.tokens, Primary.valueAt, walk]
    exact bind_pure _
  | .positive p, i, site, stack => p.walk_tokens (i + 1) .afterOperator stack
  | .negative p, i, site, stack => by
    have ih := p.walk_tokens (i + 1) .afterOperator (.negation :: stack)
    rw [Primary.valueAt, bind_assoc]
    exact ih
  | .group e, i, site, stack => by
    have ih := e.walk_tokens (i + 1) .leading (Stack.settled_group stack)
      (endsChain_closing (i + 1 + e.tokens.length))
    rw [← walk_append_bind] at ih
    exact ih

theorem Term.walk_tokens : ∀ (t : Term) (i : Nat) (site : Site) {stack : Stack}, stack.Settled →
    walk i (awaiting site stack) t.tokens = t.valueAt i >>= fun v => .ok (holding stack v)
  | .single p, i, site, stack, h => by
    rw [Term.tokens, p.walk_tokens, Term.valueAt]
    exact bind_congr fun v => supplied_of_settled h v
  | .product t op tight p, i, site, stack, h => by
    rw [Term.tokens, walk_append_bind, t.walk_tokens i site h, Term.valueAt, bind_assoc, bind_assoc]
    refine bind_congr fun v => ?_
    show walk _ (holding stack v) _ = _
    rw [walk_holding_operator, operated_of_tight tight, p.walk_tokens, bind_assoc]
    exact bind_congr fun w => supplied_factor ..

theorem Expression.walk_tokens : ∀ (e : Expression) (i : Nat) (site : Site) {stack : Stack},
    stack.Settled → ∀ {α : Type} {finish : Reckoning → Except ReckonError α}
      {rest : Stack × Decimal → Except ReckonError α}, EndsChain finish rest →
    walk i (awaiting site stack) e.tokens >>= finish
      = e.valueAt i >>= fun v => stack.endChain v >>= rest
  | .single t, i, site, stack, h, α, finish, rest, hf => by
    rw [Expression.tokens, t.walk_tokens i site h, Expression.valueAt, bind_assoc]
    exact bind_congr fun v => hf stack v
  | .sum t op loose e, i, site, stack, h, α, finish, rest, hf => by
    rw [Expression.tokens, walk_append_bind, t.walk_tokens i site h, Expression.valueAt, bind_assoc,
      bind_assoc, bind_assoc]
    refine bind_congr fun v => ?_
    show walk _ (holding stack v) _ >>= finish = _
    rw [walk_holding_operator, operated_of_loose loose,
      e.walk_tokens _ _ (Stack.settled_addend _ _ _ _) hf, bind_assoc]
    refine bind_congr fun w => ?_
    rw [Stack.endChain, bind_assoc]
end

/-- Reckoning the tokens of an expression computes its value. -/
theorem Expression.reckon_tokens (e : Expression) : reckon e.tokens = e.valueAt 0 := by
  have h := e.walk_tokens 0 .leading Stack.settled_nil (endsChain_finish e.tokens.length)
  exact h.trans (bind_pure _)

end Abacus
