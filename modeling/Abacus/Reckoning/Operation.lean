import Abacus.Decimal.Arith
import Abacus.Decimal.Quotient
import Abacus.Token

/-! # Carrying out one operation

The faults of reckoning, and the step of it that computes: an operator applied to two operands. A
division by zero of any scale and either sign is a fault of its own; every other failure is a result
out of range. -/

namespace Abacus

/-- Why a token sequence has no value. -/
inductive ReckonFault where
  | invalidNumber
  | openingExpected
  | closingExpected
  | notASign (t : Token)
  | operandExpected
  | operatorExpected
  | unexpectedToken (t : Token)
  | unexpectedEnd
  | divisionByZero
  | outOfRange
deriving DecidableEq, Inhabited

def ReckonFault.description : ReckonFault → String
  | invalidNumber => "invalid number"
  | openingExpected => "'(' expected"
  | closingExpected => "')' expected"
  | notASign t => "'" ++ String.ofList t.display ++ "' is not a prefix unary operator"
  | operandExpected => "expected expression after operator"
  | operatorExpected => "operator expected"
  | unexpectedToken t => "unexpected token '" ++ String.ofList t.display ++ "'"
  | unexpectedEnd => "unexpected end of expression"
  | divisionByZero => "division by zero"
  | outOfRange => "result out of range"

/-- A fault and the number of tokens before it. -/
structure ReckonError where
  fault : ReckonFault
  index : Nat
deriving DecidableEq, Inhabited

def ReckonError.message (e : ReckonError) : String :=
  e.fault.description ++ " at token " ++ toString e.index

namespace Operator

/-- The result of an operation; `none` if it is out of range. The divisor is not zero. -/
def result? : Operator → Decimal → Decimal → Option Decimal
  | plus => Decimal.add?
  | minus => Decimal.sub?
  | times => Decimal.mul?
  | divide => Decimal.div?

def apply (op : Operator) (a b : Decimal) : Except ReckonFault Decimal :=
  if op = divide ∧ b.isZero then .error .divisionByZero
  else match op.result? a b with
    | some result => .ok result
    | none => .error .outOfRange

/-- Carries out the operation of the operator at an index, where the fault lies if there is one. -/
def applyAt (op : Operator) (index : Nat) (a b : Decimal) : Except ReckonError Decimal :=
  (op.apply a b).mapError fun fault => ⟨fault, index⟩

end Operator

theorem mapError_eq_ok_iff {α ε ε' : Type} {f : ε → ε'} {x : Except ε α} {a : α} :
    x.mapError f = .ok a ↔ x = .ok a := by
  cases x with
  | error e => exact ⟨nofun, nofun⟩
  | ok b => constructor <;> rintro ⟨⟩ <;> rfl

end Abacus
