import Abacus.Reckoning.Operation

/-! # The value of a token sequence

`reckon` computes the value of an expression in one walk along its tokens, with a stack of the
operations that still wait for their right operand. Signs bind tightest; `*` and `/` are carried
out as soon as their right operand is there and so group to the left; `+` and `-` wait for the rest
of their chain and group to the right. -/

namespace Abacus

/-- Something begun that waits for an operand. -/
inductive Frame where
  /-- A minus sign in front of the operand. -/
  | negation
  /-- A multiplication or division with its left operand, by the operator at an index. -/
  | factor (left : Decimal) (op : Operator) (index : Nat)
  /-- An addition or subtraction with its left operand, by the operator at an index. -/
  | addend (left : Decimal) (op : Operator) (index : Nat)
  /-- An open parenthesis. -/
  | group
deriving DecidableEq, Inhabited

/-- What waits for an operand, innermost first. -/
abbrev Stack := List Frame

namespace Stack

/-- Hands over an operand: its signs and the multiplication or division before it are carried
out. -/
def supply : Stack → Decimal → Except ReckonError (Stack × Decimal)
  | .negation :: below, v => supply below (-v)
  | .factor left op index :: below, v => do
    let result ← op.applyAt index left v
    return (below, result)
  | below, v => .ok (below, v)

/-- Ends a chain: the additions and subtractions of the innermost group are carried out, the last
one first. -/
def endChain : Stack → Decimal → Except ReckonError (Stack × Decimal)
  | .addend left op index :: below, v => do
    let result ← op.applyAt index left v
    endChain below result
  | below, v => .ok (below, v)

end Stack

/-- Where an operand is missing: at the beginning of an expression or group, or after a sign or an
operator. -/
inductive Site where
  | leading
  | afterOperator
deriving DecidableEq, Inhabited

/-- The fault of finding no operand at a site, but this token or the end. -/
def Site.missing : Site → Option Token → ReckonFault
  | leading, none => .unexpectedEnd
  | leading, some t => .notASign t
  | afterOperator, _ => .operandExpected

/-- The state between two tokens: an operand is missing, or there is one. -/
inductive Reckoning where
  | awaiting (site : Site) (stack : Stack)
  | holding (stack : Stack) (value : Decimal)
deriving DecidableEq, Inhabited

namespace Reckoning

def start : Reckoning := awaiting .leading []

/-- An operand is complete. -/
def supplied (stack : Stack) (v : Decimal) : Except ReckonError Reckoning := do
  let (below, value) ← stack.supply v
  return holding below value

/-- A binary operator after an operand. -/
def operated (stack : Stack) (v : Decimal) (op : Operator) (index : Nat) : Reckoning :=
  match op with
  | .plus | .minus => awaiting .afterOperator (.addend v op index :: stack)
  | .times | .divide => awaiting .afterOperator (.factor v op index :: stack)

/-- A closing parenthesis after an operand: it ends the chain and the group. -/
def closed (stack : Stack) (v : Decimal) (index : Nat) : Except ReckonError Reckoning := do
  match ← stack.endChain v with
  | (.group :: below, value) => supplied below value
  | _ => .error ⟨.unexpectedToken (.symbol .closing), index⟩

def step (index : Nat) : Reckoning → Token → Except ReckonError Reckoning
  | awaiting _ stack, .number v => supplied stack v
  | awaiting _ stack, .symbol .opening => .ok (awaiting .leading (.group :: stack))
  | awaiting _ stack, .symbol (.operator .plus) => .ok (awaiting .afterOperator stack)
  | awaiting _ stack, .symbol (.operator .minus) =>
    .ok (awaiting .afterOperator (.negation :: stack))
  | awaiting site _, t => .error ⟨site.missing (some t), index⟩
  | holding stack v, .symbol (.operator op) => .ok (operated stack v op index)
  | holding stack v, .symbol .closing => closed stack v index
  | holding _ _, _ => .error ⟨.operatorExpected, index⟩

/-- Takes the tokens from an index on. -/
def walk : (index : Nat) → Reckoning → List Token → Except ReckonError Reckoning
  | _, state, [] => .ok state
  | index, state, t :: rest => do
    let state ← state.step index t
    walk (index + 1) state rest

/-- The value when the tokens have come to their end at an index. -/
def finish (index : Nat) : Reckoning → Except ReckonError Decimal
  | awaiting site _ => .error ⟨site.missing none, index⟩
  | holding stack v => do
    match ← stack.endChain v with
    | ([], value) => return value
    | _ => .error ⟨.closingExpected, index⟩

theorem walk_append (index : Nat) (state : Reckoning) (ts us : List Token) :
    walk index state (ts ++ us)
      = (walk index state ts).bind fun state => walk (index + ts.length) state us := by
  induction ts generalizing index state with
  | nil => rfl
  | cons t ts ih =>
    rw [List.cons_append, walk, walk]
    cases state.step index t with
    | error e => rfl
    | ok state =>
      simp only [bind, Except.bind, ih, List.length_cons, Nat.add_assoc, Nat.add_comm 1]

end Reckoning

/-- The value of an expression. -/
def reckon (tokens : List Token) : Except ReckonError Decimal := do
  let state ← Reckoning.start.walk 0 tokens
  state.finish tokens.length

end Abacus
