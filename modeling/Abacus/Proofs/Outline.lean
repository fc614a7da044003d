import Abacus.Reckoning

/-! # The outline of a token sequence

`Outline.verdict` judges a token sequence in one pass that knows no values: all it remembers is what
may come next and how many groups are open.

`Reckoning.outline` forgets the values that a reckoning holds. What it reckons follows its outline
token by token, so the two stop with the same fault at the same place, unless an operation that was
carried out before fails. -/

namespace Abacus

/-- What may come next: an operand at a site, or an operator or the end of the expression. -/
inductive Expectation where
  | operand (site : Site)
  | operator
deriving DecidableEq

/-- What may come next, and the number of open groups. -/
structure Outline where
  next : Expectation
  depth : Nat
deriving DecidableEq

namespace Outline

def start : Outline := ⟨.operand .leading, 0⟩

/-- Takes a token. -/
def step : Outline → Token → Except ReckonFault Outline
  | ⟨.operand _, depth⟩, .number _ => .ok ⟨.operator, depth⟩
  | ⟨.operand _, depth⟩, .symbol .opening => .ok ⟨.operand .leading, depth + 1⟩
  | ⟨.operand _, depth⟩, .symbol (.operator .plus) => .ok ⟨.operand .afterOperator, depth⟩
  | ⟨.operand _, depth⟩, .symbol (.operator .minus) => .ok ⟨.operand .afterOperator, depth⟩
  | ⟨.operand .leading, _⟩, t => .error (.notASign t)
  | ⟨.operand .afterOperator, _⟩, _ => .error .operandExpected
  | ⟨.operator, depth⟩, .symbol (.operator _) => .ok ⟨.operand .afterOperator, depth⟩
  | ⟨.operator, depth + 1⟩, .symbol .closing => .ok ⟨.operator, depth⟩
  | ⟨.operator, 0⟩, .symbol .closing => .error (.unexpectedToken (.symbol .closing))
  | ⟨.operator, _⟩, _ => .error .operatorExpected

/-- Comes to the end of the tokens. -/
def finish : Outline → Except ReckonFault Unit
  | ⟨.operand .leading, _⟩ => .error .unexpectedEnd
  | ⟨.operand .afterOperator, _⟩ => .error .operandExpected
  | ⟨.operator, 0⟩ => .ok ()
  | ⟨.operator, _ + 1⟩ => .error .closingExpected

/-- Takes the tokens from an index on to their end. A fault lies at the token that is refused. -/
def run : (index : Nat) → Outline → List Token → Except ReckonError Unit
  | index, o, [] => o.finish.mapError (⟨·, index⟩)
  | index, o, t :: rest => do
    let o ← (o.step t).mapError (⟨·, index⟩)
    run (index + 1) o rest

/-- Whether a token sequence is an expression, and where it ceases to be one. -/
def verdict (tokens : List Token) : Except ReckonError Unit := run 0 start tokens

/-- A fault lies at one of the tokens that are left or at their end. -/
theorem index_of_run_eq_error {i : Nat} {o : Outline} {ts : List Token} {e : ReckonError}
    (h : run i o ts = .error e) : i ≤ e.index ∧ e.index ≤ i + ts.length := by
  induction ts generalizing i o with
  | nil =>
    rw [run] at h
    rcases hf : o.finish with fault | _ <;> rw [hf] at h <;> cases h
    exact ⟨Nat.le_refl _, Nat.le_refl _⟩
  | cons t ts ih =>
    rw [run] at h
    rcases hs : o.step t with fault | next <;> rw [hs] at h
    · cases h
      exact ⟨Nat.le_refl _, Nat.le_add_right _ _⟩
    · have := ih h
      rw [List.length_cons]
      omega

theorem step_ne_unexpectedEnd {o : Outline} {t : Token} : o.step t ≠ .error .unexpectedEnd := by
  unfold step
  split <;> simp

/-- No token is the end of the tokens. -/
theorem index_of_run_eq_unexpectedEnd {i : Nat} {o : Outline} {ts : List Token} {e : ReckonError}
    (h : run i o ts = .error e) (hfault : e.fault = .unexpectedEnd) : e.index = i + ts.length := by
  induction ts generalizing i o with
  | nil =>
    rw [run] at h
    rcases hf : o.finish with fault | _ <;> rw [hf] at h <;> cases h
    rfl
  | cons t ts ih =>
    rw [run] at h
    rcases hs : o.step t with fault | next <;> rw [hs] at h
    · cases h
      exact absurd (hs.trans (congrArg Except.error hfault)) step_ne_unexpectedEnd
    · have := ih h
      rw [List.length_cons]
      omega

end Outline

/-! ### Failing operations -/

/-- Whether a fault comes from carrying out an operation. -/
def ReckonFault.isArithmetic : ReckonFault → Bool
  | divisionByZero | outOfRange => true
  | _ => false

/-- An operation fails whose operator is the token at the index of the error. -/
structure ReckonError.FailsIn (ts : List Token) (e : ReckonError) : Prop where
  arithmetic : e.fault.isArithmetic = true
  operator : ∃ op, ts[e.index]? = some (.symbol (.operator op))

namespace ReckonError
variable {ts us : List Token} {e : ReckonError}

theorem FailsIn.index_lt (h : e.FailsIn ts) : e.index < ts.length :=
  let ⟨_, hop⟩ := h.operator
  (List.getElem?_eq_some_iff.1 hop).1

theorem FailsIn.append (h : e.FailsIn ts) (us : List Token) : e.FailsIn (ts ++ us) :=
  ⟨h.arithmetic, let ⟨op, hop⟩ := h.operator; ⟨op, by rw [List.getElem?_append_left h.index_lt, hop]⟩⟩

end ReckonError

theorem Outline.isArithmetic_of_step_eq_error {o : Outline} {t : Token} {fault : ReckonFault}
    (h : o.step t = .error fault) : fault.isArithmetic = false := by
  unfold step at h
  split at h <;> cases h <;> rfl

theorem Outline.isArithmetic_of_finish_eq_error {o : Outline} {fault : ReckonFault}
    (h : o.finish = .error fault) : fault.isArithmetic = false := by
  unfold finish at h
  split at h <;> cases h <;> rfl

/-- No fault of an outline is arithmetic. -/
theorem Outline.isArithmetic_of_run_eq_error {i : Nat} {o : Outline} {ts : List Token}
    {e : ReckonError} (h : o.run i ts = .error e) : e.fault.isArithmetic = false := by
  induction ts generalizing i o with
  | nil =>
    rw [run] at h
    rcases hf : o.finish with fault | _ <;> rw [hf] at h <;> cases h
    exact isArithmetic_of_finish_eq_error hf
  | cons t ts ih =>
    rw [run] at h
    rcases hs : o.step t with fault | next <;> rw [hs] at h
    · cases h
      exact isArithmetic_of_step_eq_error hs
    · exact ih h

theorem Operator.isArithmetic_of_apply_eq_error {op : Operator} {a b : Decimal} {fault : ReckonFault}
    (h : op.apply a b = .error fault) : fault.isArithmetic = true := by
  unfold apply at h
  split at h
  · cases h; rfl
  · split at h <;> cases h
    rfl

/-- `x` is a value that satisfies `P`, unless an operation fails whose operator is in `past`. -/
def Computes {α : Type} (past : List Token) (P : α → Prop) : Except ReckonError α → Prop
  | .ok a => P a
  | .error e => e.FailsIn past

namespace Computes
variable {α β : Type} {past : List Token} {P : α → Prop} {Q : β → Prop}

theorem cases {x : Except ReckonError α} (h : Computes past P x) :
    (∃ e, x = .error e ∧ e.FailsIn past) ∨ ∃ a, x = .ok a ∧ P a := by
  cases x with
  | error e => exact .inl ⟨e, rfl, h⟩
  | ok a => exact .inr ⟨a, rfl, h⟩

theorem imp {x : Except ReckonError α} {P' : α → Prop} (h : Computes past P x)
    (hP : ∀ a, P a → P' a) : Computes past P' x := by
  cases x with
  | error e => exact h
  | ok a => exact hP a h

theorem bind {x : Except ReckonError α} {f : α → Except ReckonError β} (h : Computes past P x)
    (hf : ∀ a, P a → Computes past Q (f a)) : Computes past Q (x >>= f) := by
  cases x with
  | error e => exact h
  | ok a => exact hf a h

theorem applyAt {op : Operator} {i : Nat} (h : past[i]? = some (.symbol (.operator op)))
    (a b : Decimal) : Computes past (fun _ => True) (op.applyAt i a b) := by
  unfold Operator.applyAt
  rcases hab : op.apply a b with fault | result
  · exact ⟨Operator.isArithmetic_of_apply_eq_error hab, op, h⟩
  · trivial

end Computes

/-! ### The stacks of a reckoning -/

namespace Stack
variable {past : List Token} {below : Stack}

/-- The number of open groups. -/
def depth : Stack → Nat
  | [] => 0
  | .group :: below => depth below + 1
  | .negation :: below | .factor .. :: below | .addend .. :: below => depth below

/-- The operators of the waiting operations are tokens of `past`, and above each group, sign or
operation waits only what may follow it. Signs and a multiplication or division on top are
`pending`: they wait for the very next operand. -/
def Regular (past : List Token) : (pending : Bool) → Stack → Prop
  | _, [] => True
  | _, .group :: below => Regular past true below
  | _, .addend _ op i :: below =>
    past[i]? = some (.symbol (.operator op)) ∧ Regular past false below
  | pending, .factor _ op i :: below =>
    pending = true ∧ past[i]? = some (.symbol (.operator op)) ∧ Regular past false below
  | pending, .negation :: below => pending = true ∧ Regular past true below

theorem Regular.pending {stack : Stack} (h : Regular past false stack) :
    Regular past true stack := by
  rcases stack with _ | ⟨_ | _ | _ | _, below⟩
  · trivial
  · exact absurd h.1 (by decide)
  · exact absurd h.1 (by decide)
  · exact h
  · exact h

theorem Regular.append {stack : Stack} {pending : Bool} (h : Regular past pending stack)
    (ts : List Token) : Regular (past ++ ts) pending stack := by
  have placed : ∀ {i : Nat} {op : Operator}, past[i]? = some (.symbol (.operator op)) →
      (past ++ ts)[i]? = some (.symbol (.operator op)) := fun hi => by
    rw [List.getElem?_append_left (List.getElem?_eq_some_iff.1 hi).1, hi]
  induction stack generalizing pending with
  | nil => trivial
  | cons frame below ih =>
    cases frame with
    | negation => exact ⟨h.1, ih h.2⟩
    | factor left op i => exact ⟨h.1, placed h.2.1, ih h.2.2⟩
    | addend left op i => exact ⟨placed h.1, ih h.2⟩
    | group =>
      have hbelow : Regular past true below := h
      exact ih hbelow

/-- Handing over an operand settles what is pending and closes no group. -/
theorem computes_supply {stack : Stack} (h : Regular past true stack) (v : Decimal) :
    Computes past (fun r => Regular past false r.1 ∧ r.1.depth = stack.depth) (stack.supply v) := by
  induction stack generalizing v with
  | nil => exact ⟨trivial, rfl⟩
  | cons frame below ih =>
    cases frame with
    | negation => exact ih h.2 (-v)
    | factor left op i => exact (Computes.applyAt h.2.1 left v).bind fun _ _ => ⟨h.2.2, rfl⟩
    | addend left op i => exact ⟨h, rfl⟩
    | group => exact ⟨h, rfl⟩

/-- The end of a chain uncovers the innermost open group. -/
theorem computes_endChain {stack : Stack} (h : Regular past false stack) (v : Decimal) :
    Computes past (fun r => r.1 = [] ∧ stack.depth = 0 ∨
      ∃ below : Stack, r.1 = .group :: below ∧ Regular past true below ∧ stack.depth = below.depth + 1)
      (stack.endChain v) := by
  induction stack generalizing v with
  | nil => exact .inl ⟨rfl, rfl⟩
  | cons frame below ih =>
    cases frame with
    | negation => exact absurd h.1 (by decide)
    | factor left op i => exact absurd h.1 (by decide)
    | addend left op i => exact (Computes.applyAt h.1 left v).bind fun r _ => ih h.2 r
    | group => exact .inr ⟨below, rfl, h, rfl⟩

end Stack

/-! ### The outline of a reckoning -/

namespace Reckoning
variable {past : List Token}

/-- What remains of the state when values do not matter. -/
def outline : Reckoning → Outline
  | awaiting site stack => ⟨.operand site, stack.depth⟩
  | holding stack _ => ⟨.operator, stack.depth⟩

/-- The stack of a reckoning is regular. -/
def Regular (past : List Token) : Reckoning → Prop
  | awaiting _ stack => stack.Regular past true
  | holding stack _ => stack.Regular past false

theorem computes_supplied {stack : Stack} (h : stack.Regular past true) (v : Decimal) :
    Computes past (fun next => next.Regular past ∧ next.outline = ⟨.operator, stack.depth⟩)
      (supplied stack v) :=
  (Stack.computes_supply h v).bind fun _ hr => ⟨hr.1, by rw [outline, hr.2]⟩

/-- A closing parenthesis closes a group, if one is open. -/
theorem computes_closed {stack : Stack} (h : stack.Regular past false) (v : Decimal) (i : Nat) :
    stack.depth = 0 ∧ closed stack v i = .error ⟨.unexpectedToken (.symbol .closing), i⟩ ∨
      Computes past (fun next => next.Regular past ∧
        ∃ depth, stack.depth = depth + 1 ∧ next.outline = ⟨.operator, depth⟩) (closed stack v i) := by
  unfold closed
  rcases (Stack.computes_endChain h v).cases with ⟨e, he, hf⟩ | ⟨⟨rest, w⟩, hr, hrest⟩
  · rw [he]; exact .inr hf
  · rw [hr]
    rcases hrest with ⟨rfl, hd⟩ | ⟨below, rfl, hb, hd⟩
    · exact .inl ⟨hd, rfl⟩
    · exact .inr ((computes_supplied hb w).imp fun _ hn => ⟨hn.1, _, hd, hn.2⟩)

theorem Regular.append {state : Reckoning} (h : state.Regular past) (ts : List Token) :
    state.Regular (past ++ ts) := by
  cases state <;> exact Stack.Regular.append h ts

/-- One token: the outline refuses it and so does the reckoning, or the reckoning goes on along its
outline, unless an operation fails. -/
theorem step_outline {state : Reckoning} (h : state.Regular past) (t : Token) :
    (∃ fault, state.outline.step t = .error fault ∧
      state.step past.length t = .error ⟨fault, past.length⟩) ∨
    Computes past (fun next => next.Regular (past ++ [t]) ∧
      state.outline.step t = .ok next.outline) (state.step past.length t) := by
  cases state with
  | awaiting site stack =>
    have hs : stack.Regular (past ++ [t]) true := Stack.Regular.append h [t]
    rcases t with v | ⟨_ | _ | _ | _⟩ | _ | _
    · exact .inr ((computes_supplied h v).imp fun _ hn => ⟨hn.1.append _, by rw [hn.2]; rfl⟩)
    · exact .inr ⟨hs, rfl⟩
    · exact .inr ⟨⟨rfl, hs⟩, rfl⟩
    · exact .inl ⟨site.missing (some _), by cases site <;> rfl, rfl⟩
    · exact .inl ⟨site.missing (some _), by cases site <;> rfl, rfl⟩
    · exact .inr ⟨hs, rfl⟩
    · exact .inl ⟨site.missing (some _), by cases site <;> rfl, rfl⟩
  | holding stack v =>
    have hs : stack.Regular (past ++ [t]) false := Stack.Regular.append h [t]
    rcases t with w | op | _ | _
    · exact .inl ⟨_, by cases stack.depth <;> rfl, rfl⟩
    · have hi : (past ++ [.symbol (.operator op)])[past.length]? = some (.symbol (.operator op)) := by
        simp
      cases op
      · exact .inr ⟨⟨hi, hs⟩, rfl⟩
      · exact .inr ⟨⟨hi, hs⟩, rfl⟩
      · exact .inr ⟨⟨rfl, hi, hs⟩, rfl⟩
      · exact .inr ⟨⟨rfl, hi, hs⟩, rfl⟩
    · exact .inl ⟨_, by cases stack.depth <;> rfl, rfl⟩
    · rcases computes_closed h v past.length with ⟨hd, hc⟩ | hc
      · exact .inl ⟨_, by rw [outline, hd]; rfl, hc⟩
      · refine .inr (hc.imp fun next ⟨hn, depth, hd, ho⟩ => ⟨hn.append _, ?_⟩)
        rw [outline, hd, ho]; rfl

/-- The value of the tokens that are left, from an index on. -/
def reckonFrom (i : Nat) (state : Reckoning) (ts : List Token) : Except ReckonError Decimal :=
  walk i state ts >>= finish (i + ts.length)

/-- A result `x` agrees with a verdict `y`: both are an error, and the same one, or neither is, except
that an operation of `ts` can fail before the error of the verdict. -/
def Agrees (ts : List Token) (x : Except ReckonError Decimal) (y : Except ReckonError Unit) : Prop :=
  match x with
  | .ok _ => y = .ok ()
  | .error e => y = .error e ∨ e.FailsIn ts ∧ ∀ r, y = .error r → e.index < r.index

theorem agrees_of_failsIn {past ts : List Token} {e : ReckonError} (h : e.FailsIn past) (o : Outline) :
    Agrees (past ++ ts) (.error e) (o.run past.length ts) :=
  .inr ⟨h.append ts, fun _ hr =>
    Nat.lt_of_lt_of_le h.index_lt (Outline.index_of_run_eq_error hr).1⟩

theorem agrees_finish {state : Reckoning} (h : state.Regular past) :
    Agrees past (state.finish past.length) (state.outline.run past.length []) := by
  cases state with
  | awaiting site stack => cases site <;> exact .inl rfl
  | holding stack v =>
    rw [finish]
    rcases (Stack.computes_endChain h v).cases with ⟨e, he, hf⟩ | ⟨⟨rest, w⟩, hr, hrest⟩
    · have hagrees : Agrees (past ++ []) (.error e) ((outline (holding stack v)).run past.length []) :=
        agrees_of_failsIn hf _
      rw [List.append_nil] at hagrees
      rw [he]; exact hagrees
    · rw [hr]
      rcases hrest with ⟨rfl, hd⟩ | ⟨below, rfl, -, hd⟩
      · rw [outline, hd]; rfl
      · rw [outline, hd]; exact .inl rfl

/-- All tokens: what a regular state makes of them agrees with the verdict of its outline. -/
theorem agrees_run (ts : List Token) : ∀ {past : List Token} {state : Reckoning},
    state.Regular past →
    Agrees (past ++ ts) (state.reckonFrom past.length ts) (state.outline.run past.length ts) := by
  induction ts with
  | nil =>
    intro past state h
    rw [List.append_nil]
    exact agrees_finish h
  | cons t ts ih =>
    intro past state h
    rcases step_outline h t with ⟨fault, ho, hs⟩ | hs
    · rw [reckonFrom, walk, hs, Outline.run, ho]
      exact .inl rfl
    · rw [reckonFrom, walk]
      rcases hs.cases with ⟨e, he, hf⟩ | ⟨next, hn, hreg, ho⟩
      · rw [he]; exact agrees_of_failsIn hf _
      · have := ih hreg
        rw [List.length_append, List.append_assoc] at this
        rw [hn, Outline.run, ho, List.length_cons, Nat.add_comm ts.length 1, ← Nat.add_assoc]
        exact this

end Reckoning

theorem agrees_verdict (ts : List Token) :
    Reckoning.Agrees ts (reckon ts) (Outline.verdict ts) := by
  have hstart : Reckoning.start.Regular [] := trivial
  have h := Reckoning.agrees_run ts hstart
  rw [Reckoning.reckonFrom, List.length_nil, Nat.zero_add] at h
  exact h

theorem verdict_of_reckon_eq_error {ts : List Token} {e : ReckonError} (h : reckon ts = .error e)
    (harith : e.fault.isArithmetic = false) : Outline.verdict ts = .error e := by
  have hagrees := agrees_verdict ts
  rw [h] at hagrees
  rcases hagrees with hv | ⟨hfails, -⟩
  · exact hv
  · rw [hfails.arithmetic] at harith
    cases harith

/-- Reckoning stops where the verdict says, with the fault that it says, unless an operation before
that place fails. Every other fault of reckoning is one of the verdict. -/
theorem reckon_verdict (ts : List Token) :
    (Outline.verdict ts = .ok () →
      (∃ v, reckon ts = .ok v) ∨ ∃ e, reckon ts = .error e ∧ e.FailsIn ts) ∧
    (∀ r, Outline.verdict ts = .error r →
      r.index ≤ ts.length ∧ r.fault.isArithmetic = false ∧
        (reckon ts = .error r ∨ ∃ e, reckon ts = .error e ∧ e.FailsIn ts ∧ e.index < r.index)) ∧
    (∀ v, reckon ts = .ok v → Outline.verdict ts = .ok ()) ∧
    (∀ e, reckon ts = .error e → e.fault.isArithmetic = false → Outline.verdict ts = .error e) := by
  have h := agrees_verdict ts
  refine ⟨fun hv => ?_, fun r hr => ?_, fun v hx => ?_, fun e hx harith => ?_⟩
  · rcases hx : reckon ts with e | v
    · rw [hx, hv] at h
      rcases h with h | ⟨hf, -⟩
      · cases h
      · exact .inr ⟨e, rfl, hf⟩
    · exact .inl ⟨v, rfl⟩
  · have hle := (Outline.index_of_run_eq_error hr).2
    rw [Nat.zero_add] at hle
    refine ⟨hle, Outline.isArithmetic_of_run_eq_error hr, ?_⟩
    rcases hx : reckon ts with e | v
    · rw [hx, hr] at h
      rcases h with h | ⟨hf, hlt⟩
      · exact .inl (congrArg Except.error (Except.error.inj h).symm)
      · exact .inr ⟨e, rfl, hf, hlt r rfl⟩
    · rw [hx, hr] at h
      cases h
  · rw [hx] at h
    exact h
  · rw [hx] at h
    rcases h with h | ⟨hf, -⟩
    · exact h
    · rw [hf.arithmetic] at harith
      cases harith

end Abacus
