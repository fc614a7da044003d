import Abacus.Proofs.Group

/-! # The first error

Reckoning stops at the first token that it cannot take, so the tokens behind an error that was found on
the way do not matter. Only what still waits at the end of the tokens can come to something else when
more of them follow, and these are additions and subtractions (`Stack.Patient`).

`reckon_append_eq_error`: an error that lies neither at the end nor at an addition or subtraction is
the error of every longer token sequence. -/

namespace Abacus

/-- What waits for the rest of a chain is an addition or subtraction. -/
def Frame.Patient : Frame → Prop
  | .addend _ op _ => op.isTight = false
  | _ => True

def Stack.Patient (stack : Stack) : Prop := ∀ frame ∈ stack, frame.Patient

namespace Stack
variable {past : List Token} {stack below : Stack} {v w : Decimal}

theorem Patient.of_suffix (h : stack.Patient) (hs : below <:+ stack) : below.Patient :=
  fun frame hframe => h frame (hs.subset hframe)

theorem Patient.cons (h : stack.Patient) {frame : Frame} (hframe : frame.Patient) :
    Patient (frame :: stack) :=
  List.forall_mem_cons.2 ⟨hframe, h⟩

/-! ### What leaves the stack -/

theorem suffix_of_supply_eq_ok (h : stack.supply v = .ok (below, w)) : below <:+ stack := by
  induction stack generalizing v with
  | nil =>
    cases h
    exact List.suffix_refl _
  | cons frame rest ih =>
    cases frame with
    | negation => exact (ih h).trans (List.suffix_cons _ _)
    | factor left op i =>
      rw [supply] at h
      rcases hr : op.applyAt i left v with e | result <;> rw [hr] at h <;> cases h
      exact List.suffix_cons _ _
    | addend left op i =>
      cases h
      exact List.suffix_refl _
    | group =>
      cases h
      exact List.suffix_refl _

theorem suffix_of_endChain_eq_ok (h : stack.endChain v = .ok (below, w)) : below <:+ stack := by
  induction stack generalizing v with
  | nil =>
    cases h
    exact List.suffix_refl _
  | cons frame rest ih =>
    cases frame with
    | addend left op i =>
      rw [endChain] at h
      rcases hr : op.applyAt i left v with e | result <;> rw [hr] at h
      · cases h
      · exact (ih h).trans (List.suffix_cons _ _)
    | negation =>
      cases h
      exact List.suffix_refl _
    | factor left op i =>
      cases h
      exact List.suffix_refl _
    | group =>
      cases h
      exact List.suffix_refl _

/-- The end of a chain fails at one of the operations that waited for it. -/
theorem exists_addend_of_endChain_eq_error {e : ReckonError} (h : stack.endChain v = .error e) :
    ∃ left op, .addend left op e.index ∈ stack := by
  induction stack generalizing v with
  | nil => cases h
  | cons frame rest ih =>
    cases frame with
    | addend left op i =>
      rw [endChain, Operator.applyAt] at h
      rcases hr : op.apply left v with fault | result <;> rw [hr] at h
      · cases h
        exact ⟨left, op, List.mem_cons_self⟩
      · obtain ⟨left', op', hmem⟩ := ih h
        exact ⟨left', op', List.mem_cons_of_mem _ hmem⟩
    | negation => cases h
    | factor left op i => cases h
    | group => cases h

/-- An operation that waits stands on the stack with its operator among the tokens so far. -/
theorem Regular.getElem?_of_mem {pending : Bool} (h : stack.Regular past pending) {left : Decimal}
    {op : Operator} {i : Nat} (hmem : .addend left op i ∈ stack) :
    past[i]? = some (.symbol (.operator op)) := by
  induction stack generalizing pending with
  | nil => cases hmem
  | cons frame below ih =>
    rcases List.mem_cons.1 hmem with rfl | hbelow
    · exact h.1
    · cases frame with
      | negation => exact ih h.2 hbelow
      | factor left op i => exact ih h.2.2 hbelow
      | addend left op i => exact ih h.2 hbelow
      | group =>
        have hgroup : Regular past true below := h
        exact ih hgroup hbelow

end Stack

namespace Reckoning
variable {past : List Token} {state next : Reckoning} {i : Nat}

/-! ### Along the tokens -/

def stack : Reckoning → Stack
  | awaiting _ stack => stack
  | holding stack _ => stack

theorem suffix_of_supplied_eq_ok {stack : Stack} {v : Decimal} (h : supplied stack v = .ok next) :
    next.stack <:+ stack := by
  rw [supplied] at h
  rcases hs : stack.supply v with e | ⟨below, w⟩ <;> rw [hs] at h <;> cases h
  exact Stack.suffix_of_supply_eq_ok hs

theorem suffix_of_closed_eq_ok {stack : Stack} {v : Decimal} (h : closed stack v i = .ok next) :
    next.stack <:+ stack := by
  rw [closed] at h
  rcases hc : stack.endChain v with e | ⟨_ | ⟨_ | _ | _ | _, below⟩, w⟩ <;> rw [hc] at h
  · cases h
  · cases h
  · cases h
  · cases h
  · cases h
  · have hbelow : below <:+ stack :=
      (List.suffix_cons _ _).trans (Stack.suffix_of_endChain_eq_ok hc)
    exact (suffix_of_supplied_eq_ok h).trans hbelow

/-- One token: it takes frames from the stack or puts one on it, and an operator that is put there to
wait is one of addition or subtraction. -/
theorem patient_step {t : Token} (hp : state.stack.Patient) (h : state.step i t = .ok next) :
    next.stack.Patient := by
  cases state with
  | awaiting site stack =>
    have hstack : stack.Patient := hp
    rcases t with v | ⟨_ | _ | _ | _⟩ | _ | _
    · exact hstack.of_suffix (suffix_of_supplied_eq_ok h)
    · cases h
      exact hstack
    · cases h
      exact hstack.cons trivial
    · cases h
    · cases h
    · cases h
      exact hstack.cons trivial
    · cases h
  | holding stack v =>
    have hstack : stack.Patient := hp
    rcases t with w | ⟨_ | _ | _ | _⟩ | _ | _
    · cases h
    · cases h
      exact hstack.cons rfl
    · cases h
      exact hstack.cons rfl
    · cases h
      exact hstack.cons trivial
    · cases h
      exact hstack.cons trivial
    · cases h
    · exact hstack.of_suffix (suffix_of_closed_eq_ok h)

theorem patient_walk {ts : List Token} (hp : state.stack.Patient) (h : state.walk i ts = .ok next) :
    next.stack.Patient := by
  induction ts generalizing i state with
  | nil =>
    cases h
    exact hp
  | cons t ts ih =>
    rw [walk] at h
    rcases hs : state.step i t with e | middle <;> rw [hs] at h
    · cases h
    · exact ih (patient_step hp hs) h

/-! ### At the end of the tokens -/

/-- At the end of the tokens, either the end itself is wrong or a waiting addition or subtraction
fails. -/
theorem finish_error {e : ReckonError} (hreg : state.Regular past) (hp : state.stack.Patient)
    (h : state.finish past.length = .error e) :
    e.fault.isArithmetic = false ∧ e.index = past.length ∨
      e.fault.isArithmetic = true ∧
        ∃ op, op.isTight = false ∧ past[e.index]? = some (.symbol (.operator op)) := by
  cases state with
  | awaiting site stack =>
    cases h
    cases site <;> exact .inl ⟨rfl, rfl⟩
  | holding stack v =>
    have hstack : stack.Regular past false := hreg
    rw [finish] at h
    rcases hc : stack.endChain v with e' | ⟨_ | ⟨frame, below⟩, w⟩ <;> rw [hc] at h <;> cases h
    · obtain ⟨left, op, hmem⟩ := Stack.exists_addend_of_endChain_eq_error hc
      have hfails : e.FailsIn past := by
        have hcomputes := Stack.computes_endChain hstack v
        rw [hc] at hcomputes
        exact hcomputes
      exact .inr ⟨hfails.arithmetic, op, hp _ hmem, hstack.getElem?_of_mem hmem⟩
    · exact .inl ⟨rfl, rfl⟩

end Reckoning

open Reckoning

/-- An error is found on the way, or at the end of the tokens: it is the end itself that is wrong, or an
addition or subtraction that waited for it. -/
theorem reckon_error_cases {ts : List Token} {e : ReckonError} (h : reckon ts = .error e) :
    start.walk 0 ts = .error e ∨ e.fault.isArithmetic = false ∧ e.index = ts.length ∨
      e.fault.isArithmetic = true ∧
        ∃ op, op.isTight = false ∧ ts[e.index]? = some (.symbol (.operator op)) := by
  have hstart : start.Regular [] := trivial
  have hwalk := regular_walk ts hstart
  rw [List.length_nil, Nat.zero_add, List.nil_append] at hwalk
  rw [reckon] at h
  rcases hwalk with ⟨d, hd, -⟩ | ⟨state, hs, hreg⟩
  · rw [hd] at h ⊢
    cases h
    exact .inl rfl
  · have hnone : start.stack.Patient := List.forall_mem_nil _
    rw [hs] at h
    exact .inr (finish_error hreg (patient_walk hnone hs) h)

/-- An error stays the error whatever tokens follow, unless it lies at the end of the tokens or an
addition or subtraction failed, whose right operand is the rest of its chain. -/
theorem reckon_append_eq_error {ts : List Token} {e : ReckonError} (h : reckon ts = .error e)
    (hfinal : e.fault.isArithmetic = false ∧ e.index < ts.length ∨
      e.fault.isArithmetic = true ∧
        ∃ op, op.isTight = true ∧ ts[e.index]? = some (.symbol (.operator op)))
    (us : List Token) : reckon (ts ++ us) = .error e := by
  rcases reckon_error_cases h with hwalk | ⟨harith, hend⟩ | ⟨harith, op, hloose, hop⟩
  · rw [reckon_append, hwalk]
    rfl
  · rcases hfinal with ⟨-, hlt⟩ | ⟨harith', -⟩
    · omega
    · rw [harith] at harith'
      cases harith'
  · rcases hfinal with ⟨harith', -⟩ | ⟨-, op', htight, hop'⟩
    · rw [harith] at harith'
      cases harith'
    · rw [hop] at hop'
      cases hop'
      rw [hloose] at htight
      cases htight

namespace NothingByNothing

/-- Nothing divided by nothing. -/
def quotient : List Token := [.number 0, .symbol (.operator .divide), .number 0]

/-- A group is closed that was not opened. -/
def unopened : List Token := [.number 0, .symbol .closing]

/-- With these tokens at the end nothing is an expression. -/
def rest : List Token := [.symbol .closing, .symbol (.operator .times)]

theorem reckon_longer :
    reckon quotient = .error ⟨.divisionByZero, 1⟩ ∧
    reckon (quotient ++ rest) = .error ⟨.divisionByZero, 1⟩ ∧
    reckon unopened = .error ⟨.unexpectedToken (.symbol .closing), 1⟩ ∧
    reckon (unopened ++ rest) = .error ⟨.unexpectedToken (.symbol .closing), 1⟩ := by
  have hquotient : reckon quotient = .error ⟨.divisionByZero, 1⟩ := rfl
  have hunopened : reckon unopened = .error ⟨.unexpectedToken (.symbol .closing), 1⟩ := rfl
  have hdivide : ∃ op, op.isTight = true ∧ quotient[1]? = some (.symbol (.operator op)) :=
    ⟨.divide, rfl, rfl⟩
  have hinside : 1 < unopened.length := by decide
  exact ⟨hquotient, reckon_append_eq_error hquotient (.inr ⟨rfl, hdivide⟩) rest,
    hunopened, reckon_append_eq_error hunopened (.inl ⟨rfl, hinside⟩) rest⟩

end NothingByNothing

end Abacus
