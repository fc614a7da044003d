import Abacus.Proofs.Grammar

/-! # Groups

Reckoning looks at indices only to place its errors, so it goes the same way when the tokens are
counted differently (`reckonFrom_renumber`).

`reckon_group`: a group whose content has a value can stand for this value wherever a number can stand,
and where no number can stand it is refused as the number would be. -/

namespace Abacus

/-! ### Counting the tokens differently -/

def ReckonError.renumber (f : Nat → Nat) (e : ReckonError) : ReckonError := ⟨e.fault, f e.index⟩

/-- A result when the token with index `i` is counted as `f i`. -/
def recount {α : Type} (f : Nat → Nat) (g : α → α) : Except ReckonError α → Except ReckonError α
  | .ok a => .ok (g a)
  | .error e => .error (e.renumber f)

theorem recount_bind {α β : Type} {f : Nat → Nat} {g : α → α} {g' : β → β}
    {k k' : α → Except ReckonError β} (hk : ∀ a, k' (g a) = recount f g' (k a))
    (x : Except ReckonError α) : recount f g x >>= k' = recount f g' (x >>= k) := by
  cases x with
  | error e => rfl
  | ok a => exact hk a

variable {f : Nat → Nat}

theorem Operator.applyAt_renumber (op : Operator) (i : Nat) (a b : Decimal) :
    op.applyAt (f i) a b = recount f id (op.applyAt i a b) := by
  unfold applyAt
  cases op.apply a b <;> rfl

def Frame.renumber (f : Nat → Nat) : Frame → Frame
  | .negation => .negation
  | .factor left op i => .factor left op (f i)
  | .addend left op i => .addend left op (f i)
  | .group => .group

namespace Stack

def renumber (f : Nat → Nat) (stack : Stack) : Stack := stack.map (Frame.renumber f)

theorem supply_renumber (stack : Stack) (v : Decimal) :
    (stack.renumber f).supply v = recount f (Prod.map (renumber f) id) (stack.supply v) := by
  induction stack generalizing v with
  | nil => rfl
  | cons frame below ih =>
    cases frame with
    | negation => exact ih (-v)
    | factor left op i =>
      show (op.applyAt (f i) left v >>= fun result => .ok (renumber f below, result)) = recount f _
        (op.applyAt i left v >>= fun result => .ok (below, result))
      rw [op.applyAt_renumber]
      cases op.applyAt i left v <;> rfl
    | addend left op i => rfl
    | group => rfl

theorem endChain_renumber (stack : Stack) (v : Decimal) :
    (stack.renumber f).endChain v = recount f (Prod.map (renumber f) id) (stack.endChain v) := by
  induction stack generalizing v with
  | nil => rfl
  | cons frame below ih =>
    cases frame with
    | addend left op i =>
      show (op.applyAt (f i) left v >>= fun result => (renumber f below).endChain result) = _
      rw [op.applyAt_renumber]
      exact recount_bind (fun result => ih result) _
    | negation => rfl
    | factor left op i => rfl
    | group => rfl

/-- The operators that wait on a stack are among the tokens so far. -/
theorem renumber_of_regular {past : List Token} {pending : Bool} {stack : Stack}
    (h : stack.Regular past pending) (hf : ∀ i < past.length, f i = i) : stack.renumber f = stack := by
  have hop : ∀ {i : Nat} {op : Operator}, past[i]? = some (.symbol (.operator op)) → f i = i :=
    fun hi => hf _ (List.getElem?_eq_some_iff.1 hi).1
  induction stack generalizing pending with
  | nil => rfl
  | cons frame below ih =>
    show frame.renumber f :: renumber f below = frame :: below
    cases frame with
    | negation => rw [ih h.2]; rfl
    | factor left op i => rw [ih h.2.2, Frame.renumber, hop h.2.1]
    | addend left op i => rw [ih h.2, Frame.renumber, hop h.1]
    | group =>
      have hbelow : Regular past true below := h
      rw [ih hbelow]
      rfl

end Stack

namespace Reckoning

def renumber (f : Nat → Nat) : Reckoning → Reckoning
  | awaiting site stack => awaiting site (stack.renumber f)
  | holding stack v => holding (stack.renumber f) v

theorem supplied_renumber (stack : Stack) (v : Decimal) :
    supplied (stack.renumber f) v = recount f (renumber f) (supplied stack v) := by
  rw [supplied, supplied, Stack.supply_renumber]
  rcases stack.supply v with e | ⟨below, w⟩ <;> rfl

theorem operated_renumber (stack : Stack) (v : Decimal) (op : Operator) (i : Nat) :
    operated (stack.renumber f) v op (f i) = (operated stack v op i).renumber f := by
  cases op <;> rfl

theorem closed_renumber (stack : Stack) (v : Decimal) (i : Nat) :
    closed (stack.renumber f) v (f i) = recount f (renumber f) (closed stack v i) := by
  rw [closed, Stack.endChain_renumber]
  refine recount_bind (fun r => ?_) _
  rcases r with ⟨_ | ⟨_ | _ | _ | _, below⟩, w⟩
  · rfl
  · rfl
  · rfl
  · rfl
  · exact supplied_renumber below w

theorem step_renumber (state : Reckoning) (i : Nat) (t : Token) :
    (state.renumber f).step (f i) t = recount f (renumber f) (state.step i t) := by
  cases state with
  | awaiting site stack =>
    rcases t with v | ⟨_ | _ | _ | _⟩ | _ | _
    · exact supplied_renumber stack v
    all_goals rfl
  | holding stack v =>
    rcases t with w | op | _ | _
    · rfl
    · exact congrArg Except.ok (operated_renumber stack v op i)
    · rfl
    · exact closed_renumber stack v i

theorem finish_renumber (state : Reckoning) (i : Nat) :
    (state.renumber f).finish (f i) = recount f id (state.finish i) := by
  cases state with
  | awaiting site stack => rfl
  | holding stack v =>
    show ((stack.renumber f).endChain v >>= leaveAll (f i)) = recount f id (stack.endChain v >>= leaveAll i)
    rw [Stack.endChain_renumber]
    refine recount_bind (fun r => ?_) _
    rcases r with ⟨_ | ⟨frame, below⟩, w⟩ <;> rfl

theorem reckonFrom_cons (i : Nat) (state : Reckoning) (t : Token) (ts : List Token) :
    state.reckonFrom i (t :: ts) = state.step i t >>= fun next => next.reckonFrom (i + 1) ts := by
  simp only [reckonFrom, walk, bind_assoc, List.length_cons, Nat.add_assoc, Nat.add_comm 1]

/-- Reckoning goes the same way whichever way the tokens are counted, as long as those to come are
counted one by one. -/
theorem reckonFrom_renumber {i : Nat} (hf : ∀ k, f (i + k) = f i + k) (state : Reckoning)
    (ts : List Token) :
    (state.renumber f).reckonFrom (f i) ts = recount f id (state.reckonFrom i ts) := by
  induction ts generalizing i state with
  | nil => exact finish_renumber state i
  | cons t ts ih =>
    have hnext : ∀ k, f (i + 1 + k) = f (i + 1) + k := fun k => by
      rw [Nat.add_assoc, hf, hf, Nat.add_assoc]
    rw [reckonFrom_cons, reckonFrom_cons, step_renumber, ← hf 1]
    exact recount_bind (fun next => ih hnext next) _

theorem renumber_of_regular {past : List Token} {state : Reckoning} (h : state.Regular past)
    (hf : ∀ i < past.length, f i = i) : state.renumber f = state := by
  cases state with
  | awaiting site stack => exact congrArg (awaiting site) (Stack.renumber_of_regular h hf)
  | holding stack v => exact congrArg (holding · v) (Stack.renumber_of_regular h hf)

theorem regular_walk (ts : List Token) {past : List Token} {state : Reckoning}
    (h : state.Regular past) :
    (∃ e, state.walk past.length ts = .error e ∧ e.index < past.length + ts.length) ∨
      ∃ next, state.walk past.length ts = .ok next ∧ next.Regular (past ++ ts) := by
  induction ts generalizing past state with
  | nil => exact .inr ⟨state, rfl, by simpa using h⟩
  | cons t ts ih =>
    rw [walk, List.length_cons]
    rcases step_outline h t with ⟨fault, -, hs⟩ | hs
    · exact .inl ⟨⟨fault, past.length⟩, by rw [hs]; rfl, by simp⟩
    · rcases hs.cases with ⟨e, he, hf⟩ | ⟨next, hn, hreg, -⟩
      · exact .inl ⟨e, by rw [he]; rfl, Nat.lt_of_lt_of_le hf.index_lt (Nat.le_add_right _ _)⟩
      · have hwalk := ih hreg
        rw [List.length_append, List.append_assoc, Nat.add_assoc _ _ ts.length,
          Nat.add_comm _ ts.length] at hwalk
        rw [hn]
        exact hwalk

/-! ### Putting a group in the place of a number -/

theorem walk_group {ts : List Token} {v : Decimal} (h : reckon ts = .ok v) (i : Nat) (site : Site)
    (stack : Stack) :
    walk i (awaiting site stack) (.symbol .opening :: (ts ++ [.symbol .closing]))
      = supplied stack v := by
  have hv := agrees_verdict ts
  rw [h] at hv
  obtain ⟨e, rfl⟩ := Outline.exists_tokens_eq hv
  rw [e.reckon_tokens, e.valueAt_eq_ok_iff] at h
  have hw := (Primary.group e).walk_tokens i site stack
  rw [Primary.valueAt, (e.valueAt_eq_ok_iff (i + 1)).2 h] at hw
  exact hw

theorem reckonFrom_append (i : Nat) (state : Reckoning) (ts us : List Token) :
    state.reckonFrom i (ts ++ us)
      = state.walk i ts >>= fun next => next.reckonFrom (i + ts.length) us := by
  simp only [reckonFrom, walk_append_bind, bind_assoc, List.length_append, Nat.add_assoc]

theorem reckonFrom_group {ts : List Token} {v : Decimal} (h : reckon ts = .ok v) (i : Nat)
    (site : Site) (stack : Stack) (post : List Token) :
    reckonFrom i (awaiting site stack) (.symbol .opening :: (ts ++ .symbol .closing :: post))
      = supplied stack v >>= fun next => next.reckonFrom (i + (ts.length + 2)) post := by
  have hgroup := reckonFrom_append i (awaiting site stack)
    (.symbol .opening :: (ts ++ [.symbol .closing])) post
  rw [walk_group h] at hgroup
  simpa using hgroup

theorem reckonFrom_number (v : Decimal) (i : Nat) (site : Site) (stack : Stack) (post : List Token) :
    reckonFrom i (awaiting site stack) (.number v :: post)
      = supplied stack v >>= fun next => next.reckonFrom (i + 1) post :=
  reckonFrom_cons ..

end Reckoning

open Reckoning

theorem reckon_append (ts us : List Token) :
    reckon (ts ++ us) = start.walk 0 ts >>= fun state => state.reckonFrom ts.length us := by
  have h := reckonFrom_append 0 start ts us
  rw [Nat.zero_add] at h
  rw [← h, reckonFrom, Nat.zero_add]
  rfl

/-- An index when `k` more tokens stand behind the one at `n`. -/
def stretch (n k i : Nat) : Nat := if i ≤ n then i else i + k

theorem stretch_of_le {n k i : Nat} (h : i ≤ n) : stretch n k i = i := if_pos h

theorem stretch_of_lt {n k i : Nat} (h : n < i) : stretch n k i = i + k := if_neg (by omega)

theorem reckon_group {ts : List Token} {v : Decimal} (h : reckon ts = .ok v)
    (pre post : List Token) :
    reckon (pre ++ .symbol .opening :: (ts ++ .symbol .closing :: post))
      = recount (stretch pre.length (ts.length + 1)) id (reckon (pre ++ .number v :: post)) := by
  -- `f` leaves alone the tokens up to the group and moves those behind it
  generalize hf : stretch pre.length (ts.length + 1) = f
  have hle : ∀ i ≤ pre.length, f i = i := fun i hi => by rw [← hf, stretch_of_le hi]
  have hgt : ∀ k, f (pre.length + 1 + k) = pre.length + (ts.length + 2) + k := fun k => by
    rw [← hf, stretch_of_lt (by omega)]
    omega
  have hgroupEnd : f (pre.length + 1) = pre.length + (ts.length + 2) := hgt 0
  have herror : ∀ e : ReckonError, e.index ≤ pre.length →
      (.error e : Except ReckonError Decimal) = recount f id (.error e) := fun e he => by
    rw [recount, ReckonError.renumber, hle _ he]
  have hstart : start.Regular [] := trivial
  have hwalk := regular_walk pre hstart
  rw [List.length_nil, Nat.zero_add, List.nil_append] at hwalk
  rw [reckon_append, reckon_append]
  rcases hwalk with ⟨e, he, hlt⟩ | ⟨state, hs, hreg⟩
  · rw [he]
    exact herror e (Nat.le_of_lt hlt)
  rw [hs]
  -- after an operand neither a group nor a number can stand
  cases state with
  | holding stack w => exact herror ⟨.operatorExpected, pre.length⟩ (Nat.le_refl _)
  | awaiting site stack =>
    show reckonFrom pre.length (awaiting site stack) _
      = recount f id (reckonFrom pre.length (awaiting site stack) _)
    rw [reckonFrom_group h, reckonFrom_number]
    rcases (computes_supplied hreg v).cases with ⟨e, he, hfails⟩ | ⟨next, hn, hnext, -⟩
    · rw [he]
      exact herror e (Nat.le_of_lt hfails.index_lt)
    · rw [hn]
      show next.reckonFrom _ post = recount f id (next.reckonFrom _ post)
      rw [← reckonFrom_renumber fun k => by rw [hgt, hgroupEnd],
        renumber_of_regular hnext fun i hi => hle i (Nat.le_of_lt hi), hgroupEnd]

/-- A group whose content has a value counts as the number with this value, whatever stands around it.
Both are part of an expression with the same value, or both lead to the same fault: at the same token
if this is not behind the group, else as many tokens later as the group is longer than the number. -/
theorem reckon_replace_group {ts : List Token} {v : Decimal} (h : reckon ts = .ok v)
    (pre post : List Token) :
    (∃ w, reckon (pre ++ [.symbol .opening] ++ ts ++ [.symbol .closing] ++ post) = .ok w ∧
      reckon (pre ++ [.number v] ++ post) = .ok w) ∨
    ∃ d e, reckon (pre ++ [.symbol .opening] ++ ts ++ [.symbol .closing] ++ post) = .error d ∧
      reckon (pre ++ [.number v] ++ post) = .error e ∧ d.fault = e.fault ∧
      (e.index ≤ pre.length → d.index = e.index) ∧
      (pre.length < e.index → d.index = e.index + ts.length + 1) := by
  have hgroup := reckon_group h pre post
  have hleft : pre ++ [.symbol .opening] ++ ts ++ [.symbol .closing] ++ post
      = pre ++ .symbol .opening :: (ts ++ .symbol .closing :: post) := by simp
  have hright : pre ++ [.number v] ++ post = pre ++ .number v :: post := by simp
  rw [hleft, hright, hgroup]
  rcases reckon (pre ++ .number v :: post) with e | w
  · refine .inr ⟨e.renumber (stretch pre.length (ts.length + 1)), e, rfl, rfl, rfl, ?_, ?_⟩
    · intro hle
      exact stretch_of_le hle
    · intro hlt
      exact stretch_of_lt hlt
  · exact .inl ⟨w, rfl, rfl⟩

namespace EightNines

def eight : Decimal := ⟨false, 8, 0, by decide, Nat.zero_le _⟩

def nine : Decimal := ⟨false, 9, 0, by decide, Nat.zero_le _⟩

def content : List Token :=
  [.symbol (.operator .minus), .number eight, .symbol (.operator .times), .number nine]

def value : Decimal := ⟨true, 72, 0, by decide, Nat.zero_le _⟩

/-- The group is the right operand of a subtraction in another group. -/
def pre : List Token := [.symbol .opening, .number nine, .symbol (.operator .minus)]

/-- The outer group is divided by zero, and then an operand is missing. -/
def post : List Token :=
  [.symbol .closing, .symbol (.operator .divide), .number 0, .symbol (.operator .plus)]

theorem reckon_divided : reckon content = .ok value ∧
    reckon (pre ++ [.number value] ++ post) = .error ⟨.divisionByZero, 5⟩ ∧
    reckon (pre ++ [.symbol .opening] ++ content ++ [.symbol .closing] ++ post)
      = .error ⟨.divisionByZero, 10⟩ := by
  have hvalue : reckon content = .ok value := rfl
  have hnumber : reckon (pre ++ [.number value] ++ post) = .error ⟨.divisionByZero, 5⟩ := rfl
  rcases reckon_replace_group hvalue pre post with ⟨w, -, hw⟩ | ⟨d, e, hd, he, hfault, -, hbehind⟩
  · cases hnumber.symm.trans hw
  · cases hnumber.symm.trans he
    obtain ⟨fault, index⟩ := d
    obtain rfl : fault = .divisionByZero := hfault
    obtain rfl : index = 10 := hbehind (by decide)
    exact ⟨hvalue, hnumber, hd⟩

end EightNines

end Abacus
