import Abacus.Proofs.Expression
import Abacus.Proofs.Outline

/-! # Reckoning and the grammar

`Outline.exists_tokens_eq`: whatever the outline lets pass is the token string of an expression.
With `Expression.reckon_tokens` this makes reckoning the evaluation of the grammar: a token sequence
has a value exactly if it is derived by an expression that has it. -/

namespace Abacus

namespace Outline
variable {ts : List Token}

/-- The tokens lead from a state to a good end. -/
def Accepts (o : Outline) (ts : List Token) : Prop := ∃ i, o.run i ts = .ok ()

theorem finish_of_accepts_nil {o : Outline} (h : o.Accepts []) : o.finish = .ok () := by
  obtain ⟨i, hi⟩ := h
  rw [run] at hi
  rcases hf : o.finish with fault | _
  · rw [hf] at hi; cases hi
  · rfl

theorem step_of_accepts_cons {o : Outline} {t : Token} (h : o.Accepts (t :: ts)) :
    ∃ next, o.step t = .ok next ∧ next.Accepts ts := by
  obtain ⟨i, hi⟩ := h
  rw [run] at hi
  rcases hs : o.step t with fault | next
  · rw [hs] at hi; cases hi
  · rw [hs] at hi; exact ⟨next, rfl, i + 1, hi⟩

/-- An expression ends before these tokens: there are none, or they close its group. -/
def EndsBefore (depth : Nat) (ts : List Token) : Prop :=
  depth = 0 ∧ ts = [] ∨
    ∃ outer rest, depth = outer + 1 ∧ ts = .symbol .closing :: rest ∧ Accepts ⟨.operator, outer⟩ rest

end Outline

theorem Primary.tokens_length_pos (p : Primary) : 0 < p.tokens.length := by
  cases p <;> simp [Primary.tokens]

/-! ### Deriving what is accepted

By induction on the number of tokens: a primary has at least one, and so has an operator. -/

namespace Outline
variable {site : Site} {depth : Nat} {ts : List Token}

/-- Tokens that are accepted begin with what the state they are accepted in expects. -/
structure Derivable (ts : List Token) : Prop where
  primary : ∀ {site : Site} {depth : Nat}, Accepts ⟨.operand site, depth⟩ ts →
    ∃ (p : Primary) (rest : List Token), ts = p.tokens ++ rest ∧ Accepts ⟨.operator, depth⟩ rest
  expression : ∀ {site : Site} {depth : Nat}, Accepts ⟨.operand site, depth⟩ ts →
    ∃ (e : Expression) (rest : List Token), ts = e.tokens ++ rest ∧ EndsBefore depth rest
  /-- What follows a term makes it an expression. -/
  chain : ∀ (t : Term) {depth : Nat}, Accepts ⟨.operator, depth⟩ ts →
    ∃ (e : Expression) (taken rest : List Token),
      ts = taken ++ rest ∧ e.tokens = t.tokens ++ taken ∧ EndsBefore depth rest

theorem exists_primary (ih : ∀ us : List Token, us.length < ts.length → Derivable us)
    (h : Accepts ⟨.operand site, depth⟩ ts) :
    ∃ (p : Primary) (rest : List Token), ts = p.tokens ++ rest ∧ Accepts ⟨.operator, depth⟩ rest := by
  rcases ts with _ | ⟨t, ts⟩
  · have := finish_of_accepts_nil h
    cases site <;> cases this
  obtain ⟨next, hs, hn⟩ := step_of_accepts_cons h
  have hts : Derivable ts := ih ts (Nat.lt_succ_self _)
  rcases t with v | ⟨_ | _ | _ | _⟩ | _ | _
  · cases hs
    exact ⟨.number v, ts, rfl, hn⟩
  · cases hs
    obtain ⟨p, rest, rfl, hr⟩ := hts.primary hn
    exact ⟨.positive p, rest, rfl, hr⟩
  · cases hs
    obtain ⟨p, rest, rfl, hr⟩ := hts.primary hn
    exact ⟨.negative p, rest, rfl, hr⟩
  · cases site <;> cases hs
  · cases site <;> cases hs
  · cases hs
    obtain ⟨e, rest, rfl, ⟨hd, -⟩ | ⟨outer, rest, hd, rfl, hr⟩⟩ := hts.expression hn
    · cases hd
    · cases hd
      exact ⟨.group e, rest, by simp [Primary.tokens], hr⟩
  · cases site <;> cases hs

theorem exists_chain (ih : ∀ us : List Token, us.length < ts.length → Derivable us) (t : Term)
    (h : Accepts ⟨.operator, depth⟩ ts) :
    ∃ (e : Expression) (taken rest : List Token),
      ts = taken ++ rest ∧ e.tokens = t.tokens ++ taken ∧ EndsBefore depth rest := by
  rcases ts with _ | ⟨s, ts⟩
  · have := finish_of_accepts_nil h
    cases depth with
    | zero => exact ⟨.single t, [], [], rfl, (List.append_nil _).symm, .inl ⟨rfl, rfl⟩⟩
    | succ => cases this
  obtain ⟨next, hs, hn⟩ := step_of_accepts_cons h
  have hts : Derivable ts := ih ts (Nat.lt_succ_self _)
  rcases s with v | op | _ | _
  · cases depth <;> cases hs
  · cases hs
    rcases hop : op.isTight with _ | _
    · obtain ⟨e, rest, rfl, hend⟩ := hts.expression hn
      exact ⟨.sum t op hop e, _ :: e.tokens, rest, rfl, rfl, hend⟩
    · obtain ⟨p, rest, rfl, hr⟩ := hts.primary hn
      have hlt : rest.length < (.symbol (.operator op) :: (p.tokens ++ rest)).length := by
        rw [List.length_cons, List.length_append]
        omega
      obtain ⟨e, taken, rest, rfl, he, hend⟩ := (ih rest hlt).chain (.product t op hop p) hr
      refine ⟨e, .symbol (.operator op) :: (p.tokens ++ taken), rest, by simp, ?_, hend⟩
      rw [he, Term.tokens, List.append_assoc]; rfl
  · cases depth <;> cases hs
  · cases depth with
    | zero => cases hs
    | succ outer =>
      cases hs
      exact ⟨.single t, [], _, rfl, (List.append_nil _).symm, .inr ⟨outer, ts, rfl, rfl, hn⟩⟩

theorem exists_expression (ih : ∀ us : List Token, us.length < ts.length → Derivable us)
    (h : Accepts ⟨.operand site, depth⟩ ts) :
    ∃ (e : Expression) (rest : List Token), ts = e.tokens ++ rest ∧ EndsBefore depth rest := by
  obtain ⟨p, rest, rfl, hr⟩ := exists_primary ih h
  have hlt : rest.length < (p.tokens ++ rest).length := by
    rw [List.length_append]
    exact Nat.lt_add_of_pos_left p.tokens_length_pos
  obtain ⟨e, taken, rest, rfl, he, hend⟩ := (ih rest hlt).chain (.single p) hr
  exact ⟨e, rest, by rw [he, List.append_assoc]; rfl, hend⟩

theorem derivable (ts : List Token) : Derivable ts :=
  have ih : ∀ us : List Token, us.length < ts.length → Derivable us := fun us _ => derivable us
  ⟨exists_primary ih, exists_expression ih, fun t => exists_chain ih t⟩
termination_by ts.length

/-- A token sequence with a good verdict is derived by an expression. -/
theorem exists_tokens_eq (h : verdict ts = .ok ()) : ∃ e : Expression, e.tokens = ts := by
  obtain ⟨e, rest, rfl, ⟨-, rfl⟩ | ⟨outer, _, hd, -, -⟩⟩ := (derivable ts).expression ⟨0, h⟩
  · exact ⟨e, (List.append_nil _).symm⟩
  · cases hd

end Outline

/-- Reckoning is sound and complete for the grammar: a token sequence has a value exactly if it is
the token string of an expression that has this value. -/
theorem reckon_eq_ok_iff (ts : List Token) (v : Decimal) :
    reckon ts = .ok v ↔ ∃ e : Expression, e.tokens = ts ∧ e.value = .ok v := by
  constructor
  · intro h
    have hv := agrees_verdict ts
    rw [h] at hv
    obtain ⟨e, rfl⟩ := Outline.exists_tokens_eq hv
    rw [e.reckon_tokens] at h
    exact ⟨e, rfl, (e.valueAt_eq_ok_iff 0).1 h⟩
  · rintro ⟨e, rfl, h⟩
    rw [e.reckon_tokens]
    exact (e.valueAt_eq_ok_iff 0).2 h

end Abacus
