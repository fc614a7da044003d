import Abacus.Evaluation
import Abacus.Proofs.Scan

/-! # Evaluation as scanning and reckoning

What an evaluation comes to, in terms of its two stages. `outcome` says it without the places that the
stages give to their own errors. -/

namespace Abacus

def Scan.tokens (s : Scan) : List Token := s.lexemes.map Lexeme.token

variable {S : Separators} {source : Text}

theorem evaluate_of_stop_eq_some {e : ScanError} (h : (scan S source).stop = some e) :
    evaluate S source = .error (.ofScanError e) := by
  rw [evaluate, Scan.value, Scan.toExcept, h]

theorem evaluate_of_stop_eq_none (h : (scan S source).stop = none) :
    evaluate S source = (reckon (scan S source).tokens).mapError
      (.ofReckonError source (scan S source).lexemes) := by
  rw [evaluate, Scan.value, Scan.toExcept, h, Scan.tokens]
  dsimp only
  rcases reckon ((scan S source).lexemes.map Lexeme.token) with e | v <;> rfl

theorem evaluate_eq_ok_iff {v : Decimal} : evaluate S source = .ok v ↔
    (scan S source).stop = none ∧ reckon (scan S source).tokens = .ok v := by
  rcases h : (scan S source).stop with _ | e
  · rw [evaluate_of_stop_eq_none h, mapError_eq_ok_iff]
    simp
  · simp [evaluate_of_stop_eq_some h]

/-! ### Outcomes -/

/-- What is wrong, but not where. -/
inductive Fault where
  | scanning (fault : ScanFault)
  | reckoning (fault : ReckonFault)
deriving DecidableEq

def Cause.fault : Cause → Fault
  | scanning e => .scanning e.fault
  | reckoning e => .reckoning e.fault

/-- The value of a source, or the fault and where it is. -/
def outcome (S : Separators) (source : Text) : Except (Fault × Nat) Decimal :=
  (evaluate S source).mapError fun e => (e.cause.fault, e.offset)

theorem outcome_of_stop_eq_some {e : ScanError} (h : (scan S source).stop = some e) :
    outcome S source = .error (.scanning e.fault, e.offset) := by
  rw [outcome, evaluate_of_stop_eq_some h]
  rfl

theorem outcome_of_stop_eq_none (h : (scan S source).stop = none) :
    outcome S source = (reckon (scan S source).tokens).mapError fun e =>
      (.reckoning e.fault, EvaluationError.offsetOf source (scan S source).lexemes e.index) := by
  rw [outcome, evaluate_of_stop_eq_none h]
  rcases reckon (scan S source).tokens with e | v <;> rfl

theorem outcome_eq_ok_iff {w : Decimal} :
    outcome S source = .ok w ↔ evaluate S source = .ok w := mapError_eq_ok_iff

theorem outcome_eq_error_iff {fault : Fault} {n : Nat} :
    outcome S source = .error (fault, n) ↔
      ∃ e, evaluate S source = .error e ∧ e.cause.fault = fault ∧ e.offset = n := by
  unfold outcome
  cases evaluate S source <;> simp [Except.mapError]

/-! ### The place of a token -/

namespace EvaluationError
variable {ls ms : List Lexeme}

theorem offsetOf_append_of_lt {i : Nat} (h : i < ls.length) :
    offsetOf source (ls ++ ms) i = ls[i].offset := by
  simp [offsetOf, List.getElem?_append_left h, h]

theorem offsetOf_append_add (k : Nat) :
    offsetOf source (ls ++ ms) (ls.length + k) = offsetOf source ms k := by
  rw [offsetOf, List.getElem?_append_right (Nat.le_add_right ..), Nat.add_sub_cancel_left, offsetOf]

theorem offsetOf_map_shift {t : Text} {n : Nat} (h : source.length = n + t.length) (i : Nat) :
    offsetOf source (ls.map (Lexeme.shift n)) i = n + offsetOf t ls i := by
  simp only [offsetOf, List.getElem?_map]
  cases ls[i]? with
  | none => exact h
  | some l => rfl

end EvaluationError

end Abacus
