import Abacus.Proofs.Place
import Abacus.Record

/-! # What is recorded

An evaluation that is recorded records piece by piece what its scan finds (`recordPieces_eq`), and it has
the result of one that is not recorded (`recordEvaluation_eq`).

`evaluationRecords_mirror`: the records of a source are those of the lexemes before its error, or of all
its lexemes, and after them that of the error, if there is one. -/

namespace Abacus

/-! ### Recorded computations -/

namespace Recorded
variable {ε α β : Type}

theorem tell_bind (r : Record) (f : Unit → Recorded ε β) :
    (tell r >>= f) = ⟨r :: (f ()).records, (f ()).result⟩ := rfl

theorem bind_ok (rs : List Record) (a : α) (f : α → Recorded ε β) :
    (⟨rs, .ok a⟩ >>= f) = ⟨rs ++ (f a).records, (f a).result⟩ := rfl

theorem bind_error (rs : List Record) (e : ε) (f : α → Recorded ε β) :
    (⟨rs, .error e⟩ >>= f) = ⟨rs, .error e⟩ := rfl

theorem map_eq (f : α → β) (x : Recorded ε α) : f <$> x = ⟨x.records, x.result.map f⟩ := rfl

end Recorded

/-! ### The records of a scan -/

namespace Scan

/-- A record for each lexeme, and one for the error that stopped the scan. -/
def records (s : Scan) : List Record :=
  s.lexemes.map .lexeme ++ s.stop.toList.map fun e => .failure (.ofScanError e)

/-- The lexemes, or the error as one of the evaluation. -/
def result (s : Scan) : Except EvaluationError (List Lexeme) := s.toExcept.mapError .ofScanError

variable {s : Scan} {e : ScanError}

theorem records_cons (l : Lexeme) (s : Scan) : (s.cons l).records = .lexeme l :: s.records := rfl

theorem result_cons (l : Lexeme) (s : Scan) : (s.cons l).result = s.result.map (l :: ·) := by
  obtain ⟨ls, _ | e⟩ := s <;> rfl

theorem records_of_stop_eq_none (h : s.stop = none) : s.records = s.lexemes.map .lexeme := by
  rw [records, h]
  exact List.append_nil _

theorem records_of_stop_eq_some (h : s.stop = some e) :
    s.records = s.lexemes.map .lexeme ++ [.failure (.ofScanError e)] := by
  rw [records, h]
  rfl

theorem result_of_stop_eq_none (h : s.stop = none) : s.result = .ok s.lexemes := by
  rw [result, toExcept, h]
  rfl

theorem result_of_stop_eq_some (h : s.stop = some e) : s.result = .error (.ofScanError e) := by
  rw [result, toExcept, h]
  rfl

end Scan

/-- Pieces are recorded as they are scanned, one after the other. -/
theorem recordPieces_eq (S : Separators) (cursor : Cursor) (byte : Nat) (ps : List Piece) :
    recordPieces S cursor byte ps
      = ⟨(Scan.ofPieces S cursor byte ps).records, (Scan.ofPieces S cursor byte ps).result⟩ := by
  induction ps generalizing cursor byte with
  | nil => rfl
  | cons p ps ih =>
    rw [recordPieces, Scan.ofPieces]
    rcases p.token? S with fault | _ | token
    · rfl
    · exact ih ..
    · dsimp only
      rw [Recorded.tell_bind, Recorded.map_eq, ih, Scan.records_cons, Scan.result_cons]

/-! ### The records of a source -/

theorem recordPieces_pieces (S : Separators) (source : Text) :
    recordPieces S (Cursor.ofText source) 0 (pieces S source)
      = ⟨(scan S source).records, (scan S source).result⟩ :=
  recordPieces_eq ..

/-- What is recorded of a result: its error. -/
def failureRecords : Except EvaluationError Decimal → List Record
  | .ok _ => []
  | .error e => [.failure e]

/-- Recording changes nothing of the result. -/
theorem recordEvaluation_eq (S : Separators) (source : Text) :
    recordEvaluation S source
      = ⟨(scan S source).lexemes.map .lexeme ++ failureRecords (evaluate S source),
        evaluate S source⟩ := by
  rw [recordEvaluation, recordPieces_pieces]
  rcases hstop : (scan S source).stop with _ | e
  · rw [Scan.records_of_stop_eq_none hstop, Scan.result_of_stop_eq_none hstop, Recorded.bind_ok,
      evaluate_of_stop_eq_none hstop, ← Scan.tokens]
    rcases reckon (scan S source).tokens with r | v <;> rfl
  · rw [Scan.records_of_stop_eq_some hstop, Scan.result_of_stop_eq_some hstop, Recorded.bind_error,
      evaluate_of_stop_eq_some hstop]
    rfl

/-! ### What a record says -/

/-- The message of a record gives this offset, as a number of its own. -/
def Record.Names (r : Record) (offset : Nat) : Prop :=
  ∃ before words after, words ∈ [" at offset ", " mapped to offset "] ∧
    (∀ c ∈ after.toList.head?, c.isDigit = false) ∧
    r.message = before ++ words ++ toString offset ++ after

namespace Record

theorem names_of_message_eq {r : Record} {offset : Nat} {before words : String}
    (hwords : words ∈ [" at offset ", " mapped to offset "])
    (h : r.message = before ++ words ++ toString offset) : r.Names offset :=
  ⟨before, words, "", hwords, by simp, by rw [h, String.append_empty]⟩

theorem names_lexeme (l : Lexeme) : (lexeme l).Names l.offset :=
  names_of_message_eq (List.mem_cons_self ..) rfl

theorem names_failure (e : EvaluationError) : (failure e).Names e.offset := by
  obtain ⟨⟨c | ⟨run, reason⟩, place⟩ | r, offset⟩ := e
  · exact names_of_message_eq (List.mem_cons_self ..) rfl
  · -- the reason follows the offset
    have hmessage : (failure ⟨.scanning ⟨.badNumeral run reason, place⟩, offset⟩).message
        = "invalid decimal " ++ String.ofList (Text.quoted run) ++ " at offset " ++ toString offset
          ++ ": " ++ reason.message := rfl
    exact ⟨_, _, ": " ++ reason.message, List.mem_cons_self .., by simp,
      by rw [hmessage, String.append_assoc]⟩
  · exact names_of_message_eq (List.mem_cons_of_mem _ (List.mem_cons_self ..)) rfl

end Record

/-- The records of a source are first one for each lexeme, in order: for all its lexemes, or for those of
the characters before the error that stops the scan. After them there is one more exactly if the
evaluation fails, that of its error. -/
theorem evaluationRecords_mirror (S : Separators) (source : Text) :
    ∃ ls failures, evaluationRecords S source = ls.map .lexeme ++ failures ∧
      (∀ ms, tokenize S source = .ok ms → ls = ms) ∧
      (∀ e, tokenize S source = .error e → tokenize S (source.take e.offset) = .ok ls) ∧
      (∀ l ∈ ls, (Record.lexeme l).level = .trace ∧ (Record.lexeme l).Names l.offset) ∧
      (∀ v, evaluate S source = .ok v → failures = []) ∧
      (∀ e, evaluate S source = .error e →
        ∃ r, failures = [r] ∧ r = .failure e ∧ r.level = .debug ∧ r.Names e.offset) := by
  refine ⟨(scan S source).lexemes, failureRecords (evaluate S source), ?_, fun ms hms => ?_,
    fun e he => ?_, fun l _ => ⟨rfl, Record.names_lexeme l⟩, fun v hv => ?_, fun e he => ?_⟩
  · rw [evaluationRecords, recordEvaluation_eq]
  · exact (tokenize_eq_ok_iff.1 hms).2
  · exact tokenize_of_scan_eq (scan_take_of_stop_eq_some (tokenize_eq_error_iff.1 he))
  · rw [hv]
    rfl
  · rw [he]
    exact ⟨_, rfl, rfl, rfl, Record.names_failure e⟩

namespace StrayFactor

def fortyOne : Decimal := ⟨false, 41, 0, by decide, Nat.zero_le _⟩

def product : Text := ['4', '1', '\n', '*', '%', '1']

theorem evaluationRecords_product :
    evaluationRecords {} product
      = [.lexeme ⟨.number fortyOne, 0⟩, .lexeme ⟨.symbol (.operator .times), 3⟩,
          .failure ⟨.scanning ⟨.strayCharacter '%', 4⟩, 4⟩] := by
  have htokens : tokenize {} product = .error ⟨.strayCharacter '%', 4⟩ := by decide +kernel
  have hbefore : tokenize {} (product.take 4)
      = .ok [⟨.number fortyOne, 0⟩, ⟨.symbol (.operator .times), 3⟩] := by decide +kernel
  have hproduct : evaluate {} product = .error ⟨.scanning ⟨.strayCharacter '%', 4⟩, 4⟩ := by
    decide +kernel
  obtain ⟨ls, failures, hrecords, -, htake, -, -, hfails⟩ := evaluationRecords_mirror {} product
  obtain rfl := Except.ok.inj ((htake _ htokens).symm.trans hbefore)
  obtain ⟨_, rfl, rfl, -, -⟩ := hfails _ hproduct
  exact hrecords

end StrayFactor

end Abacus
