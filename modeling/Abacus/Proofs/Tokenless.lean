import Abacus.Proofs.Evaluation
import Abacus.Proofs.Input
import Abacus.Proofs.Outline

/-! # Sources without a token

A scan finds nothing just if there is nothing but blanks (`tokenize_eq_nil_iff`), and reckoning misses the
beginning of an expression just if it has no token at all (`reckon_eq_unexpectedEnd_iff`).

`blank_iff_tokenless`: so the lines of an input that are left out as blank are those without a token,
whatever the separators. -/

namespace Abacus

/-! ### Scans that find nothing -/

section Scans
variable {S : Separators}

theorem Piece.token?_eq_none_iff {p : Piece} : p.token? S = .ok none ↔ ∃ c, p = .blank c := by
  cases p with
  | blank c => simp [token?]
  | symbol s => simp [token?]
  | run t => rcases h : Numeral.read S t <;> simp [token?, h]
  | stray c => simp [token?]

theorem Scan.placed_eq_nothing_iff {k : Nat} {ps : List Piece} :
    placed S k ps = ⟨[], none⟩ ↔ ∀ p ∈ ps, ∃ c, p = .blank c := by
  induction ps generalizing k with
  | nil => simp [placed]
  | cons p ps ih =>
    rw [List.forall_mem_cons, ← Piece.token?_eq_none_iff (S := S), placed]
    rcases p.token? S with fault | _ | token
    · simp
    · simp [ih]
    · simp [cons]

theorem forall_blank_pieces_iff {t : Text} :
    (∀ p ∈ pieces S t, ∃ c, p = .blank c) ↔ ∀ c ∈ t, Text.isBlank c = true := by
  fun_induction pieces S t <;> simp_all

/-- There is nothing in a source but blanks. Blanks that are separators begin no run either. -/
theorem tokenize_eq_nil_iff {source : Text} :
    tokenize S source = .ok [] ↔ ∀ c ∈ source, Text.isBlank c = true := by
  rw [← forall_blank_pieces_iff (S := S), ← Scan.placed_eq_nothing_iff (k := 0), ← scan_eq_placed,
    tokenize_eq_ok_iff]
  rcases scan S source with ⟨ls, stop⟩
  simp [and_comm]

end Scans

/-! ### Tokens that end too early -/

theorem reckon_eq_unexpectedEnd_iff {ts : List Token} :
    reckon ts = .error ⟨.unexpectedEnd, 0⟩ ↔ ts = [] := by
  constructor
  · intro h
    have hindex := Outline.index_of_run_eq_unexpectedEnd (verdict_of_reckon_eq_error h rfl) rfl
    rw [Nat.zero_add] at hindex
    exact List.eq_nil_of_length_eq_zero hindex.symm
  · rintro rfl
    rfl

section Sources
variable {S : Separators} {source : Text}

theorem tokenize_eq_nil_iff_evaluate : tokenize S source = .ok [] ↔
    ∃ e, evaluate S source = .error e ∧ e.cause = .reckoning ⟨.unexpectedEnd, 0⟩ := by
  rcases hstop : (scan S source).stop with _ | s
  · rw [evaluate_of_stop_eq_none hstop]
    have hnil : (scan S source).lexemes = [] ↔
        reckon (scan S source).tokens = .error ⟨.unexpectedEnd, 0⟩ := by
      rw [reckon_eq_unexpectedEnd_iff, Scan.tokens, List.map_eq_nil_iff]
    rw [tokenize_eq_ok_iff, hnil]
    rcases reckon (scan S source).tokens with r | v <;>
      simp [hstop, Except.mapError, EvaluationError.ofReckonError]
  · rw [evaluate_of_stop_eq_some hstop]
    simp [tokenize_eq_ok_iff, hstop, EvaluationError.ofScanError]

end Sources

/-- A source is blank if it has no token, and only then; it is then that an expression ends before it
begins. So the texts of an input that are left out are those without a token: all others are evaluated,
and none of those left out would have a value or another error. -/
theorem blank_iff_tokenless (S : Separators) :
    (∀ source : Text, (Text.trim source = [] ↔ tokenize S source = .ok []) ∧
      (tokenize S source = .ok [] ↔
        ∃ e, evaluate S source = .error e ∧ e.cause = .reckoning ⟨.unexpectedEnd, 0⟩)) ∧
    ∀ input : List UInt8, ∃ texts unread, Reads input texts unread ∧
      (∀ texts' unread', Reads input texts' unread' → texts' = texts ∧ unread' = unread) ∧
      let kept := texts.filter fun t => tokenize S t ≠ .ok []
      Outcome.ofInput S input
        = Outcome.ofExpressions S kept ++ (if unread = [] then {} else Outcome.unreadable) ∧
      ∀ t ∈ texts, t ∉ kept →
        ∃ e, evaluate S t = .error e ∧ e.cause = .reckoning ⟨.unexpectedEnd, 0⟩ := by
  refine ⟨fun source => ⟨?_, tokenize_eq_nil_iff_evaluate⟩, fun input => ?_⟩
  · rw [Text.trim_eq_nil_iff, tokenize_eq_nil_iff]
  · obtain ⟨texts, unread, h⟩ := exists_reads input
    refine ⟨texts, unread, h, fun texts' unread' h' => h'.unique h, ?_, fun t ht hkept => ?_⟩
    · have hfilter : (fun t : Text => !t.all Text.isBlank)
          = fun t => decide (tokenize S t ≠ .ok []) := by
        funext t
        rw [Bool.eq_iff_iff]
        simp [tokenize_eq_nil_iff]
      rw [Outcome.ofInput_of_reads h, hfilter]
    · rw [← tokenize_eq_nil_iff_evaluate]
      by_contra hne
      exact hkept (List.mem_filter.2 ⟨ht, by simpa using hne⟩)

end Abacus
