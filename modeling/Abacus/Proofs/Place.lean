import Abacus.Proofs.Evaluation
import Abacus.Proofs.Outline

/-! # The place of an error

A source that is cut before one of its pieces is scanned as far as that piece (`pieces_flatMap_text`), so
the characters before a lexeme are those of the lexemes before it (`scan_take_of_lexemes_eq`), and the
characters before an error of the scan are scanned without error (`scan_take_of_stop_eq_some`).

`evaluate_error_place`: the place of an error and the stage that found it agree. -/

namespace Abacus

/-! ### The beginning of a source -/

section Pieces
variable {S : Separators}

/-- The first pieces of a source are the pieces of their own text. -/
theorem pieces_flatMap_text {t : Text} : ∀ {before after : List Piece},
    pieces S t = before ++ after → pieces S (before.flatMap Piece.text) = before := by
  have hnil : pieces S (List.flatMap Piece.text []) = [] := by rw [List.flatMap_nil, pieces]
  fun_induction pieces S t with
  | case1 =>
    intro before after h
    obtain ⟨rfl, -⟩ := List.append_eq_nil_iff.1 h.symm
    exact hnil
  | case2 c t hb ih =>
    intro before after h
    rcases List.cons_eq_append_iff.1 h with ⟨rfl, -⟩ | ⟨before, rfl, hps⟩
    · exact hnil
    · rw [List.flatMap_cons, Piece.text, List.singleton_append, pieces_blank hb, ih hps]
  | case3 c t _ s hs ih =>
    intro before after h
    rcases List.cons_eq_append_iff.1 h with ⟨rfl, -⟩ | ⟨before, rfl, hps⟩
    · exact hnil
    · rw [List.flatMap_cons, Piece.text, List.singleton_append, pieces_symbol, ih hps]
  | case4 c t hb hs hr ih =>
    intro before after h
    rcases List.cons_eq_append_iff.1 h with ⟨rfl, -⟩ | ⟨before, rfl, hps⟩
    · exact hnil
    · -- what follows the run begins with a character that ends it
      have hend : S.EndsRun (before.flatMap Piece.text) := by
        refine Separators.EndsRun.of_append (b := after.flatMap Piece.text) ?_
        rw [← List.flatMap_append, ← hps, flatMap_text_pieces]
        exact S.endsRun_dropWhile t
      have hmore : ∀ d ∈ t.takeWhile S.acceptsInRun, S.acceptsInRun d = true :=
        fun d => List.mem_takeWhile_imp
      rw [List.flatMap_cons, Piece.text, List.cons_append, pieces_run (by simpa using hb) hs hr,
        hend.takeWhile_append, hend.dropWhile_append, List.takeWhile_eq_self_iff.2 hmore,
        List.dropWhile_eq_nil_iff.2 hmore, List.nil_append, ih hps]
  | case5 c t hb hs hr ih =>
    intro before after h
    rcases List.cons_eq_append_iff.1 h with ⟨rfl, -⟩ | ⟨before, rfl, hps⟩
    · exact hnil
    · rw [List.flatMap_cons, Piece.text, List.singleton_append,
        pieces_stray (by simpa using hb) hs (by simpa using hr), ih hps]

end Pieces

namespace Scan
variable {S : Separators} {ps : List Piece} {k : Nat}

/-- The lexemes before one of a scan are those of the pieces before its own. -/
theorem exists_placed_eq {ls ms : List Lexeme} {l : Lexeme}
    (h : (placed S k ps).lexemes = ls ++ l :: ms) :
    ∃ before after, ps = before ++ after ∧ placed S k before = ⟨ls, none⟩ ∧
      l.offset = k + (before.flatMap Piece.text).length := by
  induction ps generalizing k ls with
  | nil => simp [placed] at h
  | cons p ps ih =>
    rw [placed] at h
    rcases hp : p.token? S with fault | _ | token <;> rw [hp] at h
    · simp at h
    · obtain ⟨before, after, rfl, hplaced, ho⟩ := ih h
      refine ⟨p :: before, after, rfl, ?_, ?_⟩
      · rw [placed, hp]
        exact hplaced
      · rw [ho, List.flatMap_cons, List.length_append, Nat.add_assoc]
    · rcases List.cons_eq_append_iff.1 h with ⟨rfl, hl⟩ | ⟨ls, rfl, hls⟩
      · obtain ⟨rfl, -⟩ := List.cons.inj hl
        exact ⟨[], p :: ps, rfl, rfl, rfl⟩
      · obtain ⟨before, after, rfl, hplaced, ho⟩ := ih hls
        refine ⟨p :: before, after, rfl, ?_, ?_⟩
        · rw [placed, hp]
          exact congrArg (cons ⟨token, k⟩) hplaced
        · rw [ho, List.flatMap_cons, List.length_append, Nat.add_assoc]

/-- A scan that stops has the lexemes of the pieces before the one that stops it. -/
theorem exists_placed_eq_of_stop {e : ScanError} (h : (placed S k ps).stop = some e) :
    ∃ before after, ps = before ++ after ∧ placed S k before = ⟨(placed S k ps).lexemes, none⟩ ∧
      e.offset = k + (before.flatMap Piece.text).length := by
  obtain ⟨p, n, ⟨before, after, rfl, hpass, rfl⟩, hp, ho⟩ := stop_placed_eq_some_iff.1 h
  have hstop : (placed S k before).stop = none := stop_placed_eq_none_iff.2 hpass
  refine ⟨before, p :: after, rfl, ?_, ho⟩
  rw [placed_append, append_of_stop_eq_none hstop, placed, hp, List.append_nil, ← hstop]

end Scan

section Sources
variable {S : Separators} {source : Text}

theorem take_length_flatMap_text {before after : List Piece} (h : pieces S source = before ++ after) :
    source.take (before.flatMap Piece.text).length = before.flatMap Piece.text := by
  rw [← flatMap_text_pieces S source, h, List.flatMap_append, List.take_left]

theorem scan_take_of_pieces_eq {before after : List Piece} (h : pieces S source = before ++ after) :
    scan S (source.take (before.flatMap Piece.text).length) = Scan.placed S 0 before := by
  rw [take_length_flatMap_text h, scan_eq_placed, pieces_flatMap_text h]

theorem scan_take_of_lexemes_eq {ls ms : List Lexeme} {l : Lexeme}
    (h : (scan S source).lexemes = ls ++ l :: ms) : scan S (source.take l.offset) = ⟨ls, none⟩ := by
  rw [scan_eq_placed] at h
  obtain ⟨before, after, hps, hplaced, ho⟩ := Scan.exists_placed_eq h
  rw [ho, Nat.zero_add, scan_take_of_pieces_eq hps, hplaced]

theorem scan_take_of_stop_eq_some {e : ScanError} (h : (scan S source).stop = some e) :
    scan S (source.take e.offset) = ⟨(scan S source).lexemes, none⟩ := by
  rw [scan_eq_placed S source] at h ⊢
  obtain ⟨before, after, hps, hplaced, ho⟩ := Scan.exists_placed_eq_of_stop h
  rw [ho, Nat.zero_add, scan_take_of_pieces_eq hps, hplaced]

theorem tokenize_of_scan_eq {ls : List Lexeme} (h : scan S source = ⟨ls, none⟩) :
    tokenize S source = .ok ls := by
  rw [tokenize, h]
  rfl

end Sources

/-! ### The place of an error -/

/-- An error of reckoning lies at a token or at the end. -/
theorem index_le_of_reckon_eq_error {ts : List Token} {e : ReckonError} (h : reckon ts = .error e) :
    e.index ≤ ts.length := by
  have hv := agrees_verdict ts
  rw [h] at hv
  rcases hv with hv | ⟨hfails, -⟩
  · have hle := (Outline.index_of_run_eq_error hv).2
    rwa [Nat.zero_add] at hle
  · exact Nat.le_of_lt hfails.index_lt

section Places
open EvaluationError
variable {S : Separators} {source : Text} {i : Nat}

theorem offsetOf_of_lt {ls : List Lexeme} (h : i < ls.length) : offsetOf source ls i = ls[i].offset := by
  simp [offsetOf, h]

theorem offsetOf_of_length_le {ls : List Lexeme} (h : ls.length ≤ i) :
    offsetOf source ls i = source.length := by
  simp [offsetOf, h]

theorem offsetOf_lt_length (h : i < (scan S source).lexemes.length) :
    offsetOf source (scan S source).lexemes i < source.length := by
  rw [offsetOf_of_lt h]
  exact offset_lt_of_mem_lexemes (List.getElem_mem h)

theorem offsetOf_le_length (i : Nat) :
    offsetOf source (scan S source).lexemes i ≤ source.length := by
  rcases Nat.lt_or_ge i (scan S source).lexemes.length with h | h
  · exact Nat.le_of_lt (offsetOf_lt_length h)
  · exact Nat.le_of_eq (offsetOf_of_length_le h)

/-- The characters before a token are those of the tokens before it. -/
theorem scan_take_offsetOf (hstop : (scan S source).stop = none) (i : Nat) :
    scan S (source.take (offsetOf source (scan S source).lexemes i))
      = ⟨(scan S source).lexemes.take i, none⟩ := by
  rcases Nat.lt_or_ge i (scan S source).lexemes.length with h | h
  · have hsplit : (scan S source).lexemes = (scan S source).lexemes.take i
        ++ (scan S source).lexemes[i] :: (scan S source).lexemes.drop (i + 1) := by
      rw [List.getElem_cons_drop, List.take_append_drop]
    rw [offsetOf_of_lt h, scan_take_of_lexemes_eq hsplit]
  · rw [offsetOf_of_length_le h, List.take_length, List.take_of_length_le h, ← hstop]

end Places

variable {S : Separators} {source : Text} {e : EvaluationError}

/-- The scan stops at the place of its own error, and the characters before it are scanned to what was
found till then. An error of reckoning is at a token or at the end of the source, and the characters
before it are scanned to the tokens before it. -/
theorem evaluate_error_place (h : evaluate S source = .error e) :
    (∀ s, e.cause = .scanning s →
      tokenize S source = .error s ∧ s.offset = e.offset ∧ e.offset < source.length ∧
        tokenize S (source.take e.offset) = .ok (scan S source).lexemes) ∧
    (∀ r, e.cause = .reckoning r → ∃ ls, tokenize S source = .ok ls ∧ r.index ≤ ls.length ∧
      e.offset ≤ source.length ∧ (r.index < ls.length → e.offset < source.length) ∧
      (r.index = ls.length → e.offset = source.length) ∧
      tokenize S (source.take e.offset) = .ok (ls.take r.index)) := by
  -- the error is that of the scan if the scan stops, else that of reckoning
  rcases hstop : (scan S source).stop with _ | s
  · rw [evaluate_of_stop_eq_none hstop] at h
    rcases hr : reckon (scan S source).tokens with r | v <;> rw [hr] at h <;> cases h
    refine ⟨fun _ hs => (by cases hs), ?_⟩
    rintro _ ⟨⟩
    have hle : r.index ≤ (scan S source).lexemes.length := by
      have hle := index_le_of_reckon_eq_error hr
      rwa [Scan.tokens, List.length_map] at hle
    exact ⟨_, tokenize_eq_ok_iff.2 ⟨hstop, rfl⟩, hle, offsetOf_le_length r.index, offsetOf_lt_length,
      fun hend => offsetOf_of_length_le (Nat.le_of_eq hend.symm),
      tokenize_of_scan_eq (scan_take_offsetOf hstop r.index)⟩
  · rw [evaluate_of_stop_eq_some hstop] at h
    cases h
    refine ⟨?_, fun _ hr => (by cases hr)⟩
    rintro _ ⟨⟩
    exact ⟨tokenize_eq_error_iff.2 hstop, rfl, offset_lt_of_stop_eq_some hstop,
      tokenize_of_scan_eq (scan_take_of_stop_eq_some hstop)⟩

namespace DividedByNothing

/-- A division by zero. The run of the dividend takes in the point and the blank. -/
def division : Text := ['8', '4', '.', ' ', '/', '(', '1', '-', '1', ')']

/-- The same with a character at the end that has no place in an expression. -/
def stray : Text := division ++ ['%']

def dividend : Decimal := ⟨false, 84, 0, by decide, Nat.zero_le _⟩

theorem evaluate_division_place :
    evaluate {} division = .error ⟨.reckoning ⟨.divisionByZero, 1⟩, 4⟩ ∧
    tokenize {} (division.take 4) = .ok [⟨.number dividend, 0⟩] ∧
    evaluate {} stray = .error ⟨.scanning ⟨.strayCharacter '%', 10⟩, 10⟩ ∧
    tokenize {} (stray.take 10) = .ok (scan {} stray).lexemes := by
  have hdivision : evaluate {} division = .error ⟨.reckoning ⟨.divisionByZero, 1⟩, 4⟩ := by
    decide +kernel
  have hstray : evaluate {} stray = .error ⟨.scanning ⟨.strayCharacter '%', 10⟩, 10⟩ := by
    decide +kernel
  obtain ⟨-, hreckoning⟩ := evaluate_error_place hdivision
  obtain ⟨ls, hls, -, -, -, -, htake⟩ := hreckoning _ rfl
  have hfirst : ls.take 1 = [⟨.number dividend, 0⟩] := by
    have hlexemes : (tokenize {} division).map (List.take 1) = .ok [⟨.number dividend, 0⟩] := by
      decide +kernel
    rw [hls] at hlexemes
    exact Except.ok.inj hlexemes
  obtain ⟨hscanning, -⟩ := evaluate_error_place hstray
  obtain ⟨-, -, -, hbefore⟩ := hscanning _ rfl
  exact ⟨hdivision, htake.trans (congrArg Except.ok hfirst), hstray, hbefore⟩

end DividedByNothing

end Abacus
