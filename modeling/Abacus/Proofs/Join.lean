import Abacus.Proofs.Cut
import Abacus.Proofs.Layout
import Abacus.Proofs.Place

/-! # Sources put together

`tokenize_append`: two sources, the second of which does not go on a run, are scanned as if each stood
alone, the second so many characters further on as the first has.

Blanks that are put in between two pieces of a source are skipped, or are separators at the end of the run
before them, which change nothing (`Cut.exists_insert`). `evaluate_insertAt`: so blanks before a lexeme or
at the end of a source leave all its tokens as they are, and with them the value or the error. -/

namespace Abacus

/-! ### One source after another -/

/-- Two sources are scanned one after the other if no run of the first goes on into the second. -/
theorem tokenize_append {S : Separators} {b : Text} (h : S.EndsRun b) (a : Text) :
    (∀ e, tokenize S a = .error e → tokenize S (a ++ b) = .error e) ∧
    ∀ ls, tokenize S a = .ok ls →
      (∀ e, tokenize S b = .error e → tokenize S (a ++ b) = .error (e.shift a.length)) ∧
      ∀ ms, tokenize S b = .ok ms →
        tokenize S (a ++ b) = .ok (ls ++ ms.map (Lexeme.shift a.length)) := by
  simp only [tokenize_eq_ok_iff, tokenize_eq_error_iff, scan_append h]
  constructor
  · intro e he
    rwa [Scan.append_of_stop_eq_some he]
  · rintro ls ⟨hstop, rfl⟩
    rw [Scan.append_of_stop_eq_none hstop]
    constructor
    · intro e he
      simp [Scan.shift, he]
    · rintro ms ⟨hstop', rfl⟩
      simp [Scan.shift, hstop']

namespace NextLine

def sixteen : Decimal := ⟨false, 16, 0, by decide, Nat.zero_le _⟩

def small : Decimal := ⟨false, 25, 7, by decide, by decide⟩

/-- The run takes in the comma. -/
def first : Text := ['1', '6', ',']

def second : Text := ['\n', '.', '0', '0', '0', '0', '0', '2', '5']

def stray : Text := ['\n', '%']

theorem tokenize_nextLine :
    tokenize {} (first ++ second) = .ok [⟨.number sixteen, 0⟩, ⟨.number small, 4⟩] ∧
    tokenize {} (first ++ stray) = .error ⟨.strayCharacter '%', 4⟩ ∧
    tokenize {} (stray ++ second) = .error ⟨.strayCharacter '%', 1⟩ := by
  have hfirst : tokenize {} first = .ok [⟨.number sixteen, 0⟩] := by decide +kernel
  have hsecond : tokenize {} second = .ok [⟨.number small, 1⟩] := by decide +kernel
  have hstray : tokenize {} stray = .error ⟨.strayCharacter '%', 1⟩ := by decide +kernel
  have hends : Separators.EndsRun {} second := Separators.endsRun_cons.2 rfl
  have hends' : Separators.EndsRun {} stray := Separators.endsRun_cons.2 rfl
  exact ⟨((tokenize_append hends first).2 _ hfirst).2 _ hsecond,
    ((tokenize_append hends' first).2 _ hfirst).1 _ hstray, (tokenize_append hends stray).1 _ hstray⟩

end NextLine

/-! ### Blanks put in -/

namespace Scan
variable {S : Separators}

theorem placed_cons_congr {p : Piece} {ps qs : List Piece} (h : ∀ k, placed S k ps = placed S k qs)
    (k : Nat) : placed S k (p :: ps) = placed S k (p :: qs) := by
  rw [placed, placed, h]

theorem placed_map_blank (S : Separators) (k : Nat) (w : Text) :
    placed S k (w.map .blank) = ⟨[], none⟩ := by
  induction w generalizing k with
  | nil => rfl
  | cons c w ih =>
    show placed S (k + 1) (w.map .blank) = _
    exact ih (k + 1)

/-- Separators at the end of a run and blanks behind it are not seen in the scan. -/
theorem placed_run_append (hS : S.Avoids Char.isDigit) {run taken : Text} (hrun : (Piece.run run).Passes S)
    (htaken : ∀ c ∈ taken, S.contains c = true) (left : Text) (k : Nat) :
    placed S k (.run (run ++ taken) :: left.map .blank) = placed S k [.run run] := by
  obtain ⟨v, hv⟩ := Piece.passes_run.1 hrun
  have hv' : Numeral.read S (run ++ taken) = .ok v := by
    rw [Numeral.read_append_separators (Numeral.groups_ne_nil_of_read_eq_ok hS hv) htaken, hv]
  rw [placed, placed, Piece.token?_run_of_ok hv, Piece.token?_run_of_ok hv']
  simp only [placed_map_blank, placed]

end Scan

namespace Cut
open Piece
variable {S : Separators} {source t rest w : Text} {ps before after : List Piece}

theorem blanks_append (hw : ∀ c ∈ w, Text.isBlank c = true) (h : Cut S t ps rest) :
    Cut S (w ++ t) (w.map .blank ++ ps) rest := by
  induction w with
  | nil => exact h
  | cons c w ih => exact .blank (hw c (by simp)) (ih fun d hd => hw d (by simp [hd]))

/-- Blanks are put in behind the first pieces of a source. The pieces behind them stay, and the pieces
before them are scanned as they were. -/
theorem exists_insert (hS : S.Avoids Char.isDigit) (hw : ∀ c ∈ w, Text.isBlank c = true)
    (h : Cut S source (before ++ after) rest) (hpass : ∀ p ∈ before, p.Passes S) :
    ∃ before', Cut S (before.flatMap text ++ (w ++ (after.flatMap text ++ rest))) (before' ++ after) rest ∧
      ∀ k, Scan.placed S k before' = Scan.placed S k before := by
  induction before generalizing source with
  | nil =>
    have htext : after.flatMap text ++ rest = source := h.flatMap_text
    rw [htext, List.flatMap_nil, List.nil_append]
    exact ⟨w.map .blank, h.blanks_append hw, fun k => Scan.placed_map_blank S k w⟩
  | cons p before ih =>
    have hpass' : ∀ q ∈ before, q.Passes S := fun q hq => hpass q (by simp [hq])
    rw [List.cons_append] at h
    cases h with
    | blank hc ht =>
      obtain ⟨before', hcut, hplaced⟩ := ih ht hpass'
      exact ⟨_ :: before', .blank hc hcut, Scan.placed_cons_congr hplaced⟩
    | symbol s ht =>
      obtain ⟨before', hcut, hplaced⟩ := ih ht hpass'
      exact ⟨_ :: before', .symbol s hcut, Scan.placed_cons_congr hplaced⟩
    | @run c more t _ _ hc hmore hend ht =>
      rw [List.flatMap_cons, text, List.cons_append, List.cons_append, List.append_assoc]
      cases before with
      | nil =>
        -- the run takes in the first of the blanks, the others are skipped
        obtain ⟨taken, left, rfl, htaken, hleft⟩ := S.exists_taken w
        have hmore' : ∀ d ∈ more ++ taken, S.acceptsInRun d = true :=
          List.forall_mem_append.2 ⟨hmore, htaken⟩
        have hcut := Cut.run hc hmore' (hleft.append hend)
          (ht.blanks_append fun d hd => hw d (by simp [hd]))
        have htext : after.flatMap text ++ rest = t := ht.flatMap_text
        refine ⟨.run (c :: more ++ taken) :: left.map .blank, ?_,
          Scan.placed_run_append hS (hpass _ (by simp)) (fun d hd => ?_) left⟩
        · rw [htext]
          simpa using hcut
        · exact Separators.contains_of_isBlank (hw d (by simp [hd])) (htaken d hd)
      | cons q before =>
        -- the run ends before the pieces that stand between it and the blanks
        obtain ⟨before', hcut, hplaced⟩ := ih ht hpass'
        have hends : S.EndsRun ((q :: before).flatMap text) := by
          rw [← ht.flatMap_text, List.flatMap_append, List.append_assoc] at hend
          exact hend.of_append
        have hne : (q :: before).flatMap text ≠ [] := by simp [ht.text_ne_nil (p := q)]
        exact ⟨_ :: before', .run hc hmore (hends.append_of_ne_nil hne _) hcut,
          Scan.placed_cons_congr hplaced⟩

end Cut

/-- A place in a source when `n` characters are put in at `place`. -/
def makeRoom (place n i : Nat) : Nat := if place ≤ i then n + i else i

theorem makeRoom_of_le {place n i : Nat} (h : place ≤ i) : makeRoom place n i = n + i := if_pos h

theorem makeRoom_of_lt {place n i : Nat} (h : i < place) : makeRoom place n i = i :=
  if_neg (Nat.not_le.2 h)

def Lexeme.makeRoom (place n : Nat) (l : Lexeme) : Lexeme :=
  ⟨l.token, Abacus.makeRoom place n l.offset⟩

theorem map_makeRoom_append {place : Nat} {ls ms : List Lexeme} (hls : ∀ l ∈ ls, l.offset < place)
    (hms : ∀ l ∈ ms, place ≤ l.offset) (n : Nat) :
    (ls ++ ms).map (Lexeme.makeRoom place n) = ls ++ ms.map (Lexeme.shift n) := by
  have hstay : ∀ l ∈ ls, l.makeRoom place n = l := fun l hl => by
    rw [Lexeme.makeRoom, makeRoom_of_lt (hls l hl)]
  have hmove : ∀ l ∈ ms, l.makeRoom place n = l.shift n := fun l hl => by
    rw [Lexeme.makeRoom, makeRoom_of_le (hms l hl), Lexeme.shift]
  rw [List.map_append, List.map_congr_left hstay, List.map_id', List.map_congr_left hmove]

/-- A text with another one put in at a place. -/
def Text.insertAt (t : Text) (place : Nat) (w : Text) : Text := t.take place ++ w ++ t.drop place

section Sources
variable {S : Separators} {source w : Text} {place : Nat}

/-- A lexeme begins where a piece begins, and behind the last piece is the end. -/
theorem exists_pieces_eq_of_place {ls : List Lexeme} (h : tokenize S source = .ok ls)
    (hplace : place = source.length ∨ ∃ l ∈ ls, l.offset = place) :
    ∃ before after, pieces S source = before ++ after ∧ (before.flatMap Piece.text).length = place := by
  rcases hplace with rfl | ⟨l, hl, rfl⟩
  · exact ⟨pieces S source, [], (List.append_nil _).symm, by rw [flatMap_text_pieces]⟩
  · obtain ⟨-, rfl⟩ := tokenize_eq_ok_iff.1 h
    obtain ⟨ls, ms, hls⟩ := List.append_of_mem hl
    rw [scan_eq_placed] at hls
    obtain ⟨before, after, hps, -, ho⟩ := Scan.exists_placed_eq hls
    exact ⟨before, after, hps, by rw [ho, Nat.zero_add]⟩

theorem scan_insertAt (hS : S.Avoids Char.isDigit) (hw : ∀ c ∈ w, Text.isBlank c = true)
    (hstop : (scan S source).stop = none) {before after : List Piece}
    (hps : pieces S source = before ++ after) :
    scan S (source.insertAt (before.flatMap Piece.text).length w)
      = Scan.placed S 0 before
        ++ Scan.placed S (w.length + (before.flatMap Piece.text).length) after := by
  obtain ⟨ps, rest, hcut⟩ := exists_cut S source
  obtain ⟨rfl, -⟩ := hcut.stop_scan_eq_none_iff.1 hstop
  obtain rfl : before ++ after = ps := hps.symm.trans hcut.pieces_eq_of_finished
  have hpass : ∀ p ∈ before, p.Passes S := by
    rw [scan_eq_placed, Scan.stop_placed_eq_none_iff, hps] at hstop
    exact fun p hp => hstop p (by simp [hp])
  obtain ⟨before', hcut', hplaced⟩ := hcut.exists_insert hS hw hpass
  have htext : source.insertAt (before.flatMap Piece.text).length w
      = before.flatMap Piece.text ++ (w ++ (after.flatMap Piece.text ++ [])) := by
    have hsource : before.flatMap Piece.text ++ after.flatMap Piece.text = source := by
      rw [← List.flatMap_append, ← hps, flatMap_text_pieces]
    rw [Text.insertAt, ← hsource, List.take_left, List.drop_left, List.append_nil, List.append_assoc]
  have hlength : (before'.flatMap Piece.text).length = w.length + (before.flatMap Piece.text).length := by
    have hlen := congrArg List.length hcut'.flatMap_text
    simp only [List.flatMap_append, List.length_append] at hlen
    omega
  rw [scan_eq_placed, htext, hcut'.pieces_eq_of_finished, Scan.placed_append, hplaced, Nat.zero_add,
    hlength]

theorem tokenize_insertAt (hS : S.Avoids Char.isDigit) (hw : ∀ c ∈ w, Text.isBlank c = true)
    {ls : List Lexeme} (h : tokenize S source = .ok ls)
    (hplace : place = source.length ∨ ∃ l ∈ ls, l.offset = place) :
    tokenize S (source.insertAt place w) = .ok (ls.map (Lexeme.makeRoom place w.length)) := by
  obtain ⟨before, after, hps, rfl⟩ := exists_pieces_eq_of_place h hplace
  obtain ⟨hstop, rfl⟩ := tokenize_eq_ok_iff.1 h
  have hpass := hstop
  rw [scan_eq_placed, Scan.stop_placed_eq_none_iff, hps, List.forall_mem_append] at hpass
  have hbefore : (Scan.placed S 0 before).stop = none := Scan.stop_placed_eq_none_iff.2 hpass.1
  have hafter : (Scan.placed S (before.flatMap Piece.text).length after).stop = none :=
    Scan.stop_placed_eq_none_iff.2 hpass.2
  -- the lexemes of the first pieces lie before the blanks, the others behind them
  have hlt : ∀ l ∈ (Scan.placed S 0 before).lexemes, l.offset < (before.flatMap Piece.text).length := by
    intro l hl
    rw [← scan_take_of_pieces_eq hps, take_length_flatMap_text hps] at hl
    exact offset_lt_of_mem_lexemes hl
  have hle : ∀ l ∈ (Scan.placed S (before.flatMap Piece.text).length after).lexemes,
      (before.flatMap Piece.text).length ≤ l.offset := by
    intro l hl
    obtain ⟨p, n, -, -, ho⟩ := Scan.mem_lexemes_placed.1 hl
    omega
  have hscan : scan S source
      = Scan.placed S 0 before ++ Scan.placed S (before.flatMap Piece.text).length after := by
    rw [scan_eq_placed, hps, Scan.placed_append, Nat.zero_add]
  rw [tokenize_eq_ok_iff, scan_insertAt hS hw hstop hps, Scan.placed_add, hscan,
    Scan.append_of_stop_eq_none hbefore, Scan.append_of_stop_eq_none hbefore,
    map_makeRoom_append hlt hle]
  exact ⟨Option.map_eq_none_iff.2 hafter, rfl⟩

open EvaluationError in
theorem offsetOf_insertAt {ls : List Lexeme} (hplace : place ≤ source.length) (w : Text) (i : Nat) :
    offsetOf (source.insertAt place w) (ls.map (Lexeme.makeRoom place w.length)) i
      = makeRoom place w.length (offsetOf source ls i) := by
  simp only [offsetOf, List.getElem?_map]
  cases ls[i]? with
  | some l => rfl
  | none =>
    have hlength : (source.insertAt place w).length = w.length + source.length := by
      simp [Text.insertAt]
      omega
    exact hlength.trans (makeRoom_of_le hplace).symm

/-- Blanks before a lexeme or at the end of a source leave its tokens as they are; those behind the blanks
stand so many characters further on. The source has the same value, or the same error of reckoning at
the same token. -/
theorem evaluate_insertAt (hS : S.Avoids Char.isDigit) (hw : ∀ c ∈ w, Text.isBlank c = true)
    {ls : List Lexeme} (h : tokenize S source = .ok ls)
    (hplace : place = source.length ∨ ∃ l ∈ ls, l.offset = place) :
    tokenize S (source.insertAt place w) = .ok (ls.map (Lexeme.makeRoom place w.length)) ∧
    (∀ v, evaluate S source = .ok v → evaluate S (source.insertAt place w) = .ok v) ∧
    ∀ e, evaluate S source = .error e → ∃ r, e.cause = .reckoning r ∧
      evaluate S (source.insertAt place w)
        = .error ⟨.reckoning r, makeRoom place w.length e.offset⟩ := by
  have hinsert := tokenize_insertAt hS hw h hplace
  refine ⟨hinsert, ?_⟩
  obtain ⟨hstop, rfl⟩ := tokenize_eq_ok_iff.1 h
  obtain ⟨hstop', hlexemes⟩ := tokenize_eq_ok_iff.1 hinsert
  have hle : place ≤ source.length := by
    rcases hplace with rfl | ⟨l, hl, rfl⟩
    · exact Nat.le_refl _
    · exact Nat.le_of_lt (offset_lt_of_mem_lexemes hl)
  have htokens : (scan S (source.insertAt place w)).tokens = (scan S source).tokens := by
    rw [Scan.tokens, hlexemes, List.map_map]
    rfl
  rw [evaluate_of_stop_eq_none hstop, evaluate_of_stop_eq_none hstop', htokens, hlexemes]
  rcases reckon (scan S source).tokens with r | v
  · refine ⟨fun v hv => (by cases hv), ?_⟩
    rintro _ ⟨⟩
    refine ⟨r, rfl, ?_⟩
    rw [Except.mapError, EvaluationError.ofReckonError, offsetOf_insertAt hle]
    rfl
  · exact ⟨fun w hw => hw, fun e he => (by cases he)⟩

end Sources

namespace BlankedDivision

/-- The line break is a separator here. -/
def separators : Separators := ⟨some '\n', none⟩

def dividend : Decimal := ⟨false, 31, 0, by decide, Nat.zero_le _⟩

def division : Text := ['3', '1', '/', '0']

/-- The run of the dividend takes in the first two, and the third is skipped. -/
def blanks : Text := ['\n', ' ', '\u2028']

theorem evaluate_blanked :
    division.insertAt 2 blanks = ['3', '1', '\n', ' ', '\u2028', '/', '0'] ∧
    tokenize separators (division.insertAt 2 blanks)
      = .ok [⟨.number dividend, 0⟩, ⟨.symbol (.operator .divide), 5⟩, ⟨.number 0, 6⟩] ∧
    evaluate separators (division.insertAt 2 blanks)
      = .error ⟨.reckoning ⟨.divisionByZero, 1⟩, 5⟩ := by
  have hblanks : ∀ c ∈ blanks, Text.isBlank c = true := List.all_eq_true.1 (by decide)
  have htokens : tokenize separators division
      = .ok [⟨.number dividend, 0⟩, ⟨.symbol (.operator .divide), 2⟩, ⟨.number 0, 3⟩] := by
    decide +kernel
  have herror : evaluate separators division = .error ⟨.reckoning ⟨.divisionByZero, 1⟩, 2⟩ := by
    decide +kernel
  obtain ⟨hinsert, -, hsame⟩ := evaluate_insertAt (by decide) hblanks htokens
    (.inr ⟨⟨.symbol (.operator .divide), 2⟩, by simp, rfl⟩)
  obtain ⟨r, hcause, hr⟩ := hsame _ herror
  cases hcause
  exact ⟨rfl, hinsert, hr⟩

end BlankedDivision

end Abacus
