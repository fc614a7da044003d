import Abacus.Scan
import Mathlib.Data.List.TakeWhile

/-! # Scans by characters

`Scan.placed` is the scan of a list of pieces with the characters before each piece counted directly;
`scan_eq_placed` says that `scan` comes to the same. A scan finds the token of every piece it reaches
(`mem_lexemes_placed`) and stops at the first piece that has none (`stop_placed_eq_some_iff`).

`scan_append`: a source can be cut before any character that does not go on a run, and its parts
scanned apart. -/

namespace Abacus

/-! ### Cutting a source in two -/

namespace Separators

/-- No run goes on into a text: it is empty, or its first character is not taken in. -/
def EndsRun (S : Separators) (t : Text) : Prop := ∀ c ∈ t.head?, S.acceptsInRun c = false

variable {S : Separators}

theorem endsRun_nil : S.EndsRun [] := by simp [EndsRun]

theorem endsRun_cons {c : Char} {t : Text} : S.EndsRun (c :: t) ↔ S.acceptsInRun c = false := by
  simp [EndsRun]

theorem EndsRun.append {a b : Text} (ha : S.EndsRun a) (hb : S.EndsRun b) : S.EndsRun (a ++ b) := by
  cases a with
  | nil => exact hb
  | cons c a => exact ha

theorem EndsRun.of_append {a b : Text} (h : S.EndsRun (a ++ b)) : S.EndsRun a := by
  cases a with
  | nil => exact endsRun_nil
  | cons c a => exact h

theorem EndsRun.append_of_ne_nil {a : Text} (h : S.EndsRun a) (hne : a ≠ []) (b : Text) :
    S.EndsRun (a ++ b) := by
  cases a with
  | nil => exact absurd rfl hne
  | cons c a => exact h

theorem endsRun_dropWhile (S : Separators) (t : Text) :
    S.EndsRun (t.dropWhile S.acceptsInRun) := by
  intro c hc
  have h := List.head?_dropWhile_not S.acceptsInRun t
  rw [Option.mem_def.1 hc] at h
  exact h

theorem EndsRun.takeWhile_append {b : Text} (h : S.EndsRun b) (a : Text) :
    (a ++ b).takeWhile S.acceptsInRun = a.takeWhile S.acceptsInRun := by
  induction a with
  | nil =>
    cases b with
    | nil => rfl
    | cons c b => simp [endsRun_cons.1 h]
  | cons c a ih => simp [List.takeWhile_cons, ih]

theorem EndsRun.dropWhile_append {b : Text} (h : S.EndsRun b) (a : Text) :
    (a ++ b).dropWhile S.acceptsInRun = a.dropWhile S.acceptsInRun ++ b := by
  induction a with
  | nil =>
    cases b with
    | nil => rfl
    | cons c b => simp [endsRun_cons.1 h]
  | cons c a ih => by_cases hc : S.acceptsInRun c <;> simp [hc, ih]

theorem exists_taken (S : Separators) (t : Text) : ∃ taken left, t = taken ++ left ∧
    (∀ c ∈ taken, S.acceptsInRun c = true) ∧ S.EndsRun left :=
  ⟨t.takeWhile S.acceptsInRun, t.dropWhile S.acceptsInRun, List.takeWhile_append_dropWhile.symm,
    fun _ => List.mem_takeWhile_imp, S.endsRun_dropWhile t⟩

end Separators

section Pieces
variable {S : Separators} {c : Char}

theorem pieces_blank (h : Text.isBlank c = true) (t : Text) :
    pieces S (c :: t) = .blank c :: pieces S t := by
  rw [pieces, if_pos h]

theorem pieces_symbol (s : Symbol) (t : Text) : pieces S (s.char :: t) = .symbol s :: pieces S t := by
  have hb : Text.isBlank s.char = false := by rcases s with (_ | _ | _ | _) | _ | _ <;> rfl
  rw [pieces, if_neg (by simp [hb]), Symbol.ofChar?_char]

theorem pieces_run (hb : Text.isBlank c = false) (hs : Symbol.ofChar? c = none)
    (hr : S.acceptsInRun c = true) (t : Text) :
    pieces S (c :: t)
      = .run (c :: t.takeWhile S.acceptsInRun) :: pieces S (t.dropWhile S.acceptsInRun) := by
  rw [pieces, if_neg (by simp [hb]), hs]
  simp [hr]

theorem pieces_stray (hb : Text.isBlank c = false) (hs : Symbol.ofChar? c = none)
    (hr : S.acceptsInRun c = false) (t : Text) : pieces S (c :: t) = .stray c :: pieces S t := by
  rw [pieces, if_neg (by simp [hb]), hs]
  simp [hr]

theorem pieces_append {b : Text} (h : S.EndsRun b) (a : Text) :
    pieces S (a ++ b) = pieces S a ++ pieces S b := by
  fun_induction pieces S a with
  | case1 => rfl
  | case2 c a hb ih => rw [List.cons_append, pieces_blank hb, ih]; rfl
  | case3 c a _ s hs ih =>
    rw [Symbol.ofChar?_eq_some_iff.1 hs, List.cons_append, pieces_symbol, ih]; rfl
  | case4 c a hb hs hr ih =>
    rw [List.cons_append, pieces_run (by simpa using hb) hs hr, h.takeWhile_append,
      h.dropWhile_append, ih]
    rfl
  | case5 c a hb hs hr ih =>
    rw [List.cons_append, pieces_stray (by simpa using hb) hs (by simpa using hr), ih]; rfl

theorem text_ne_nil_of_mem_pieces {t : Text} : ∀ p ∈ pieces S t, p.text ≠ [] := by
  fun_induction pieces S t <;> simp_all [Piece.text]

end Pieces

/-! ### The scan of pieces -/

namespace Piece

/-- A scan passes over the piece. -/
def Passes (S : Separators) (p : Piece) : Prop := ∃ token, p.token? S = .ok token

variable {S : Separators}

theorem passes_blank (c : Char) : (blank c).Passes S := ⟨_, rfl⟩

theorem passes_symbol (s : Symbol) : (symbol s).Passes S := ⟨_, rfl⟩

theorem not_passes_stray (c : Char) : ¬ (stray c).Passes S := by
  rintro ⟨_, h⟩
  cases h

theorem token?_run_of_ok {t : Text} {v : Decimal} (h : Numeral.read S t = .ok v) :
    (run t).token? S = .ok (some (.number v)) := by
  rw [token?, h]

theorem token?_run_of_error {t : Text} {reason : Decimal.LiteralFault}
    (h : Numeral.read S t = .error reason) :
    (run t).token? S = .error (.badNumeral t reason) := by
  rw [token?, h]

theorem passes_run {t : Text} : (run t).Passes S ↔ ∃ v, Numeral.read S t = .ok v := by
  rcases h : Numeral.read S t with reason | v
  · simp [Passes, token?_run_of_error h]
  · simp [Passes, token?_run_of_ok h]

/-- A scan of `ps` comes to `p`, with `n` characters of `ps` before it. -/
def Reaches (S : Separators) (ps : List Piece) (p : Piece) (n : Nat) : Prop :=
  ∃ before after, ps = before ++ p :: after ∧ (∀ q ∈ before, q.Passes S) ∧
    n = (before.flatMap text).length

variable {p q : Piece} {ps : List Piece} {n : Nat}

theorem not_reaches_nil : ¬ Reaches S [] p n := by
  rintro ⟨before, after, h, -⟩
  simp at h

theorem reaches_cons : Reaches S (q :: ps) p n ↔
    p = q ∧ n = 0 ∨ q.Passes S ∧ ∃ m, Reaches S ps p m ∧ n = q.text.length + m := by
  constructor
  · rintro ⟨before, after, h, hpass, hn⟩
    cases before with
    | nil =>
      simp only [List.nil_append, List.cons.injEq] at h
      exact .inl ⟨h.1.symm, by simpa using hn⟩
    | cons r before =>
      simp only [List.cons_append, List.cons.injEq] at h
      obtain ⟨rfl, h⟩ := h
      exact .inr ⟨hpass q (by simp), _, ⟨before, after, h, fun r hr => hpass r (by simp [hr]), rfl⟩,
        by simpa using hn⟩
  · rintro (⟨rfl, rfl⟩ | ⟨hq, m, ⟨before, after, rfl, hpass, rfl⟩, rfl⟩)
    · exact ⟨[], ps, rfl, by simp, rfl⟩
    · refine ⟨q :: before, after, rfl, fun r hr => ?_, by simp⟩
      rcases List.mem_cons.1 hr with rfl | hr
      · exact hq
      · exact hpass r hr

theorem exists_reaches_cons {P : Piece → Nat → Prop} : (∃ p n, Reaches S (q :: ps) p n ∧ P p n) ↔
    P q 0 ∨ q.Passes S ∧ ∃ p n, Reaches S ps p n ∧ P p (q.text.length + n) := by
  simp only [reaches_cons]
  constructor
  · rintro ⟨p, n, ⟨rfl, rfl⟩ | ⟨hq, m, hr, rfl⟩, hp⟩
    · exact .inl hp
    · exact .inr ⟨hq, p, m, hr, hp⟩
  · rintro (hp | ⟨hq, p, n, hr, hp⟩)
    · exact ⟨q, 0, .inl ⟨rfl, rfl⟩, hp⟩
    · exact ⟨p, _, .inr ⟨hq, n, hr, rfl⟩, hp⟩

theorem reaches_append {qs : List Piece} : Reaches S (ps ++ qs) p n ↔
    Reaches S ps p n ∨ (∀ q ∈ ps, q.Passes S) ∧ ∃ m, Reaches S qs p m ∧
      n = (ps.flatMap text).length + m := by
  induction ps generalizing n with
  | nil => simp [not_reaches_nil]
  | cons q ps ih =>
    rw [List.cons_append, reaches_cons, reaches_cons]
    simp only [ih, List.forall_mem_cons, List.flatMap_cons, List.length_append]
    constructor
    · rintro (h | ⟨hq, _, h | ⟨hps, m, h, rfl⟩, rfl⟩)
      · exact .inl (.inl h)
      · exact .inl (.inr ⟨hq, _, h, rfl⟩)
      · exact .inr ⟨⟨hq, hps⟩, m, h, by omega⟩
    · rintro ((h | ⟨hq, m, h, rfl⟩) | ⟨⟨hq, hps⟩, m, h, rfl⟩)
      · exact .inl h
      · exact .inr ⟨hq, m, .inl h, rfl⟩
      · exact .inr ⟨hq, _, .inr ⟨hps, m, h, rfl⟩, by omega⟩

theorem Reaches.add_length_le (h : Reaches S ps p n) :
    n + p.text.length ≤ (ps.flatMap text).length := by
  obtain ⟨before, after, rfl, -, rfl⟩ := h
  simp only [List.flatMap_append, List.flatMap_cons, List.length_append]
  omega

end Piece

namespace Scan
open Piece

/-- The scan of pieces with `offset` characters before them. -/
def placed (S : Separators) : (offset : Nat) → List Piece → Scan
  | _, [] => ⟨[], none⟩
  | offset, piece :: more =>
    match piece.token? S with
    | .error fault => ⟨[], some ⟨fault, offset⟩⟩
    | .ok none => placed S (offset + piece.text.length) more
    | .ok (some token) => (placed S (offset + piece.text.length) more).cons ⟨token, offset⟩

theorem ofPieces_eq_placed (S : Separators) (ps : List Piece) (rest : Text) (byte chars : Nat) :
    ofPieces S ⟨ps.flatMap Piece.text ++ rest, byte, chars⟩ byte ps = placed S chars ps := by
  induction ps generalizing byte chars with
  | nil => rfl
  | cons p ps ih =>
    rw [List.flatMap_cons, List.append_assoc, ofPieces_cons, placed]
    rcases p.token? S with fault | _ | token
    · rfl
    · exact ih ..
    · exact congrArg (cons ⟨token, chars⟩) (ih ..)

variable {S : Separators} {ps : List Piece} {k : Nat}

theorem mem_lexemes_placed {l : Lexeme} : l ∈ (placed S k ps).lexemes ↔
    ∃ p n, Reaches S ps p n ∧ p.token? S = .ok (some l.token) ∧ l.offset = k + n := by
  induction ps generalizing k with
  | nil => simp [placed, not_reaches_nil]
  | cons p ps ih =>
    rw [placed, exists_reaches_cons]
    rcases hp : p.token? S with fault | _ | token
    · simp [Passes, hp]
    · simp [Passes, hp, ih, Nat.add_assoc]
    · obtain ⟨t, o⟩ := l
      simp [Passes, hp, cons, ih, Nat.add_assoc, eq_comm]

theorem stop_placed_eq_some_iff {e : ScanError} : (placed S k ps).stop = some e ↔
    ∃ p n, Reaches S ps p n ∧ p.token? S = .error e.fault ∧ e.offset = k + n := by
  induction ps generalizing k with
  | nil => simp [placed, not_reaches_nil]
  | cons p ps ih =>
    rw [placed, exists_reaches_cons]
    rcases hp : p.token? S with fault | _ | token
    · obtain ⟨f, o⟩ := e
      simp [Passes, hp, eq_comm]
    · simp [Passes, hp, ih, Nat.add_assoc]
    · simp [Passes, hp, cons, ih, Nat.add_assoc]

theorem stop_placed_eq_none_iff : (placed S k ps).stop = none ↔ ∀ p ∈ ps, p.Passes S := by
  induction ps generalizing k with
  | nil => simp [placed]
  | cons p ps ih =>
    rw [placed]
    rcases hp : p.token? S with fault | _ | token <;> simp [Passes, hp, cons, ih]

theorem pairwise_lexemes_placed (h : ∀ p ∈ ps, p.text ≠ []) :
    (placed S k ps).lexemes.Pairwise (·.offset < ·.offset) := by
  induction ps generalizing k with
  | nil => simp [placed]
  | cons p ps ih =>
    have hps := ih (k := k + p.text.length) fun q hq => h q (by simp [hq])
    have hp := List.length_pos_iff.2 (h p (by simp))
    rw [placed]
    rcases p.token? S with fault | _ | token
    · simp
    · exact hps
    · refine List.pairwise_cons.2 ⟨fun l hl => ?_, hps⟩
      obtain ⟨q, n, -, -, ho⟩ := mem_lexemes_placed.1 hl
      show k < l.offset
      omega

end Scan

/-! ### Moving a scan on -/

/-- The lexeme with `n` more characters before it. -/
def Lexeme.shift (n : Nat) (l : Lexeme) : Lexeme := ⟨l.token, n + l.offset⟩

def ScanError.shift (n : Nat) (e : ScanError) : ScanError := ⟨e.fault, n + e.offset⟩

namespace Scan
variable {S : Separators}

def shift (n : Nat) (s : Scan) : Scan := ⟨s.lexemes.map (Lexeme.shift n), s.stop.map (ScanError.shift n)⟩

/-- A scan, and after it `t`, if it comes to its end. -/
protected def append (s t : Scan) : Scan :=
  match s.stop with
  | none => ⟨s.lexemes ++ t.lexemes, t.stop⟩
  | some _ => s

instance : Append Scan := ⟨Scan.append⟩

theorem append_of_stop_eq_none {s : Scan} (h : s.stop = none) (t : Scan) :
    s ++ t = ⟨s.lexemes ++ t.lexemes, t.stop⟩ := by
  show Scan.append s t = _
  rw [Scan.append, h]

theorem append_of_stop_eq_some {s : Scan} {e : ScanError} (h : s.stop = some e) (t : Scan) :
    s ++ t = s := by
  show Scan.append s t = _
  rw [Scan.append, h]

theorem cons_append (l : Lexeme) (s t : Scan) : s.cons l ++ t = (s ++ t).cons l := by
  cases h : s.stop with
  | none =>
    have h' : (s.cons l).stop = none := h
    rw [append_of_stop_eq_none h, append_of_stop_eq_none h']
    rfl
  | some e =>
    have h' : (s.cons l).stop = some e := h
    rw [append_of_stop_eq_some h, append_of_stop_eq_some h']

theorem shift_cons (n : Nat) (l : Lexeme) (s : Scan) :
    (s.cons l).shift n = (s.shift n).cons (l.shift n) := rfl

theorem shift_zero (s : Scan) : s.shift 0 = s := by
  have hl : Lexeme.shift 0 = id := funext fun l => by simp [Lexeme.shift]
  obtain ⟨ls, _ | e⟩ := s <;> simp [shift, hl, ScanError.shift]

theorem shift_shift (m n : Nat) (s : Scan) : (s.shift m).shift n = s.shift (n + m) := by
  obtain ⟨ls, _ | e⟩ := s <;> simp [shift, Lexeme.shift, ScanError.shift, Nat.add_assoc]

theorem map_token_shift (n : Nat) (ls : List Lexeme) :
    (ls.map (Lexeme.shift n)).map Lexeme.token = ls.map Lexeme.token := by
  simp [Lexeme.shift, Function.comp_def]

theorem placed_add (n k : Nat) (ps : List Piece) : placed S (n + k) ps = (placed S k ps).shift n := by
  induction ps generalizing k with
  | nil => rfl
  | cons p ps ih =>
    rw [placed, placed]
    rcases p.token? S with fault | _ | token
    · rfl
    · rw [← ih, Nat.add_assoc]
    · rw [shift_cons, ← ih, Nat.add_assoc]
      rfl

theorem placed_append (k : Nat) (ps qs : List Piece) :
    placed S k (ps ++ qs) = placed S k ps ++ placed S (k + (ps.flatMap Piece.text).length) qs := by
  induction ps generalizing k with
  | nil => rfl
  | cons p ps ih =>
    rw [List.cons_append, placed, placed]
    rcases p.token? S with fault | _ | token
    · rfl
    · simp only [ih, List.flatMap_cons, List.length_append, Nat.add_assoc]
    · simp only [ih, List.flatMap_cons, List.length_append, Nat.add_assoc, cons_append]

end Scan

/-! ### Scans of sources -/

section Sources
open Scan
variable {S : Separators} {source : Text}

theorem scan_eq_placed (S : Separators) (source : Text) :
    scan S source = placed S 0 (pieces S source) := by
  have h := ofPieces_eq_placed S (pieces S source) [] 0 0
  rw [List.append_nil, flatMap_text_pieces] at h
  exact h

theorem tokenize_eq_ok_iff {ls : List Lexeme} :
    tokenize S source = .ok ls ↔ (scan S source).stop = none ∧ (scan S source).lexemes = ls := by
  unfold tokenize Scan.toExcept
  cases (scan S source).stop <;> simp

theorem tokenize_eq_error_iff {e : ScanError} :
    tokenize S source = .error e ↔ (scan S source).stop = some e := by
  unfold tokenize Scan.toExcept
  cases (scan S source).stop <;> simp

/-- A source that is cut where no run goes on is scanned part by part. -/
theorem scan_append {b : Text} (h : S.EndsRun b) (a : Text) :
    scan S (a ++ b) = scan S a ++ (scan S b).shift a.length := by
  rw [scan_eq_placed, pieces_append h, placed_append, flatMap_text_pieces, Nat.zero_add,
    ← Nat.add_zero a.length, placed_add, Nat.add_zero, ← scan_eq_placed, ← scan_eq_placed]

theorem scan_blank {c : Char} (h : Text.isBlank c = true) (t : Text) :
    scan S (c :: t) = (scan S t).shift 1 := by
  rw [scan_eq_placed, scan_eq_placed, pieces_blank h, placed, ← placed_add]
  rfl

theorem scan_blanks_append {g : Text} (h : ∀ c ∈ g, Text.isBlank c = true) (t : Text) :
    scan S (g ++ t) = (scan S t).shift g.length := by
  induction g with
  | nil => exact (shift_zero _).symm
  | cons c g ih =>
    rw [List.cons_append, scan_blank (h c (by simp)), ih fun d hd => h d (by simp [hd]), shift_shift,
      Nat.add_comm]
    rfl

theorem scan_symbol (s : Symbol) (t : Text) :
    scan S (s.char :: t) = ((scan S t).shift 1).cons ⟨.symbol s, 0⟩ := by
  rw [scan_eq_placed, scan_eq_placed, pieces_symbol, placed, ← placed_add]
  rfl

/-- A text that begins with a digit and can all stand in a run is one run. -/
theorem scan_of_read_eq_ok {t : Text} {v : Decimal} (hhead : ∃ c ∈ t.head?, c.isDigit = true)
    (ht : ∀ c ∈ t, S.acceptsInRun c = true) (hv : Numeral.read S t = .ok v) :
    scan S t = ⟨[⟨.number v, 0⟩], none⟩ := by
  obtain ⟨c, hc, hdigit⟩ := hhead
  obtain ⟨more, rfl⟩ := List.head?_eq_some_iff.1 hc
  have hmore : ∀ d ∈ more, S.acceptsInRun d = true := fun d hd => ht d (by simp [hd])
  rw [scan_eq_placed, pieces_run (Text.not_isBlank_of_isDigit hdigit)
    (Symbol.ofChar?_of_isDigit hdigit) (ht c (by simp)), List.takeWhile_eq_self_iff.2 hmore,
    List.dropWhile_eq_nil_iff.2 hmore, pieces, placed, Piece.token?_run_of_ok hv]
  rfl

theorem lt_length_of_reaches {t : Text} {p : Piece} {n : Nat}
    (h : Piece.Reaches S (pieces S t) p n) : n < t.length := by
  have hle := h.add_length_le
  obtain ⟨before, after, hps, -⟩ := h
  have hp := List.length_pos_iff.2 (text_ne_nil_of_mem_pieces p (by rw [hps]; simp))
  rw [flatMap_text_pieces] at hle
  omega

theorem offset_lt_of_mem_lexemes {t : Text} {l : Lexeme} (h : l ∈ (scan S t).lexemes) :
    l.offset < t.length := by
  rw [scan_eq_placed] at h
  obtain ⟨p, n, hr, -, ho⟩ := mem_lexemes_placed.1 h
  have := lt_length_of_reaches hr
  omega

theorem offset_lt_of_stop_eq_some {t : Text} {e : ScanError} (h : (scan S t).stop = some e) :
    e.offset < t.length := by
  rw [scan_eq_placed] at h
  obtain ⟨p, n, hr, -, ho⟩ := stop_placed_eq_some_iff.1 h
  have := lt_length_of_reaches hr
  omega

end Sources

end Abacus
