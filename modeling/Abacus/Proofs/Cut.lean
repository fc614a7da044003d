import Abacus.Proofs.Scan

/-! # How a source is cut

`Cut` says from left to right what the pieces of a source are, up to its end or to a character that
begins none. Every source has exactly one cut (`exists_cut`, `Cut.unique`), and it is what `pieces`
computes (`Cut.pieces_eq`).

`tokenize_cut`: the lexemes of a source are the tokens that the pieces of its cut stand for, each after
as many characters as the pieces before it have, and the error of a source is the first one along its
cut. -/

namespace Abacus

/-! ### What begins a piece -/

namespace Separators
variable {S : Separators} {c : Char}

/-- A digit, a point, a comma, an apostrophe, or another separator that is not blank and no symbol. -/
def BeginsRun (S : Separators) (c : Char) : Prop :=
  c.isDigit = true ∨ c = '.' ∨ c = ',' ∨ c = '\x27' ∨
    S.isAdded c = true ∧ Text.isBlank c = false ∧ ∀ s : Symbol, c ≠ s.char

def BeginsPiece (S : Separators) (c : Char) : Prop :=
  Text.isBlank c = true ∨ (∃ s : Symbol, c = s.char) ∨ S.BeginsRun c

theorem beginsRun_iff : S.BeginsRun c ↔
    Text.isBlank c = false ∧ Symbol.ofChar? c = none ∧ S.acceptsInRun c = true := by
  constructor
  · rintro (h | rfl | rfl | rfl | ⟨h, hb, hs⟩)
    · exact ⟨Text.not_isBlank_of_isDigit h, Symbol.ofChar?_of_isDigit h, acceptsInRun_of_isDigit h⟩
    · exact ⟨rfl, rfl, rfl⟩
    · exact ⟨rfl, rfl, rfl⟩
    · exact ⟨rfl, rfl, rfl⟩
    · exact ⟨hb, Symbol.ofChar?_eq_none_iff.2 hs, acceptsInRun_of_contains (by simp [contains, h])⟩
  · rintro ⟨hb, hs, hr⟩
    simp only [acceptsInRun, contains, isCommon, Text.isInlineBlank, hb, Bool.or_eq_true,
      beq_iff_eq, Bool.false_and, Bool.false_eq_true, or_false] at hr
    rcases hr with h | ((h | h) | h) | h
    · exact .inl h
    · exact .inr (.inr (.inl h))
    · exact .inr (.inl h)
    · exact .inr (.inr (.inr (.inl h)))
    · exact .inr (.inr (.inr (.inr ⟨h, hb, Symbol.ofChar?_eq_none_iff.1 hs⟩)))

theorem not_beginsPiece_iff : ¬ S.BeginsPiece c ↔
    Text.isBlank c = false ∧ Symbol.ofChar? c = none ∧ S.acceptsInRun c = false := by
  rw [BeginsPiece, beginsRun_iff, Symbol.ofChar?_eq_none_iff]
  grind

end Separators

def Piece.isStray : Piece → Bool
  | stray _ => true
  | _ => false

/-! ### Cuts -/

/-- The pieces of a source, and what is left of it when no piece begins any more. -/
inductive Cut (S : Separators) : Text → List Piece → Text → Prop where
  | finished : Cut S [] [] []
  | stuck {c : Char} {t : Text} (h : ¬ S.BeginsPiece c) : Cut S (c :: t) [] (c :: t)
  | blank {c : Char} {t rest : Text} {ps : List Piece} (h : Text.isBlank c = true)
      (ht : Cut S t ps rest) : Cut S (c :: t) (.blank c :: ps) rest
  | symbol {t rest : Text} {ps : List Piece} (s : Symbol) (ht : Cut S t ps rest) :
      Cut S (s.char :: t) (.symbol s :: ps) rest
  /-- A run goes on as long as it can. -/
  | run {c : Char} {more t rest : Text} {ps : List Piece} (h : S.BeginsRun c)
      (hmore : ∀ d ∈ more, S.acceptsInRun d = true) (hend : S.EndsRun t) (ht : Cut S t ps rest) :
      Cut S (c :: (more ++ t)) (.run (c :: more) :: ps) rest

variable {S : Separators} {source rest : Text} {ps : List Piece}

theorem exists_cut (S : Separators) (source : Text) : ∃ ps rest, Cut S source ps rest := by
  fun_induction pieces S source with
  | case1 => exact ⟨_, _, .finished⟩
  | case2 c t hb ih =>
    obtain ⟨ps, rest, h⟩ := ih
    exact ⟨_, _, .blank hb h⟩
  | case3 c t _ s hs ih =>
    obtain ⟨ps, rest, h⟩ := ih
    rw [Symbol.ofChar?_eq_some_iff.1 hs]
    exact ⟨_, _, .symbol s h⟩
  | case4 c t hb hs hr ih =>
    obtain ⟨ps, rest, h⟩ := ih
    have hc : S.BeginsRun c := Separators.beginsRun_iff.2 ⟨by simpa using hb, hs, hr⟩
    have hmore : ∀ d ∈ t.takeWhile S.acceptsInRun, S.acceptsInRun d = true :=
      fun d => List.mem_takeWhile_imp
    have hcut := Cut.run hc hmore (S.endsRun_dropWhile t) h
    rw [List.takeWhile_append_dropWhile] at hcut
    exact ⟨_, _, hcut⟩
  | case5 c t hb hs hr ih =>
    exact ⟨_, _, .stuck (Separators.not_beginsPiece_iff.2 ⟨by simpa using hb, hs, by simpa using hr⟩)⟩

namespace Cut

theorem flatMap_text (h : Cut S source ps rest) : ps.flatMap Piece.text ++ rest = source := by
  induction h with
  | finished => rfl
  | stuck => rfl
  | blank _ _ ih => simp [Piece.text, ih]
  | symbol _ _ ih => simp [Piece.text, ih]
  | run _ _ _ _ ih => simp [Piece.text, ih]

theorem pieces_rest (h : Cut S source ps rest) : rest = [] ∧ pieces S rest = [] ∨
    ∃ c more, rest = c :: more ∧ pieces S rest = .stray c :: pieces S more := by
  induction h with
  | finished => exact .inl ⟨rfl, by simp [pieces]⟩
  | @stuck c t h =>
    obtain ⟨hb, hs, hr⟩ := Separators.not_beginsPiece_iff.1 h
    exact .inr ⟨c, t, rfl, pieces_stray hb hs hr t⟩
  | blank _ _ ih => exact ih
  | symbol _ _ ih => exact ih
  | run _ _ _ _ ih => exact ih

theorem pieces_eq (h : Cut S source ps rest) : pieces S source = ps ++ pieces S rest := by
  induction h with
  | finished => rfl
  | stuck => rfl
  | blank hb _ ih => rw [pieces_blank hb, ih]; rfl
  | symbol s _ ih => rw [pieces_symbol, ih]; rfl
  | run hc hmore hend _ ih =>
    obtain ⟨hb, hs, hr⟩ := Separators.beginsRun_iff.1 hc
    rw [pieces_run hb hs hr, hend.takeWhile_append, hend.dropWhile_append,
      List.takeWhile_eq_self_iff.2 hmore, List.dropWhile_eq_nil_iff.2 hmore, List.nil_append, ih]
    rfl

theorem pieces_eq_of_finished (h : Cut S source ps []) : pieces S source = ps := by
  rw [h.pieces_eq, pieces, List.append_nil]

theorem text_ne_nil (h : Cut S source ps rest) {p : Piece} (hp : p ∈ ps) : p.text ≠ [] := by
  have hmem : p ∈ pieces S source := by simp [h.pieces_eq, hp]
  exact text_ne_nil_of_mem_pieces p hmem

theorem not_mem_stray (h : Cut S source ps rest) (c : Char) : .stray c ∉ ps := by
  induction h <;> simp_all

/-- The pieces of a cut are those before the first stray. -/
theorem takeWhile_pieces (h : Cut S source ps rest) :
    (pieces S source).takeWhile (fun p => !p.isStray) = ps := by
  have hps : ∀ p ∈ ps, (!p.isStray) = true := by
    intro p hp
    cases p with
    | stray c => exact absurd hp (h.not_mem_stray c)
    | _ => rfl
  rw [h.pieces_eq, List.takeWhile_append_of_pos hps]
  rcases h.pieces_rest with ⟨-, hr⟩ | ⟨c, more, -, hr⟩ <;> simp [hr, Piece.isStray]

theorem unique {ps' : List Piece} {rest' : Text} (h : Cut S source ps rest)
    (h' : Cut S source ps' rest') : ps' = ps ∧ rest' = rest := by
  have hps : ps' = ps := h'.takeWhile_pieces.symm.trans h.takeWhile_pieces
  subst hps
  exact ⟨rfl, List.append_cancel_left (h'.flatMap_text.trans h.flatMap_text.symm)⟩

end Cut

/-! ### Scanning a cut -/

namespace Piece

/-- The token that a piece stands for: a symbol for itself, and a run for the number that it is read as. -/
inductive StandsFor (S : Separators) : Piece → Token → Prop where
  | symbol (s : Symbol) : StandsFor S (.symbol s) (.symbol s)
  | number {t : Text} {v : Decimal} (h : Numeral.read S t = .ok v) : StandsFor S (.run t) (.number v)

theorem token?_eq_ok_some_iff {p : Piece} {token : Token} :
    p.token? S = .ok (some token) ↔ p.StandsFor S token := by
  constructor
  · intro h
    cases p with
    | blank c => cases h
    | symbol s =>
      obtain rfl := Option.some.inj (Except.ok.inj h)
      exact .symbol s
    | run t =>
      rcases hv : Numeral.read S t with reason | v
      · rw [token?_run_of_error hv] at h
        cases h
      · rw [token?_run_of_ok hv] at h
        obtain rfl := Option.some.inj (Except.ok.inj h)
        exact .number hv
    | stray c => cases h
  · intro h
    cases h with
    | symbol s => rfl
    | number hv => exact token?_run_of_ok hv

theorem token?_eq_error_iff {p : Piece} {fault : ScanFault} : p.token? S = .error fault ↔
    (∃ t reason, p = .run t ∧ Numeral.read S t = .error reason ∧ fault = .badNumeral t reason) ∨
      ∃ c, p = .stray c ∧ fault = .strayCharacter c := by
  cases p with
  | blank c => simp [token?]
  | symbol s => simp [token?]
  | run t => rcases h : Numeral.read S t <;> simp [token?, h, eq_comm]
  | stray c => simp [token?, eq_comm]

theorem forall_passes_iff (h : ∀ c, .stray c ∉ ps) :
    (∀ p ∈ ps, p.Passes S) ↔ ∀ t, .run t ∈ ps → ∃ v, Numeral.read S t = .ok v := by
  constructor
  · intro hps t ht
    exact passes_run.1 (hps _ ht)
  · intro hps p hp
    cases p with
    | blank c => exact passes_blank c
    | symbol s => exact passes_symbol s
    | run t => exact passes_run.2 (hps t hp)
    | stray c => exact absurd hp (h c)

theorem reaches_stray_cons {c : Char} {p : Piece} {n : Nat} :
    Reaches S (.stray c :: ps) p n ↔ p = .stray c ∧ n = 0 := by
  simp [reaches_cons, not_passes_stray]

end Piece

namespace Cut
open Piece

theorem stop_scan_eq_none_iff (h : Cut S source ps rest) : (scan S source).stop = none ↔
    rest = [] ∧ ∀ t, .run t ∈ ps → ∃ v, Numeral.read S t = .ok v := by
  rw [scan_eq_placed, Scan.stop_placed_eq_none_iff, h.pieces_eq, List.forall_mem_append,
    forall_passes_iff h.not_mem_stray]
  rcases h.pieces_rest with ⟨rfl, hr⟩ | ⟨c, more, rfl, hr⟩ <;> simp [hr, not_passes_stray]

theorem mem_lexemes_iff (h : Cut S source ps rest) (hstop : (scan S source).stop = none)
    (l : Lexeme) : l ∈ (scan S source).lexemes ↔ ∃ before p after, ps = before ++ p :: after ∧
      p.StandsFor S l.token ∧ l.offset = (before.flatMap text).length := by
  obtain ⟨rfl, hps⟩ := h.stop_scan_eq_none_iff.1 hstop
  rw [← forall_passes_iff h.not_mem_stray] at hps
  rw [scan_eq_placed, Scan.mem_lexemes_placed, h.pieces_eq_of_finished]
  simp only [Nat.zero_add, token?_eq_ok_some_iff]
  constructor
  · rintro ⟨p, n, ⟨before, after, rfl, -, rfl⟩, ht, ho⟩
    exact ⟨before, p, after, rfl, ht, ho⟩
  · rintro ⟨before, p, after, rfl, ht, ho⟩
    exact ⟨p, _, ⟨before, after, rfl, fun q hq => hps q (by simp [hq]), rfl⟩, ht, ho⟩

theorem stop_scan_eq_some_iff (h : Cut S source ps rest) (e : ScanError) :
    (scan S source).stop = some e ↔
      (∃ before t after reason, ps = before ++ .run t :: after ∧
        (∀ u, .run u ∈ before → ∃ v, Numeral.read S u = .ok v) ∧
        Numeral.read S t = .error reason ∧
        e = ⟨.badNumeral t reason, (before.flatMap text).length⟩) ∨
      (∀ t, .run t ∈ ps → ∃ v, Numeral.read S t = .ok v) ∧
        ∃ c more, rest = c :: more ∧ e = ⟨.strayCharacter c, (ps.flatMap text).length⟩ := by
  obtain ⟨fault, offset⟩ := e
  rw [scan_eq_placed, Scan.stop_placed_eq_some_iff, h.pieces_eq]
  simp only [reaches_append, token?_eq_error_iff, ScanError.mk.injEq, Nat.zero_add,
    forall_passes_iff h.not_mem_stray]
  -- the scan stops at one of the pieces, or at what is left behind them
  constructor
  · rintro ⟨p, n, hr | ⟨hps, m, hr, rfl⟩, hp, rfl⟩
    · obtain ⟨before, after, rfl, hpass, rfl⟩ := hr
      have hbefore : ∀ c, .stray c ∉ before := fun c hc => h.not_mem_stray c (by simp [hc])
      rw [forall_passes_iff hbefore] at hpass
      rcases hp with ⟨t, reason, rfl, ht, rfl⟩ | ⟨c, rfl, -⟩
      · exact .inl ⟨before, t, after, reason, rfl, hpass, ht, rfl, rfl⟩
      · exact absurd (h.not_mem_stray c) (by simp)
    · rcases h.pieces_rest with ⟨-, hq⟩ | ⟨c, more, rfl, hq⟩ <;> rw [hq] at hr
      · exact absurd hr not_reaches_nil
      · obtain ⟨rfl, rfl⟩ := reaches_stray_cons.1 hr
        simp at hp
        exact .inr ⟨hps, c, more, rfl, hp, rfl⟩
  · rintro (⟨before, t, after, reason, rfl, hpass, ht, rfl, rfl⟩ | ⟨hps, c, more, rfl, rfl, rfl⟩)
    · have hbefore : ∀ c, .stray c ∉ before := fun c hc => h.not_mem_stray c (by simp [hc])
      rw [← forall_passes_iff hbefore] at hpass
      exact ⟨.run t, _, .inl ⟨before, after, rfl, hpass, rfl⟩, .inl ⟨t, reason, rfl, ht, rfl⟩, rfl⟩
    · obtain ⟨hn, -⟩ | ⟨d, more', hd, hq⟩ := h.pieces_rest
      · cases hn
      · cases hd
        rw [hq]
        exact ⟨.stray c, _, .inr ⟨hps, 0, reaches_stray_cons.2 ⟨rfl, rfl⟩, rfl⟩,
          .inr ⟨c, rfl, rfl⟩, rfl⟩

end Cut

/-- A source is scanned along its only cut. It has lexemes exactly if the cut comes to its end and
every run is a numeral: one for each symbol and one for the number of each run, with the number of
characters before the piece. Otherwise the first run that is no numeral is the error, or, if there is none, the character
at which the cut is stuck. -/
theorem tokenize_cut (S : Separators) (source : Text) :
    ∃ ps rest, Cut S source ps rest ∧
      (∀ ps' rest', Cut S source ps' rest' → ps' = ps ∧ rest' = rest) ∧
      ps.flatMap Piece.text ++ rest = source ∧
      ((∃ ls, tokenize S source = .ok ls) ↔
        rest = [] ∧ ∀ t, .run t ∈ ps → ∃ v, Numeral.read S t = .ok v) ∧
      (∀ ls, tokenize S source = .ok ls →
        ls.Pairwise (·.offset < ·.offset) ∧
        ∀ l, l ∈ ls ↔ ∃ before p after, ps = before ++ p :: after ∧
          p.StandsFor S l.token ∧ l.offset = (before.flatMap Piece.text).length) ∧
      (∀ e, tokenize S source = .error e ↔
        (∃ before t after reason, ps = before ++ .run t :: after ∧
          (∀ u, .run u ∈ before → ∃ v, Numeral.read S u = .ok v) ∧
          Numeral.read S t = .error reason ∧
          e = ⟨.badNumeral t reason, (before.flatMap Piece.text).length⟩) ∨
        (∀ t, .run t ∈ ps → ∃ v, Numeral.read S t = .ok v) ∧
          ∃ c more, rest = c :: more ∧
            e = ⟨.strayCharacter c, (ps.flatMap Piece.text).length⟩) := by
  obtain ⟨ps, rest, h⟩ := exists_cut S source
  refine ⟨ps, rest, h, fun ps' rest' h' => h.unique h', h.flatMap_text, ?_, ?_, ?_⟩
  · rw [← h.stop_scan_eq_none_iff]
    simp [tokenize_eq_ok_iff]
  · intro ls hls
    obtain ⟨hstop, rfl⟩ := tokenize_eq_ok_iff.1 hls
    refine ⟨?_, h.mem_lexemes_iff hstop⟩
    rw [scan_eq_placed]
    exact Scan.pairwise_lexemes_placed text_ne_nil_of_mem_pieces
  · intro e
    rw [tokenize_eq_error_iff, h.stop_scan_eq_some_iff]

end Abacus
