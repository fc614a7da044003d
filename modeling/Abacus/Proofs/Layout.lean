import Abacus.Proofs.Evaluation
import Abacus.Proofs.Numeral
import Mathlib.Data.List.Chain

/-! # Tokens laid out as text

A layout writes tokens down one after the other, each followed by a gap of blanks; numbers that follow
each other are on different lines. `tokenize_layout`: scanning finds the tokens again, each where its
text begins.

`evaluate_display`: the plain form of a decimal, with its sign, evaluates to this decimal. -/

namespace Abacus

/-! ### Characters that end a run -/

def Symbol.isChar (c : Char) : Bool := (ofChar? c).isSome

namespace Separators
variable {S : Separators} {c : Char}

theorem Avoids.endsRun_symbol (h : S.Avoids Symbol.isChar) (s : Symbol) (t : Text) :
    S.EndsRun (s.char :: t) := by
  have ha : S.isAdded s.char = false := h.isAdded_eq_false (by simp [Symbol.isChar, Symbol.ofChar?_char])
  have hc : isCommon s.char = false := by rcases s with (_ | _ | _ | _) | _ | _ <;> rfl
  rw [endsRun_cons, acceptsInRun, contains, s.isDigit_char, hc, ha]
  rfl

theorem Avoids.acceptsInRun_lineBreak (h : S.Avoids Text.isLineBreak)
    (hc : Text.isLineBreak c = true) : S.acceptsInRun c = false := by
  have hb := Text.isBlank_of_isLineBreak hc
  have hd : c.isDigit = false := by
    cases hd : c.isDigit with
    | false => rfl
    | true => rw [Text.not_isBlank_of_isDigit hd] at hb; cases hb
  have hcommon : isCommon c = false := by
    simp only [isCommon, Text.isInlineBlank, hc, Bool.not_true, Bool.and_false, Bool.or_false,
      Bool.or_eq_false_iff, beq_eq_false_iff_ne]
    refine ⟨⟨?_, ?_⟩, ?_⟩ <;> rintro rfl <;> cases hb
  rw [acceptsInRun, contains, hd, hcommon, h.isAdded_eq_false hc]
  rfl

theorem contains_of_isBlank (hb : Text.isBlank c = true) (hr : S.acceptsInRun c = true) :
    S.contains c = true := by
  rcases Bool.or_eq_true_iff.1 hr with hd | hc
  · rw [Text.not_isBlank_of_isDigit hd] at hb; cases hb
  · exact hc

end Separators

/-! ### The scan of a displayed number -/

section Number
variable {S : Separators} {v : Decimal} {gap rest : Text}

theorem Decimal.display_of_nonneg (hv : v.negative = false) :
    v.display = v.wholeDigits ++ if v.scale = 0 then [] else '.' :: v.fractionDigits := by
  simp [display, hv]

theorem Decimal.eq_point_or_isDigit_of_mem_display (hv : v.negative = false) {c : Char}
    (hc : c ∈ v.display) : c = '.' ∨ c.isDigit = true := by
  rw [display_of_nonneg hv] at hc
  rcases List.mem_append.1 hc with hc | hc
  · exact .inr (v.isDigit_of_mem_wholeDigits hc)
  · split at hc
    · cases hc
    · rcases List.mem_cons.1 hc with rfl | hc
      · exact .inl rfl
      · exact .inr (v.isDigit_of_mem_fractionDigits hc)

theorem Decimal.acceptsInRun_of_mem_display (hv : v.negative = false) {c : Char} (hc : c ∈ v.display) :
    S.acceptsInRun c = true := by
  rcases eq_point_or_isDigit_of_mem_display hv hc with rfl | hdigit
  · rfl
  · exact Separators.acceptsInRun_of_isDigit hdigit

theorem scan_display_append (hS : S.Avoids Char.isDigit) (hv : v.negative = false)
    (hgap : ∀ c ∈ gap, S.contains c = true) :
    scan S (v.display ++ gap) = ⟨[⟨.number v, 0⟩], none⟩ := by
  have hhead : ∃ c ∈ (v.display ++ gap).head?, c.isDigit = true := by
    rw [Decimal.display_of_nonneg hv, List.append_assoc,
      List.head?_append_of_ne_nil _ v.wholeDigits_ne_nil]
    exact v.exists_digit_mem_head?_wholeDigits
  refine scan_of_read_eq_ok hhead (fun c hc => ?_) (Numeral.read_display hS hv hgap)
  rcases List.mem_append.1 hc with hc | hc
  · exact v.acceptsInRun_of_mem_display hv hc
  · exact Separators.acceptsInRun_of_contains (hgap c hc)

/-- The blanks after a number go to its run as long as they can, the others are skipped. -/
theorem scan_number_append (hS : S.Avoids Char.isDigit) (hv : v.negative = false)
    (hgap : ∀ c ∈ gap, Text.isBlank c = true)
    (hend : S.EndsRun rest ∨ ∃ c ∈ gap, S.acceptsInRun c = false) :
    scan S (v.display ++ gap ++ rest)
      = ((scan S rest).shift (v.display ++ gap).length).cons ⟨.number v, 0⟩ := by
  -- the run takes in the first part of the gap and ends before the second
  obtain ⟨taken, left, rfl, htaken, hleft⟩ := S.exists_taken gap
  have hleftEnd : S.EndsRun (left ++ rest) := by
    cases left with
    | nil =>
      rcases hend with hend | ⟨c, hc, hr⟩
      · exact hend
      · rw [htaken c (by simpa using hc)] at hr; cases hr
    | cons c left => exact hleft
  have hcontains : ∀ c ∈ taken, S.contains c = true := fun c hc =>
    Separators.contains_of_isBlank (hgap c (by simp [hc])) (htaken c hc)
  rw [← List.append_assoc, List.append_assoc, scan_append hleftEnd,
    scan_display_append hS hv hcontains, scan_blanks_append fun c hc => hgap c (by simp [hc]),
    Scan.shift_shift, Scan.append_of_stop_eq_none rfl, ← List.length_append]
  rfl

theorem scan_token_append (hS : S.Avoids Char.isDigit) {t : Token}
    (ht : ∀ v, t = .number v → v.negative = false) (hgap : ∀ c ∈ gap, Text.isBlank c = true)
    (hend : ∀ v, t = .number v → S.EndsRun rest ∨ ∃ c ∈ gap, S.acceptsInRun c = false) :
    scan S (t.display ++ gap ++ rest)
      = ((scan S rest).shift (t.display ++ gap).length).cons ⟨t, 0⟩ := by
  cases t with
  | number v => exact scan_number_append hS (ht v rfl) hgap (hend v rfl)
  | symbol s =>
    have h := scan_symbol (S := S) s (gap ++ rest)
    rw [scan_blanks_append hgap, Scan.shift_shift] at h
    rw [List.length_append]
    exact h

end Number

/-! ### Layouts -/

/-- Tokens, each with the gap after it. -/
abbrev Layout := List (Token × Text)

namespace Layout

def text (layout : Layout) : Text := layout.flatMap fun entry => entry.1.display ++ entry.2

/-- The gap between two numbers that follow each other goes on to another line. -/
def NumbersApart (layout : Layout) : Prop :=
  layout.IsChain fun a b => ∀ v w, a.1 = .number v → b.1 = .number w →
    ∃ c ∈ a.2, Text.isLineBreak c = true

/-- The tokens of a layout that has `n` characters before it, each with the number of characters before
its own text. -/
def lexemes (layout : Layout) (n : Nat) : List Lexeme :=
  layout.mapIdx fun i entry => ⟨entry.1, n + (text (layout.take i)).length⟩

theorem text_cons (entry : Token × Text) (layout : Layout) :
    text (entry :: layout) = entry.1.display ++ entry.2 ++ text layout := by
  simp [text]

theorem lexemes_cons (entry : Token × Text) (layout : Layout) (n : Nat) :
    lexemes (entry :: layout) n
      = ⟨entry.1, n⟩ :: lexemes layout (n + (entry.1.display ++ entry.2).length) := by
  simp [lexemes, List.mapIdx_cons, text, Nat.add_assoc]

theorem map_shift_lexemes (layout : Layout) (m n : Nat) :
    (layout.lexemes n).map (Lexeme.shift m) = layout.lexemes (m + n) := by
  induction layout generalizing n with
  | nil => rfl
  | cons entry layout ih =>
    rw [lexemes_cons, lexemes_cons, List.map_cons, ih, Nat.add_assoc]
    rfl

variable {S : Separators} {layout : Layout}

theorem scan_text (hdigit : S.Avoids Char.isDigit) (hsymbol : S.Avoids Symbol.isChar)
    (hbreak : S.Avoids Text.isLineBreak)
    (hgaps : ∀ entry ∈ layout, ∀ c ∈ entry.2, Text.isBlank c = true)
    (hnonneg : ∀ entry ∈ layout, ∀ v, entry.1 = .number v → v.negative = false)
    (hapart : layout.NumbersApart) : scan S layout.text = ⟨layout.lexemes 0, none⟩ := by
  induction layout with
  | nil => simp [text, lexemes, scan_eq_placed, pieces, Scan.placed]
  | cons entry layout ih =>
    -- the run of a number ends before a symbol, and before another number at a line break
    have hend : ∀ v, entry.1 = .number v →
        S.EndsRun (text layout) ∨ ∃ c ∈ entry.2, S.acceptsInRun c = false := by
      intro v hv
      rcases layout with _ | ⟨⟨w | s, gap⟩, layout⟩
      · exact .inl Separators.endsRun_nil
      · obtain ⟨c, hc, hbr⟩ := (List.isChain_cons_cons.1 hapart).1 v w hv rfl
        exact .inr ⟨c, hc, hbreak.acceptsInRun_lineBreak hbr⟩
      · rw [text_cons]
        exact .inl (hsymbol.endsRun_symbol s _)
    have hscan := scan_token_append hdigit (hnonneg entry (by simp)) (hgaps entry (by simp)) hend
    rw [ih (fun e he => hgaps e (by simp [he])) (fun e he => hnonneg e (by simp [he]))
      (List.IsChain.of_cons hapart)] at hscan
    rw [text_cons, hscan, lexemes_cons, Nat.zero_add, Scan.shift, map_shift_lexemes]
    rfl

end Layout

/-- Scanning finds the tokens of a layout, each where its text begins. -/
theorem tokenize_layout {S : Separators} {lead : Text} {layout : Layout}
    (hdigit : S.Avoids Char.isDigit) (hsymbol : S.Avoids Symbol.isChar)
    (hbreak : S.Avoids Text.isLineBreak) (hlead : ∀ c ∈ lead, Text.isBlank c = true)
    (hgaps : ∀ entry ∈ layout, ∀ c ∈ entry.2, Text.isBlank c = true)
    (hnonneg : ∀ entry ∈ layout, ∀ v, entry.1 = .number v → v.negative = false)
    (hapart : layout.NumbersApart) :
    tokenize S (lead ++ layout.text) = .ok (layout.lexemes lead.length) := by
  rw [tokenize_eq_ok_iff, scan_blanks_append hlead,
    Layout.scan_text hdigit hsymbol hbreak hgaps hnonneg hapart]
  exact ⟨rfl, layout.map_shift_lexemes lead.length 0⟩

namespace TwoLines

def separators : Separators := ⟨some '\u066b', some '\u2019'⟩

def half : Decimal := ⟨false, 50, 2, by decide, by decide⟩

def seven : Decimal := ⟨false, 7, 0, by decide, Nat.zero_le _⟩

/-- The blank before the line break belongs to the first run, the tab after it to no token. -/
def layout : Layout :=
  [(.number half, [' ', '\n', '\t']), (.number seven, [' ']), (.symbol (.operator .plus), [])]

theorem tokenize_twoLines : layout.NumbersApart ∧ tokenize separators (' ' :: layout.text)
    = .ok [⟨.number half, 1⟩, ⟨.number seven, 8⟩, ⟨.symbol (.operator .plus), 10⟩] := by
  have hapart : layout.NumbersApart := by
    simp [layout, Layout.NumbersApart, Text.isLineBreak, Text.inRanges, Text.lineBreakRanges]
  have hgaps : ∀ entry ∈ layout, ∀ c ∈ entry.2, Text.isBlank c = true := by
    simp [layout, Text.isBlank, Text.inRanges, Text.blankRanges]
  have hnonneg : ∀ entry ∈ layout, ∀ v, entry.1 = .number v → v.negative = false := by
    simp [layout, half, seven]
  have hlead : ∀ c ∈ [' '], Text.isBlank c = true := List.forall_mem_singleton.2 rfl
  exact ⟨hapart, tokenize_layout (S := separators) (by decide) (by decide) (by decide) hlead hgaps
    hnonneg hapart⟩

end TwoLines

/-! ### Evaluating a displayed decimal -/

theorem Decimal.display_of_negative {d : Decimal} (h : d.negative = true) :
    d.display = (Symbol.operator .minus).char :: (-d).display := by
  rw [display, display, negative_neg, h]
  rfl

theorem scan_display {S : Separators} (hS : S.Avoids Char.isDigit) (d : Decimal) :
    (scan S d.display).stop = none ∧ reckon (scan S d.display).tokens = .ok d := by
  cases hd : d.negative with
  | false =>
    have h := scan_display_append hS hd (List.forall_mem_nil _)
    rw [List.append_nil] at h
    rw [h]
    exact ⟨rfl, rfl⟩
  | true =>
    have hneg : (-d).negative = false := by simp [hd]
    have h := scan_display_append hS hneg (List.forall_mem_nil _)
    have hminus := scan_symbol (S := S) (.operator .minus) (-d).display
    rw [List.append_nil] at h
    rw [h, ← Decimal.display_of_negative hd] at hminus
    rw [hminus]
    have hreckon : reckon [.symbol (.operator .minus), .number (-d)] = .ok (- -d) := rfl
    rw [Decimal.neg_neg] at hreckon
    exact ⟨rfl, hreckon⟩

/-- A decimal is the value of its plain form, with the sign, also of a zero, and with every place. -/
theorem evaluate_display {S : Separators} (hS : S.Avoids Char.isDigit) (d : Decimal) :
    evaluate S d.display = .ok d :=
  evaluate_eq_ok_iff.2 (scan_display hS d)

namespace NegativeZero

/-- The minus sign and the point are separators here. -/
def separators : Separators := ⟨some '-', some '.'⟩

def zero : Decimal := ⟨true, 0, 2, Decimal.limit_pos, by decide⟩

theorem evaluate_zero : separators.Avoids Char.isDigit ∧
    zero.display = ['-', '0', '.', '0', '0'] ∧ evaluate separators zero.display = .ok zero :=
  ⟨by decide, by decide, evaluate_display (by decide) zero⟩

end NegativeZero

end Abacus
