import Abacus.Proofs.Group
import Abacus.Proofs.Layout

/-! # Putting values in the place of texts

A text in parentheses counts only by its value: whatever stands around the parentheses, all texts with
one value lead to one result, or to one error up to their length (`outcome_enclose`).

`evaluate_enclose_display`: so a text in parentheses can be replaced by the plain form of its value. -/

namespace Abacus

/-! ### The scan around parentheses -/

/-- A text in parentheses with another before and one after them. -/
def enclose (pre content post : Text) : Text := pre ++ '(' :: content ++ ')' :: post

namespace Scan

theorem shift_append (n : Nat) (s t : Scan) : (s ++ t).shift n = s.shift n ++ t.shift n := by
  cases h : s.stop with
  | none =>
    have h' : (s.shift n).stop = none := by simp [shift, h]
    rw [append_of_stop_eq_none h, append_of_stop_eq_none h']
    simp [shift]
  | some e =>
    have h' : (s.shift n).stop = some (e.shift n) := by simp [shift, h]
    rw [append_of_stop_eq_some h, append_of_stop_eq_some h']

end Scan

variable {S : Separators} {pre content post : Text}

theorem scan_symbol_shift (s : Symbol) (t : Text) (n : Nat) :
    (scan S (s.char :: t)).shift n = ((scan S t).shift (n + 1)).cons ⟨.symbol s, n⟩ := by
  rw [scan_symbol, Scan.shift_cons, Scan.shift_shift]
  rfl

theorem scan_enclose (hS : S.Avoids Symbol.isChar) (pre content post : Text) :
    scan S (enclose pre content post) = scan S pre ++
      ((scan S content).shift (pre.length + 1) ++
        ((scan S post).shift (pre.length + content.length + 2)).cons
          ⟨.symbol .closing, pre.length + content.length + 1⟩).cons ⟨.symbol .opening, pre.length⟩ := by
  have hopen := scan_append (hS.endsRun_symbol .opening (content ++ Symbol.closing.char :: post)) pre
  have hclose := scan_append (hS.endsRun_symbol .closing post) content
  rw [scan_symbol_shift] at hopen hclose
  rw [hclose, Scan.shift_append, Scan.shift_cons, Scan.shift_shift] at hopen
  have htext : enclose pre content post
      = pre ++ Symbol.opening.char :: (content ++ Symbol.closing.char :: post) := by
    simp [enclose, Symbol.char]
  have hplace : pre.length + 1 + content.length = pre.length + content.length + 1 := by omega
  have hafter : pre.length + 1 + (content.length + 1) = pre.length + content.length + 2 := by omega
  rw [htext, hopen, Lexeme.shift, hplace, hafter]

theorem scan_enclose_of_stop_eq_none (hS : S.Avoids Symbol.isChar) (hpre : (scan S pre).stop = none)
    (hcontent : (scan S content).stop = none) (post : Text) :
    scan S (enclose pre content post)
      = ⟨(scan S pre).lexemes ++ ⟨.symbol .opening, pre.length⟩ ::
          ((scan S content).lexemes.map (Lexeme.shift (pre.length + 1)) ++
            ⟨.symbol .closing, pre.length + content.length + 1⟩ ::
              (scan S post).lexemes.map (Lexeme.shift (pre.length + content.length + 2))),
        (scan S post).stop.map (ScanError.shift (pre.length + content.length + 2))⟩ := by
  have hshift : ((scan S content).shift (pre.length + 1)).stop = none := by
    simp [Scan.shift, hcontent]
  rw [scan_enclose hS, Scan.append_of_stop_eq_none hpre, Scan.append_of_stop_eq_none hshift]
  rfl

theorem length_enclose (pre content post : Text) :
    (enclose pre content post).length = pre.length + content.length + 2 + post.length := by
  simp [enclose]
  omega

namespace EvaluationError
variable {ls ms : List Lexeme}

/-- A token outside the parentheses stands where it stands when there is nothing between them, moved on
by the length of their content if it is behind them. The group counts as one token on the right, which
stands at its opening parenthesis. -/
theorem offsetOf_enclose {inside : List Lexeme} {opening closing : Lexeme} {k : Nat}
    (hopening : opening.offset = pre.length) (hk : inside.length + 1 = k)
    (hls : ∀ l ∈ ls, l.offset < pre.length) (i : Nat) :
    offsetOf (enclose pre content post)
        (ls ++ opening :: (inside ++ closing :: ms.map (Lexeme.shift (pre.length + content.length + 2))))
        (stretch ls.length k i)
      = stretch pre.length content.length (offsetOf (enclose pre [] post)
          (ls ++ opening :: ms.map (Lexeme.shift (pre.length + 2))) i) := by
  -- a token before the parentheses, the group, or a token behind
  rcases Nat.lt_trichotomy i ls.length with hi | rfl | hi
  · have hlt : ls[i].offset < pre.length := hls _ (List.getElem_mem hi)
    rw [stretch_of_le (Nat.le_of_lt hi), offsetOf_append_of_lt hi, offsetOf_append_of_lt hi,
      stretch_of_le (Nat.le_of_lt hlt)]
  · rw [stretch_of_le (Nat.le_refl _), ← Nat.add_zero ls.length, offsetOf_append_add,
      offsetOf_append_add]
    show opening.offset = stretch _ _ opening.offset
    rw [hopening, stretch_of_le (Nat.le_refl _)]
  · obtain ⟨j, rfl⟩ : ∃ j, i = ls.length + (j + 1) := ⟨i - ls.length - 1, by omega⟩
    have hindex : stretch ls.length k (ls.length + (j + 1))
        = ls.length + (inside.length + (j + 1) + 1) := by
      rw [stretch_of_lt hi]
      omega
    rw [hindex, offsetOf_append_add, offsetOf_append_add]
    show offsetOf _ (inside ++ _) (inside.length + (j + 1)) = stretch _ _ (offsetOf _ (ms.map _) j)
    rw [offsetOf_append_add]
    show offsetOf _ (ms.map _) j = _
    have hempty : (enclose pre [] post).length = pre.length + 2 + post.length := length_enclose ..
    rw [offsetOf_map_shift (length_enclose ..), offsetOf_map_shift hempty, stretch_of_lt (by omega)]
    omega

end EvaluationError

/-! ### The outcome around parentheses -/

theorem outcome_enclose_of_stop_before (hS : S.Avoids Symbol.isChar) {e : ScanError}
    (hpre : (scan S pre).stop = some e) (content post : Text) :
    outcome S (enclose pre content post) = .error (.scanning e.fault, e.offset) := by
  have hscan := scan_enclose hS pre content post
  rw [Scan.append_of_stop_eq_some hpre] at hscan
  exact outcome_of_stop_eq_some (by rw [hscan, hpre])

theorem outcome_enclose_of_stop_behind (hS : S.Avoids Symbol.isChar) {e : ScanError}
    (hpre : (scan S pre).stop = none) (hcontent : (scan S content).stop = none)
    (hpost : (scan S post).stop = some e) :
    outcome S (enclose pre content post)
      = .error (.scanning e.fault, pre.length + content.length + 2 + e.offset) := by
  have hscan := scan_enclose_of_stop_eq_none hS hpre hcontent post
  have hstop : (scan S (enclose pre content post)).stop
      = some (e.shift (pre.length + content.length + 2)) := by rw [hscan, hpost]; rfl
  rw [outcome_of_stop_eq_some hstop]
  rfl

theorem outcome_enclose_of_stop_eq_none (hS : S.Avoids Symbol.isChar) {v : Decimal}
    (hpre : (scan S pre).stop = none) (h : evaluate S content = .ok v)
    (hpost : (scan S post).stop = none) :
    outcome S (enclose pre content post)
      = (reckon ((scan S pre).tokens ++ .number v :: (scan S post).tokens)).mapError fun e =>
        (.reckoning e.fault, stretch pre.length content.length
          (EvaluationError.offsetOf (enclose pre [] post)
            ((scan S pre).lexemes ++ ⟨.symbol .opening, pre.length⟩ ::
              (scan S post).lexemes.map (Lexeme.shift (pre.length + 2))) e.index)) := by
  obtain ⟨hcontent, hv⟩ := evaluate_eq_ok_iff.1 h
  have hscan := scan_enclose_of_stop_eq_none hS hpre hcontent post
  have hstop : (scan S (enclose pre content post)).stop = none := by rw [hscan, hpost]; rfl
  have hgroup := reckon_group hv (scan S pre).tokens (scan S post).tokens
  rw [outcome_of_stop_eq_none hstop, hscan]
  simp only [Scan.tokens, List.map_append, List.map_cons, Scan.map_token_shift] at hgroup ⊢
  rw [hgroup]
  rcases reckon ((scan S pre).lexemes.map Lexeme.token ++
    .number v :: (scan S post).lexemes.map Lexeme.token) with e | w
  · have hlt : ∀ l ∈ (scan S pre).lexemes, l.offset < pre.length := fun l =>
      offset_lt_of_mem_lexemes
    simp only [recount, ReckonError.renumber, Except.mapError, List.length_map]
    rw [EvaluationError.offsetOf_enclose rfl (by simp) hlt]
  · rfl

/-- All texts with one value lead to one outcome, apart from what their length does to places behind
the parentheses. -/
theorem outcome_enclose (hS : S.Avoids Symbol.isChar) (v : Decimal) (pre post : Text) :
    ∃ r : Except (Fault × Nat) Decimal, ∀ content, evaluate S content = .ok v →
      outcome S (enclose pre content post)
        = r.mapError (Prod.map id (stretch pre.length content.length)) := by
  rcases hpre : (scan S pre).stop with _ | e
  · rcases hpost : (scan S post).stop with _ | e
    · refine ⟨(reckon ((scan S pre).tokens ++ .number v :: (scan S post).tokens)).mapError fun e =>
          (.reckoning e.fault, EvaluationError.offsetOf (enclose pre [] post)
            ((scan S pre).lexemes ++ ⟨.symbol .opening, pre.length⟩ ::
              (scan S post).lexemes.map (Lexeme.shift (pre.length + 2))) e.index), fun content h => ?_⟩
      rw [outcome_enclose_of_stop_eq_none hS hpre h hpost]
      rcases reckon ((scan S pre).tokens ++ .number v :: (scan S post).tokens) with e | w <;> rfl
    · refine ⟨.error (.scanning e.fault, pre.length + 2 + e.offset), fun content h => ?_⟩
      have hplace : stretch pre.length content.length (pre.length + 2 + e.offset)
          = pre.length + content.length + 2 + e.offset := by
        rw [stretch_of_lt (by omega)]
        omega
      rw [outcome_enclose_of_stop_behind hS hpre (evaluate_eq_ok_iff.1 h).1 hpost, ← hplace]
      rfl
  · refine ⟨.error (.scanning e.fault, e.offset), fun content _ => ?_⟩
    have hlt := offset_lt_of_stop_eq_some hpre
    have hplace : stretch pre.length content.length e.offset = e.offset :=
      stretch_of_le (Nat.le_of_lt hlt)
    rw [outcome_enclose_of_stop_before hS hpre, Except.mapError, Prod.map, hplace]
    rfl

/-- A text in parentheses can be replaced by the plain form of its value. The result is the same, or the
error says the same at the same place: where it was if it is not behind the opening parenthesis, else
moved on by the difference in length. -/
theorem evaluate_enclose_display (hdigit : S.Avoids Char.isDigit) (hsymbol : S.Avoids Symbol.isChar)
    {v : Decimal} (h : evaluate S content = .ok v) (pre post : Text) :
    (∀ w, evaluate S (enclose pre content post) = .ok w ↔
      evaluate S (enclose pre v.display post) = .ok w) ∧
    ∀ e, evaluate S (enclose pre content post) = .error e →
      ∃ e', evaluate S (enclose pre v.display post) = .error e' ∧ e'.cause.fault = e.cause.fault ∧
        (e.offset ≤ pre.length → e'.offset = e.offset) ∧
        (pre.length < e.offset → e'.offset + content.length = e.offset + v.display.length) := by
  obtain ⟨r, hr⟩ := outcome_enclose hsymbol v pre post
  have hcontent := hr content h
  have hdisplay := hr v.display (evaluate_eq_ok_iff.2 (scan_display hdigit v))
  rcases r with ⟨fault, n⟩ | w
  · -- `n` is where the fault would be with nothing between the parentheses
    obtain ⟨e, he, hfault, ho⟩ := outcome_eq_error_iff.1 hcontent
    obtain ⟨e', he', hfault', ho'⟩ := outcome_eq_error_iff.1 hdisplay
    constructor
    · simp [he, he']
    · intro d hd
      cases he.symm.trans hd
      refine ⟨e', he', hfault'.trans hfault.symm, ?_⟩
      rw [ho, ho']
      rcases Nat.lt_or_ge pre.length n with hn | hn
      · rw [stretch_of_lt hn, stretch_of_lt hn]
        omega
      · rw [stretch_of_le hn, stretch_of_le hn]
        omega
  · simp [outcome_eq_ok_iff.1 hcontent, outcome_eq_ok_iff.1 hdisplay]

namespace MinusHalf

def separators : Separators := ⟨some ',', none⟩

/-- One minus one and a half: three characters more than the value. -/
def difference : Text := ['1', ' ', '-', ' ', '1', ',', '5']

def value : Decimal := ⟨true, 5, 1, by decide, by decide⟩

/-- Behind the parentheses the value is divided by zero. -/
theorem evaluate_divided : evaluate separators difference = .ok value ∧
    evaluate separators (enclose ['3', '*'] difference ['/', '0'])
      = .error ⟨.reckoning ⟨.divisionByZero, 7⟩, 11⟩ ∧
    ∃ e, evaluate separators (enclose ['3', '*'] value.display ['/', '0']) = .error e ∧
      e.cause.fault = .reckoning .divisionByZero ∧ e.offset = 8 := by
  have hvalue : evaluate separators difference = .ok value := by decide +kernel
  have herror : evaluate separators (enclose ['3', '*'] difference ['/', '0'])
      = .error ⟨.reckoning ⟨.divisionByZero, 7⟩, 11⟩ := by decide +kernel
  obtain ⟨-, hfailure⟩ :=
    evaluate_enclose_display (by decide) (by decide) hvalue ['3', '*'] ['/', '0']
  obtain ⟨e, he, hfault, -, hbehind⟩ := hfailure _ herror
  have hoffset : e.offset + 7 = 11 + 4 := hbehind (by decide)
  exact ⟨hvalue, herror, e, he, hfault, by omega⟩

end MinusHalf

end Abacus
