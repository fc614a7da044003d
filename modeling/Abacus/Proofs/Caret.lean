import Abacus.Proofs.Place
import Mathlib.Data.List.DropRight

/-! # Where the caret stands

A place in a source is a number of characters, and these can be on several lines. `CaretBelow` says that
the caret of a diagram stands below a place: as far to the right as the place is in its own line.

`evaluate_caret_iff`: the caret of an error stands as many characters to the right as there are before the
error in the whole source, which is below its place just if the error is on the first line. -/

namespace Abacus

/-! ### Lines of a text -/

namespace Text
variable {t u : Text}

/-- What stands behind the last newline. -/
def lastLine (t : Text) : Text := t.rtakeWhile (· != '\n')

/-- What stands before a place in its line. -/
def lineBefore (t : Text) (place : Nat) : Text := lastLine (t.take place)

/-- The line of a place. -/
def lineAt (t : Text) (place : Nat) : Text :=
  t.lineBefore place ++ (t.drop place).takeWhile (· != '\n')

theorem lastLine_eq_self_iff : t.lastLine = t ↔ '\n' ∉ t := by
  simp [lastLine, List.rtakeWhile_eq_self_iff, ← List.forall_mem_ne']

theorem lastLine_append_newline (h : '\n' ∉ u) (t : Text) : (t ++ '\n' :: u).lastLine = u := by
  -- from the end, where the last line is read off
  induction u using List.reverseRecOn with
  | nil => exact List.rtakeWhile_concat_neg _ _ _ (by simp)
  | append_singleton u c ih =>
    obtain ⟨hu, hc⟩ : '\n' ∉ u ∧ c ≠ '\n' := by simpa [eq_comm] using h
    have hline := List.rtakeWhile_concat_pos (· != '\n') (t ++ '\n' :: u) c (by simpa using hc)
    rw [List.append_assoc, List.cons_append] at hline
    exact hline.trans (congrArg (· ++ [c]) (ih hu))

/-- The characters before a place are all in its line if none of them is a newline. -/
theorem length_lineBefore_eq_iff {place : Nat} (h : place ≤ t.length) :
    (t.lineBefore place).length = place ↔ '\n' ∉ t.take place := by
  have hlength : (t.take place).length = place := List.length_take_of_le h
  rw [← lastLine_eq_self_iff, lineBefore]
  constructor
  · intro hline
    exact (List.rtakeWhile_suffix _ _).eq_of_length (hline.trans hlength.symm)
  · intro hline
    rw [hline, hlength]

theorem getElem?_lineAt_of_lt {place k : Nat} (h : '\n' ∉ t.take place) (hk : k < place)
    (hplace : place ≤ t.length) : (t.lineAt place)[k]? = t[k]? := by
  have hlength : (t.take place).length = place := List.length_take_of_le hplace
  rw [lineAt, lineBefore, lastLine_eq_self_iff.2 h, List.getElem?_append_left (by omega),
    List.getElem?_take_of_lt hk]

end Text

/-! ### The caret -/

/-- The caret in the last line of a diagram stands below a place of a source: it has as many characters
before it as the place has in its line, and the tabs among them are those of the line. -/
structure CaretBelow (diagram source : Text) (place : Nat) : Prop where
  caret : '^' ∈ diagram.lastLine
  column : (diagram.lastLine.takeWhile (· != '^')).length = (source.lineBefore place).length
  tabs : ∀ k < (source.lineBefore place).length,
    (diagram.lastLine.takeWhile (· != '^'))[k]? = some '\t' ↔ (source.lineAt place)[k]? = some '\t'

namespace EvaluationError
variable {source : Text} {e : EvaluationError}

theorem length_padding (source : Text) (offset : Nat) : (padding source offset).length = offset := by
  simp [padding]
  omega

theorem getElem?_padding {offset k : Nat} (h : k < offset) :
    (padding source offset)[k]? = some (if source[k]? = some '\t' then '\t' else ' ') := by
  rw [padding, List.getElem?_map, List.getElem?_take_of_lt h]
  rcases Nat.lt_or_ge k source.length with hk | hk
  · simp [List.getElem?_append_left hk, hk]
  · have hlt : k - source.length < offset - source.length := by omega
    simp [List.getElem?_append_right hk, hk, hlt]

theorem eq_tab_or_eq_space_of_mem_padding {offset : Nat} {c : Char} (h : c ∈ padding source offset) :
    c = '\t' ∨ c = ' ' := by
  obtain ⟨d, -, rfl⟩ := List.mem_map.1 h
  split
  · exact .inl rfl
  · exact .inr rfl

theorem lastLine_caretDiagram (e : EvaluationError) (source : Text) :
    (e.caretDiagram source).lastLine = padding source e.offset ++ ['^'] := by
  have hnewline : '\n' ∉ padding source e.offset ++ ['^'] := by
    intro h
    rcases List.mem_append.1 h with h | h
    · rcases eq_tab_or_eq_space_of_mem_padding h with h | h <;> cases h
    · simp at h
  have hdiagram : e.caretDiagram source = source ++ '\n' :: (padding source e.offset ++ ['^']) := by
    simp [caretDiagram]
  rw [hdiagram, Text.lastLine_append_newline hnewline]

theorem takeWhile_lastLine_caretDiagram (e : EvaluationError) (source : Text) :
    (e.caretDiagram source).lastLine.takeWhile (· != '^') = padding source e.offset := by
  have hpadding : ∀ c ∈ padding source e.offset, (c != '^') = true := by
    intro c hc
    rcases eq_tab_or_eq_space_of_mem_padding hc with rfl | rfl <;> rfl
  rw [lastLine_caretDiagram, List.takeWhile_append_of_pos hpadding]
  simp

/-- The caret counts the characters of all lines before the place. -/
theorem caretBelow_caretDiagram_iff (h : e.offset ≤ source.length) :
    CaretBelow (e.caretDiagram source) source e.offset ↔ '\n' ∉ source.take e.offset := by
  rw [← Text.length_lineBefore_eq_iff h]
  constructor
  · intro hbelow
    have hcolumn := hbelow.column
    rw [takeWhile_lastLine_caretDiagram, length_padding] at hcolumn
    exact hcolumn.symm
  · intro hline
    have hfirst := (Text.length_lineBefore_eq_iff h).1 hline
    refine ⟨by simp [lastLine_caretDiagram], ?_, fun k hk => ?_⟩
    · rw [takeWhile_lastLine_caretDiagram, length_padding, hline]
    · rw [hline] at hk
      rw [takeWhile_lastLine_caretDiagram, getElem?_padding hk, Text.getElem?_lineAt_of_lt hfirst hk h]
      split <;> simp_all

end EvaluationError

section Sources
variable {S : Separators} {source : Text} {e : EvaluationError}

theorem offset_le_length_of_evaluate_eq_error (h : evaluate S source = .error e) :
    e.offset ≤ source.length := by
  rcases hstop : (scan S source).stop with _ | s
  · rw [evaluate_of_stop_eq_none hstop] at h
    rcases hr : reckon (scan S source).tokens with r | v <;> rw [hr] at h <;> cases h
    exact offsetOf_le_length r.index
  · rw [evaluate_of_stop_eq_some hstop] at h
    cases h
    exact Nat.le_of_lt (offset_lt_of_stop_eq_some hstop)

/-- Below a source, the caret of its error has before it a blank for each character before the error,
which is a tab where the source has one. So it stands below the place of the error if the error is on
the first line, and only then. -/
theorem evaluate_caret_iff (h : evaluate S source = .error e) :
    ∃ blanks, e.caretDiagram source = source ++ '\n' :: (blanks ++ ['^']) ∧
      blanks.length = e.offset ∧ e.offset ≤ source.length ∧
      (∀ k < e.offset, blanks[k]? = some (if source[k]? = some '\t' then '\t' else ' ')) ∧
      (CaretBelow (e.caretDiagram source) source e.offset ↔ '\n' ∉ source.take e.offset) := by
  have hle := offset_le_length_of_evaluate_eq_error h
  refine ⟨EvaluationError.padding source e.offset, ?_, EvaluationError.length_padding _ _, hle,
    fun k hk => EvaluationError.getElem?_padding hk, EvaluationError.caretBelow_caretDiagram_iff hle⟩
  simp [EvaluationError.caretDiagram]

end Sources

namespace TabbedProduct

/-- The run of the first factor takes in the tab. -/
def product : Text := ['7', '\t', '*', '%']

theorem evaluate_tabbed :
    evaluate {} product = .error ⟨.scanning ⟨.strayCharacter '%', 3⟩, 3⟩ ∧
    EvaluationError.caretDiagram ⟨.scanning ⟨.strayCharacter '%', 3⟩, 3⟩ product
      = ['7', '\t', '*', '%', '\n', ' ', '\t', ' ', '^'] ∧
    CaretBelow ['7', '\t', '*', '%', '\n', ' ', '\t', ' ', '^'] product 3 := by
  have hproduct : evaluate {} product = .error ⟨.scanning ⟨.strayCharacter '%', 3⟩, 3⟩ := by
    decide +kernel
  have hdiagram : EvaluationError.caretDiagram ⟨.scanning ⟨.strayCharacter '%', 3⟩, 3⟩ product
      = ['7', '\t', '*', '%', '\n', ' ', '\t', ' ', '^'] := by
    decide +kernel
  obtain ⟨-, -, -, -, -, hbelow⟩ := evaluate_caret_iff hproduct
  rw [hdiagram] at hbelow
  exact ⟨hproduct, hdiagram, hbelow.2 (by decide)⟩

end TabbedProduct

namespace SecondLine

/-- A sum whose second addend, on the second line, is no number. -/
def sum : Text := ['1', '\n', '+', 'a']

/-- The error has one character before it in its line, and the caret has three. -/
theorem evaluate_second_line :
    ∃ e, evaluate {} sum = .error e ∧ (sum.lineBefore e.offset).length = 1 ∧
      e.caretDiagram sum = ['1', '\n', '+', 'a', '\n', ' ', ' ', ' ', '^'] ∧
      ¬ CaretBelow (e.caretDiagram sum) sum e.offset := by
  refine ⟨⟨.scanning ⟨.strayCharacter 'a', 3⟩, 3⟩, by decide +kernel, by decide +kernel,
    by decide +kernel, fun hbelow => ?_⟩
  have hfirst := (EvaluationError.caretBelow_caretDiagram_iff (by decide)).1 hbelow
  exact absurd hfirst (by decide)

end SecondLine

end Abacus
