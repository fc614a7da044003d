import Abacus.Text.Blank

/-! # Separators

The characters that may stand between the digits of a number. Comma, point, apostrophe and blanks
within a line always may; a locale adds at most two more. -/

namespace Abacus

/-- The separators that a locale adds: its decimal mark and its grouping mark. -/
structure Separators where
  decimal : Option Char := none
  grouping : Option Char := none
deriving DecidableEq, Inhabited

namespace Separators

def isDefault (S : Separators) : Bool := S.decimal.isNone && S.grouping.isNone

/-- The separators that need no locale. -/
def isCommon (c : Char) : Bool :=
  c == ',' || c == '.' || c == '\x27' || Text.isInlineBlank c

def isAdded (S : Separators) (c : Char) : Bool := S.decimal == some c || S.grouping == some c

/-- Whether a character separates groups of digits. -/
def contains (S : Separators) (c : Char) : Bool := isCommon c || S.isAdded c

/-- Whether a character may stand in a run of digits and separators. -/
def acceptsInRun (S : Separators) (c : Char) : Bool := c.isDigit || S.contains c

theorem acceptsInRun_of_isDigit {S : Separators} {c : Char} (h : c.isDigit = true) :
    S.acceptsInRun c = true := by
  simp [acceptsInRun, h]

theorem acceptsInRun_of_contains {S : Separators} {c : Char} (h : S.contains c = true) :
    S.acceptsInRun c = true := by
  simp [acceptsInRun, h]

theorem isDigit_of_acceptsInRun {S : Separators} {c : Char} (hr : S.acceptsInRun c = true)
    (hc : S.contains c = false) : c.isDigit = true := by
  simpa [acceptsInRun, hc] using hr

theorem not_isCommon_of_isDigit {c : Char} (h : c.isDigit = true) : isCommon c = false := by
  have hb := Text.not_isBlank_of_isDigit h
  simp only [isCommon, Text.isInlineBlank, hb, Bool.false_and, Bool.or_false, Bool.or_eq_false_iff,
    beq_eq_false_iff_ne]
  refine ⟨⟨?_, ?_⟩, ?_⟩ <;> rintro rfl <;> cases h

end Separators

end Abacus
