import Abacus.Decimal.Literal
import Abacus.Separators

/-! # Numerals

A run of digits and separators is read as a number: the digits after the last separator are the
fraction and all digits before it the whole part, whichever characters separate them. `canonical`
writes the run as a decimal literal in this sense, and `read` reads that. -/

namespace Abacus.Numeral

/-- The groups of digits of a run: its longest pieces without a separator. -/
def groups (S : Separators) (run : Text) : List Text :=
  (run.splitOnP S.contains).filter fun group => !group.isEmpty

def startsWithSeparator (S : Separators) : Text → Bool
  | [] => false
  | c :: _ => S.contains c

/-- A run as a decimal literal. A single group is the whole part, or the fraction if a separator
comes first; a run of separators alone is left as it is. -/
def canonical (S : Separators) (run : Text) : Text :=
  match groups S run with
  | [] => run
  | [group] => if startsWithSeparator S run then '0' :: '.' :: group else group
  | several => several.dropLast.flatten ++ '.' :: several.getLastD []

def read (S : Separators) (run : Text) : Except Decimal.LiteralFault Decimal :=
  Decimal.ofLiteral (canonical S run)

end Abacus.Numeral
