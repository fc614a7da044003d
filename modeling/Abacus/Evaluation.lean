import Abacus.Reckoning
import Abacus.Scan

/-! # Evaluating a source

`evaluate` scans a source and reckons its tokens. An error of either stage is placed in the source
by a number of characters. -/

namespace Abacus

/-- What went wrong, in terms of the stage that found it. -/
inductive Cause where
  | scanning (e : ScanError)
  | reckoning (e : ReckonError)
deriving DecidableEq, Inhabited

def Cause.description : Cause → String
  | scanning e => e.fault.description
  | reckoning e => e.fault.description

/-- An error and the number of characters before it in the source. -/
structure EvaluationError where
  cause : Cause
  offset : Nat
deriving DecidableEq, Inhabited

namespace EvaluationError

def ofScanError (e : ScanError) : EvaluationError := ⟨.scanning e, e.offset⟩

/-- The place of the token at an index; past the last token, the end of the source. -/
def offsetOf (source : Text) (lexemes : List Lexeme) (index : Nat) : Nat :=
  match lexemes[index]? with
  | some l => l.offset
  | none => source.length

def ofReckonError (source : Text) (lexemes : List Lexeme) (e : ReckonError) : EvaluationError :=
  ⟨.reckoning e, offsetOf source lexemes e.index⟩

def description (e : EvaluationError) : String := e.cause.description

def message (e : EvaluationError) : String := e.description ++ " at offset " ++ toString e.offset

/-- As many blanks as there are characters before an offset, with the tabs of the source kept.
Past its end the source goes on with spaces. -/
def padding (source : Text) (offset : Nat) : Text :=
  ((source ++ List.replicate (offset - source.length) ' ').take offset).map fun c =>
    if c = '\t' then '\t' else ' '

/-- The source with a caret below it at the place of the error. -/
def caretDiagram (e : EvaluationError) (source : Text) : Text :=
  source ++ '\n' :: padding source e.offset ++ ['^']

end EvaluationError

def Scan.value (s : Scan) (source : Text) : Except EvaluationError Decimal :=
  match s.toExcept with
  | .error e => .error (.ofScanError e)
  | .ok lexemes =>
    match reckon (lexemes.map Lexeme.token) with
    | .ok value => .ok value
    | .error e => .error (.ofReckonError source lexemes e)

def evaluate (S : Separators) (source : Text) : Except EvaluationError Decimal :=
  (scan S source).value source

end Abacus
