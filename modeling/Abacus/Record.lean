import Abacus.Evaluation
import Abacus.Locale.Environment
import Abacus.Text.Quoted

/-! # The records of an evaluation

What an evaluation has to tell while it works: each lexeme as it is found, the error in the end if
there is one, and an unknown locale before everything else. -/

namespace Abacus

inductive Level where
  | trace
  | debug
deriving DecidableEq, Inhabited

def Level.name : Level → String
  | trace => "trace"
  | debug => "debug"

inductive Record where
  | unknownLocale (name : Text)
  | lexeme (l : Lexeme)
  | failure (e : EvaluationError)
deriving DecidableEq, Inhabited

namespace Record

def level : Record → Level
  | lexeme _ => .trace
  | unknownLocale _ | failure _ => .debug

def scanMessage (fault : ScanFault) (offset : Nat) : String :=
  match fault with
  | .strayCharacter c =>
    "invalid character " ++ String.ofList (Text.quotedChar c) ++ " at offset " ++ toString offset
  | .badNumeral run reason =>
    "invalid decimal " ++ String.ofList (Text.quoted run) ++ " at offset " ++ toString offset
      ++ ": " ++ reason.message

def message : Record → String
  | unknownLocale name =>
    "unknown numeric locale " ++ String.ofList (Text.quoted name) ++ ", using default separators"
  | lexeme l => "lexeme " ++ String.ofList l.token.display ++ " at offset " ++ toString l.offset
  | failure ⟨.scanning e, offset⟩ => scanMessage e.fault offset
  | failure ⟨.reckoning e, offset⟩ => e.message ++ " mapped to offset " ++ toString offset

end Record

/-! ## Recorded computations -/

/-- A result or an error, with what was recorded on the way to it. -/
structure Recorded (ε α : Type) where
  records : List Record
  result : Except ε α

namespace Recorded
variable {ε α β : Type}

protected def map (f : α → β) (x : Recorded ε α) : Recorded ε β := ⟨x.records, x.result.map f⟩

protected def bind (x : Recorded ε α) (f : α → Recorded ε β) : Recorded ε β :=
  match x.result with
  | .ok a =>
    let y := f a
    ⟨x.records ++ y.records, y.result⟩
  | .error e => ⟨x.records, .error e⟩

instance : Monad (Recorded ε) where
  pure a := ⟨[], .ok a⟩
  map := Recorded.map
  bind := Recorded.bind

/-- Records something, and goes on. -/
def tell (r : Record) : Recorded ε Unit := ⟨[r], .ok ()⟩

/-- Records nothing, and stops. -/
def fail (e : ε) : Recorded ε α := ⟨[], .error e⟩

end Recorded

/-! ## The records of a source -/

open Recorded

/-- The lexemes of pieces that begin at a byte position, each recorded as it is found. An error is
recorded where it is met. -/
def recordPieces (S : Separators) :
    Cursor → (byte : Nat) → List Piece → Recorded EvaluationError (List Lexeme)
  | _, _, [] => return []
  | cursor, byte, piece :: more => do
    let here := cursor.seek byte
    let next := byte + Text.byteLength piece.text
    match piece.token? S with
    | .error fault =>
      let e := EvaluationError.ofScanError ⟨fault, here.chars⟩
      tell (.failure e)
      fail e
    | .ok none => recordPieces S here next more
    | .ok (some token) =>
      let l : Lexeme := ⟨token, here.chars⟩
      tell (.lexeme l)
      (l :: ·) <$> recordPieces S here next more

/-- The value of a source, with the records of the evaluation. -/
def recordEvaluation (S : Separators) (source : Text) : Recorded EvaluationError Decimal := do
  let lexemes ← recordPieces S (Cursor.ofText source) 0 (pieces S source)
  match reckon (lexemes.map Lexeme.token) with
  | .ok value => return value
  | .error e =>
    let e := EvaluationError.ofReckonError source lexemes e
    tell (.failure e)
    fail e

def evaluationRecords (S : Separators) (source : Text) : List Record :=
  (recordEvaluation S source).records

def localeRecords (env : Environment) : List Record :=
  (env.unknownLocale?.map .unknownLocale).toList

end Abacus
