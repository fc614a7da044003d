import Abacus.Numeral
import Abacus.Piece
import Abacus.Text.Cursor

/-! # Scanning a source

`scan` turns the pieces of a source into lexemes and stops at the first piece that is no part of an
expression: a stray character, or a run that is not the text of an exact decimal. -/

namespace Abacus

/-- Why a piece is no part of an expression. -/
inductive ScanFault where
  | strayCharacter (c : Char)
  | badNumeral (run : Text) (reason : Decimal.LiteralFault)
deriving DecidableEq, Inhabited

def ScanFault.description : ScanFault → String
  | strayCharacter c => "invalid character '" ++ c.toString ++ "'"
  | badNumeral run _ => "invalid number '" ++ String.ofList run ++ "'"

/-- A fault and the number of characters before it in the source. -/
structure ScanError where
  fault : ScanFault
  offset : Nat
deriving DecidableEq, Inhabited

def ScanError.message (e : ScanError) : String :=
  e.fault.description ++ " at offset " ++ toString e.offset

/-- The token of a piece; a blank has none. -/
def Piece.token? (S : Separators) : Piece → Except ScanFault (Option Token)
  | blank _ => .ok none
  | symbol s => .ok (some (.symbol s))
  | run t =>
    match Numeral.read S t with
    | .ok value => .ok (some (.number value))
    | .error reason => .error (.badNumeral t reason)
  | stray c => .error (.strayCharacter c)

/-- The lexemes of a source up to its end, or up to the error that stopped the scan. -/
structure Scan where
  lexemes : List Lexeme
  stop : Option ScanError
deriving DecidableEq, Inhabited

namespace Scan

def cons (l : Lexeme) (s : Scan) : Scan := { s with lexemes := l :: s.lexemes }

/-- Scans pieces that begin at a byte position. The cursor says how many characters that is; it is
moved up to each piece in turn. -/
def ofPieces (S : Separators) : Cursor → (byte : Nat) → List Piece → Scan
  | _, _, [] => ⟨[], none⟩
  | cursor, byte, piece :: more =>
    let here := cursor.seek byte
    let next := byte + Text.byteLength piece.text
    match piece.token? S with
    | .error fault => ⟨[], some ⟨fault, here.chars⟩⟩
    | .ok none => ofPieces S here next more
    | .ok (some token) => (ofPieces S here next more).cons ⟨token, here.chars⟩

theorem ofPieces_append (S : Separators) (gap rest : Text) (byte chars : Nat) (more : List Piece) :
    ofPieces S ⟨gap ++ rest, byte, chars⟩ (byte + Text.byteLength gap) more
      = ofPieces S ⟨rest, byte + Text.byteLength gap, chars + gap.length⟩
          (byte + Text.byteLength gap) more := by
  cases more with
  | nil => rfl
  | cons piece more =>
    have h := Cursor.seek_self ⟨rest, byte + Text.byteLength gap, chars + gap.length⟩
    simp only [ofPieces, Cursor.seek_append, h]

/-- A piece is placed by the number of characters before it. -/
theorem ofPieces_cons (S : Separators) (piece : Piece) (rest : Text) (byte chars : Nat)
    (more : List Piece) :
    ofPieces S ⟨piece.text ++ rest, byte, chars⟩ byte (piece :: more)
      = match piece.token? S with
        | .error fault => ⟨[], some ⟨fault, chars⟩⟩
        | .ok none =>
          ofPieces S ⟨rest, byte + Text.byteLength piece.text, chars + piece.text.length⟩
            (byte + Text.byteLength piece.text) more
        | .ok (some token) =>
          (ofPieces S ⟨rest, byte + Text.byteLength piece.text, chars + piece.text.length⟩
            (byte + Text.byteLength piece.text) more).cons ⟨token, chars⟩ := by
  have h := Cursor.seek_self ⟨piece.text ++ rest, byte, chars⟩
  simp only [ofPieces, h, ofPieces_append]

def toExcept (s : Scan) : Except ScanError (List Lexeme) :=
  match s.stop with
  | none => .ok s.lexemes
  | some e => .error e

end Scan

def scan (S : Separators) (source : Text) : Scan :=
  Scan.ofPieces S (Cursor.ofText source) 0 (pieces S source)

/-- The lexemes of a source, or the first error in it. -/
def tokenize (S : Separators) (source : Text) : Except ScanError (List Lexeme) :=
  (scan S source).toExcept

end Abacus
