import Abacus.Decimal.Arith
import Abacus.Decimal.Basic
import Abacus.Decimal.Display
import Abacus.Decimal.Literal
import Abacus.Decimal.Quotient
import Abacus.Decimal.Rounding
import Abacus.Evaluation
import Abacus.Locale.Conventions
import Abacus.Locale.Environment
import Abacus.Main
import Abacus.Numeral
import Abacus.Piece
import Abacus.Proofs.Agreement
import Abacus.Proofs.Canonical
import Abacus.Proofs.Caret
import Abacus.Proofs.Cursor
import Abacus.Proofs.Cut
import Abacus.Proofs.Decimal.Arith
import Abacus.Proofs.Decimal.Literal
import Abacus.Proofs.Decimal.Normal
import Abacus.Proofs.Decimal.Operation
import Abacus.Proofs.Decimal.Quotient
import Abacus.Proofs.Decimal.Rounded
import Abacus.Proofs.Equality
import Abacus.Proofs.Evaluation
import Abacus.Proofs.Exactness
import Abacus.Proofs.Expression
import Abacus.Proofs.Failure
import Abacus.Proofs.FirstError
import Abacus.Proofs.Grammar
import Abacus.Proofs.Group
import Abacus.Proofs.Input
import Abacus.Proofs.Join
import Abacus.Proofs.Layout
import Abacus.Proofs.Lines
import Abacus.Proofs.Locale
import Abacus.Proofs.Marks
import Abacus.Proofs.Numeral
import Abacus.Proofs.Outline
import Abacus.Proofs.Place
import Abacus.Proofs.Record
import Abacus.Proofs.Replay
import Abacus.Proofs.Scan
import Abacus.Proofs.Substitution
import Abacus.Proofs.Subtags
import Abacus.Proofs.Tokenless
import Abacus.Reckoning
import Abacus.Reckoning.Operation
import Abacus.Record
import Abacus.Scan
import Abacus.Separators
import Abacus.Session
import Abacus.Text.Blank
import Abacus.Text.Cursor
import Abacus.Text.Quoted
import Abacus.Token
