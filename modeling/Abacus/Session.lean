import Abacus.Evaluation
import Abacus.Locale.Environment

/-! # A run of the command line

Each argument is an expression; without arguments each line of standard input is one, blank lines
apart. Values go to standard output in their shortest form, errors to standard error with a caret
below their place. Input that is not UTF-8 ends the run at the line where it is met. -/

namespace Abacus

/-- What a run has written, and whether all went well. -/
structure Outcome where
  stdout : Text := []
  stderr : Text := []
  success : Bool := true
deriving DecidableEq, Inhabited

namespace Outcome

protected def append (a b : Outcome) : Outcome :=
  ⟨a.stdout ++ b.stdout, a.stderr ++ b.stderr, a.success && b.success⟩

instance : Append Outcome := ⟨Outcome.append⟩

def exitCode (o : Outcome) : UInt32 := if o.success then 0 else 1

def ofExpression (S : Separators) (source : Text) : Outcome :=
  match evaluate S source with
  | .ok value => { stdout := value.normalize.display ++ ['\n'] }
  | .error e =>
    { stderr := "error: ".toList ++ e.message.toList ++ '\n' :: e.caretDiagram source ++ ['\n']
      success := false }

def ofExpressions (S : Separators) (sources : List Text) : Outcome :=
  (sources.map (ofExpression S)).foldr (· ++ ·) {}

def unreadable : Outcome :=
  { stderr := "decalc: stream did not contain valid UTF-8\n".toList, success := false }

end Outcome

/-! ## Lines of input -/

/-- The lines of an input. A newline ends a line, and a carriage return directly before it belongs
to it; after the last newline there is one more line if anything follows. -/
def inputLines (input : List UInt8) : List (List UInt8) :=
  let parts := input.splitOn 0x0A
  parts.dropLast.map (fun line => if line.getLast? = some 0x0D then line.dropLast else line)
    ++ [parts.getLastD []].filter (fun line => !line.isEmpty)

def decode? (bytes : List UInt8) : Option Text := bytes.toByteArray.utf8Decode?.map Array.toList

def Outcome.ofInput (S : Separators) (input : List UInt8) : Outcome :=
  let lines := (inputLines input).map decode?
  let sources := (lines.takeWhile Option.isSome).filterMap id
  Outcome.ofExpressions S (sources.filter fun source => !(Text.trim source).isEmpty)
    ++ if lines.all Option.isSome then {} else unreadable

def Outcome.ofCommand (env : Environment) (arguments : List Text) (input : List UInt8) : Outcome :=
  if arguments.isEmpty then ofInput env.separators input
  else ofExpressions env.separators arguments

end Abacus
