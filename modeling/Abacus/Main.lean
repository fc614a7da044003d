import Abacus.Session

/-! # The command line

Reads the locale variables and, without arguments, standard input; the rest is
`Outcome.ofCommand`. -/

namespace Abacus

/-- The variables of the process that name the locale for numbers. -/
def readEnvironment : IO Environment := do
  let values ← Environment.localeVariables.mapM fun name => do
    return (name, (← IO.getEnv name).map String.toList)
  return fun name => (values.lookup name).join

end Abacus

/-- Runs the command line and leaves with status 0 if every expression had a value. -/
def main (arguments : List String) : IO UInt32 := do
  let env ← Abacus.readEnvironment
  let input ← if arguments.isEmpty then (← IO.getStdin).readBinToEnd else pure .empty
  let outcome := Abacus.Outcome.ofCommand env (arguments.map String.toList) input.toList
  (← IO.getStdout).putStr (String.ofList outcome.stdout)
  (← IO.getStderr).putStr (String.ofList outcome.stderr)
  return outcome.exitCode
