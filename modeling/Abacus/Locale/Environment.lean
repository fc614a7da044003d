import Abacus.Locale.Conventions

/-! # The locale of the environment

Three variables can name the locale for numbers. They are asked in a fixed order, and the first one
that is set to something decides, whether or not its value is a known locale. -/

namespace Abacus

/-- The variables of the environment, by name. -/
abbrev Environment := String → Option Text

namespace Environment

/-- The variables that name the locale for numbers, in the order in which they are asked. -/
def localeVariables : List String := ["LC_ALL", "LC_NUMERIC", "LANG"]

/-- The value of a variable, if it is set to something. -/
def value? (env : Environment) (name : String) : Option Text :=
  (env name).filter fun value => !value.isEmpty

def localeName? (env : Environment) : Option Text := localeVariables.findSome? env.value?

/-- The variables that have to be asked for it, in order. -/
def asked (env : Environment) : List String :=
  let unset := localeVariables.takeWhile fun name => (env.value? name).isNone
  localeVariables.take (unset.length + 1)

def conventions? (env : Environment) : Option Conventions :=
  env.localeName?.bind Conventions.ofName?

/-- The name of the locale where it is named but not known. -/
def unknownLocale? (env : Environment) : Option Text :=
  env.localeName?.filter fun name => (Conventions.ofName? name).isNone

/-- The separators of the environment; without a known locale nothing is added. -/
def separators (env : Environment) : Separators :=
  match env.conventions? with
  | some conventions => conventions.separators
  | none => {}

end Environment

end Abacus
