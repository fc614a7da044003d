import Abacus.Decimal.Display

/-! # Tokens

The units of an expression: numbers, the four operators and the two parentheses. A lexeme is a
token at its place in the source. -/

namespace Abacus

inductive Operator where
  | plus
  | minus
  | times
  | divide
deriving DecidableEq, Inhabited

/-- A token that is written with one fixed character. -/
inductive Symbol where
  | operator (op : Operator)
  | opening
  | closing
deriving DecidableEq, Inhabited

namespace Symbol

def char : Symbol → Char
  | operator .plus => '+'
  | operator .minus => '-'
  | operator .times => '*'
  | operator .divide => '/'
  | opening => '('
  | closing => ')'

def ofChar? : Char → Option Symbol
  | '+' => some (operator .plus)
  | '-' => some (operator .minus)
  | '*' => some (operator .times)
  | '/' => some (operator .divide)
  | '(' => some opening
  | ')' => some closing
  | _ => none

theorem ofChar?_char (s : Symbol) : ofChar? s.char = some s := by
  rcases s with (_ | _ | _ | _) | _ | _ <;> rfl

theorem ofChar?_eq_some_iff {c : Char} {s : Symbol} : ofChar? c = some s ↔ c = s.char := by
  refine ⟨fun h => ?_, fun h => h ▸ ofChar?_char s⟩
  unfold ofChar? at h
  split at h <;> simp_all [char] <;> subst h <;> rfl

theorem ofChar?_eq_none_iff {c : Char} : ofChar? c = none ↔ ∀ s : Symbol, c ≠ s.char := by
  simp [Option.eq_none_iff_forall_ne_some, ofChar?_eq_some_iff]

theorem isDigit_char (s : Symbol) : s.char.isDigit = false := by
  rcases s with (_ | _ | _ | _) | _ | _ <;> rfl

theorem ofChar?_of_isDigit {c : Char} (h : c.isDigit = true) : ofChar? c = none := by
  rw [ofChar?_eq_none_iff]
  rintro s rfl
  rw [isDigit_char] at h
  cases h

end Symbol

inductive Token where
  | number (value : Decimal)
  | symbol (s : Symbol)
deriving DecidableEq, Inhabited

namespace Token

def display : Token → Text
  | number value => value.display
  | symbol s => [s.char]

/-- Equality of tokens, where numbers count by their value. -/
def same : Token → Token → Bool
  | number a, number b => a.sameValue b
  | symbol s, symbol t => s == t
  | _, _ => false

end Token

/-- A token and the number of characters before it in the source. -/
structure Lexeme where
  token : Token
  offset : Nat
deriving DecidableEq, Inhabited

end Abacus
