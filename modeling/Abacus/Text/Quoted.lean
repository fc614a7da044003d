import Abacus.Text.Blank

/-! # Quoted characters and texts

The form in which a character or a piece of source appears in a log record: on one line, between
quotes, with escapes for the quote itself, for the backslash, and for what cannot be seen. -/

namespace Abacus.Text

/-- Controls and blanks other than the plain space, which are shown by their code point. Other characters
that show nothing by themselves are left out: combining and formatting characters, and code points for
private use or without a character, stand in a record as they are. -/
def isUnseen (c : Char) : Bool :=
  c.toNat < 0x20 || (0x7F ≤ c.toNat && c.toNat < 0xA0) || (isBlank c && c != ' ')

/-- A character as it stands between quotes of the kind `quote`. -/
def escape (quote c : Char) : Text :=
  if c = '\t' then ['\\', 't']
  else if c = '\n' then ['\\', 'n']
  else if c = '\r' then ['\\', 'r']
  else if c = '\x00' then ['\\', '0']
  else if c = quote || c = '\\' then ['\\', c]
  else if isUnseen c then ['\\', 'u', '\x7b'] ++ Nat.toDigits 16 c.toNat ++ ['\x7d']
  else [c]

def quotedChar (c : Char) : Text := ['\x27'] ++ escape '\x27' c ++ ['\x27']

def quoted (t : Text) : Text := ['\x22'] ++ t.flatMap (escape '\x22') ++ ['\x22']

end Abacus.Text
