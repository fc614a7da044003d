import Abacus.Separators

/-! # Number conventions of locales

A table of the marks used in numbers, by language or by language and territory, and the search for
the entry that a locale name means. -/

namespace Abacus

structure Conventions where
  decimal : Char
  grouping : Option Char
deriving DecidableEq, Inhabited

namespace Conventions

def separators (c : Conventions) : Separators := ⟨some c.decimal, c.grouping⟩

/-! ## The table -/

def pointComma : Conventions := ⟨'.', some ','⟩
def pointApostrophe : Conventions := ⟨'.', some '\u2019'⟩
def pointAlone : Conventions := ⟨'.', none⟩
def commaPoint : Conventions := ⟨',', some '.'⟩
def commaSpace : Conventions := ⟨',', some '\u00a0'⟩
def commaNarrowSpace : Conventions := ⟨',', some '\u202f'⟩
def arabic : Conventions := ⟨'\u066b', some '\u066c'⟩

/-- The known locales: a language, a language and a territory, or one of the two names of the
locale without a language. -/
def table : List (Text × Conventions) :=
  [("C".toList, pointAlone), ("POSIX".toList, pointAlone), ("ar".toList, arabic),
   ("cs".toList, commaSpace), ("da".toList, commaPoint), ("de".toList, commaPoint),
   ("de_AT".toList, commaSpace), ("de_CH".toList, pointApostrophe), ("en".toList, pointComma),
   ("en_ZA".toList, commaSpace), ("es".toList, commaPoint), ("fi".toList, commaSpace),
   ("fr".toList, commaNarrowSpace), ("fr_CH".toList, commaNarrowSpace), ("hi".toList, pointComma),
   ("it".toList, commaPoint), ("it_CH".toList, pointApostrophe), ("ja".toList, pointComma),
   ("ko".toList, pointComma), ("nb".toList, commaSpace), ("nl".toList, commaPoint),
   ("pl".toList, commaSpace), ("pt".toList, commaSpace), ("pt_BR".toList, commaPoint),
   ("ru".toList, commaSpace), ("sv".toList, commaSpace), ("tr".toList, commaPoint),
   ("uk".toList, commaSpace), ("zh".toList, pointComma)]

def entry? (key : Text) : Option Conventions := table.lookup key

/-! ## Locale names -/

/-- A locale name without its codeset, its modifier and the blanks around it. -/
def baseName (name : Text) : Text :=
  Text.trim (name.takeWhile fun c => c != '.' && c != '@')

/-- The pieces of a base name: language, territory, and more that does not matter. -/
def subtags (base : Text) : List Text := base.splitOnP fun c => c == '_' || c == '-'

/-- The entry for a language and perhaps a territory, in any mixture of cases. A territory without
an entry of its own has that of the language. -/
def ofSubtags? : List Text → Option Conventions
  | [] => none
  | [language] => entry? (language.map Char.toLower)
  | language :: territory :: _ =>
    let language := language.map Char.toLower
    entry? (language ++ '_' :: territory.map Char.toUpper) <|> entry? language

def ofName? (name : Text) : Option Conventions :=
  let base := baseName name
  entry? base <|> ofSubtags? (subtags base)

end Conventions

end Abacus
