import Abacus.Text.Blank

/-! # Positions in bytes and in characters

A `Cursor` turns positions counted in bytes of the UTF-8 form of a text into positions counted in
characters. It remembers how far it has come, so a rising sequence of positions is converted in one
walk along the text: `seek_append` says that a step over a stretch of text adds its length. -/

namespace Abacus

namespace Text

/-- The number of bytes of the UTF-8 form. -/
def byteLength : Text → Nat
  | [] => 0
  | c :: t => c.utf8Size + byteLength t

@[simp] theorem byteLength_nil : byteLength [] = 0 := rfl

@[simp] theorem byteLength_cons (c : Char) (t : Text) :
    byteLength (c :: t) = c.utf8Size + byteLength t := rfl

@[simp] theorem byteLength_append (t u : Text) :
    byteLength (t ++ u) = byteLength t + byteLength u := by
  induction t with
  | nil => simp
  | cons c t ih => simp [ih, Nat.add_assoc]

/-- The characters that fill the first `n` bytes, and the rest; `none` if a character straddles
that position or the text is shorter. -/
def splitBytes? : Nat → Text → Option (Text × Text)
  | 0, t => some ([], t)
  | _ + 1, [] => none
  | n + 1, c :: t =>
    if c.utf8Size ≤ n + 1 then
      (splitBytes? (n + 1 - c.utf8Size) t).map fun (gap, rest) => (c :: gap, rest)
    else none

theorem splitBytes?_append (t u : Text) : splitBytes? (byteLength t) (t ++ u) = some (t, u) := by
  induction t with
  | nil => simp [splitBytes?]
  | cons c t ih =>
    obtain ⟨n, hn⟩ : ∃ n, c.utf8Size + byteLength t = n + 1 :=
      ⟨c.utf8Size + byteLength t - 1, by have := c.utf8Size_pos; omega⟩
    rw [byteLength_cons, List.cons_append, hn, splitBytes?, if_pos (by omega),
      show n + 1 - c.utf8Size = byteLength t by omega, ih]
    rfl

end Text

/-- A place in a text, with the bytes and the characters before it and the text after it. -/
structure Cursor where
  rest : Text
  byte : Nat
  chars : Nat
deriving DecidableEq

namespace Cursor
open Text

def ofText (t : Text) : Cursor := ⟨t, 0, 0⟩

/-- Moves on to a byte position. The cursor stays where it is if the position lies behind it, past
the end, or inside a character. -/
def seek (c : Cursor) (byte : Nat) : Cursor :=
  if byte < c.byte then c
  else match splitBytes? (byte - c.byte) c.rest with
    | some (gap, rest) => ⟨rest, byte, c.chars + gap.length⟩
    | none => c

theorem seek_self (c : Cursor) : c.seek c.byte = c := by
  simp [seek, splitBytes?]

theorem seek_append (gap rest : Text) (byte chars : Nat) :
    seek ⟨gap ++ rest, byte, chars⟩ (byte + byteLength gap)
      = ⟨rest, byte + byteLength gap, chars + gap.length⟩ := by
  have h : ¬ byte + byteLength gap < byte := by omega
  simp [seek, h, splitBytes?_append]

end Cursor

end Abacus
