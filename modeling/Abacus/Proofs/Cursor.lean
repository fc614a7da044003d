import Abacus.Text.Cursor

/-! # Positions between characters

`IsBoundary` says which byte positions of a text lie between two of its characters, or at one of its ends.
A text can be split there and nowhere else (`isBoundary_iff_isSome`).

A cursor stands at a boundary and knows the characters before it, wherever it has been sent
(`StandsIn.seek`), and it comes to every boundary that does not lie behind it (`StandsIn.byte_seek`). So it
converts rising boundaries exactly: each to the number of characters that end there or before, which is
the length of the text before it (`convert_ofText`). -/

namespace Abacus

namespace Text
variable {t u v : Text} {byte n start : Nat}

/-! ### Boundaries -/

theorem utf8ByteSize_ofList (t : Text) : (String.ofList t).utf8ByteSize = byteLength t := by
  induction t with
  | nil => rfl
  | cons c t ih =>
    rw [← List.singleton_append, String.ofList_append, String.utf8ByteSize_append, ih,
      ← String.singleton_eq_ofList, String.utf8ByteSize_singleton]
    rfl

/-- The position lies inside no character of the UTF-8 form, nor past its end. -/
def IsBoundary (t : Text) (byte : Nat) : Prop := String.Pos.Raw.IsValid (String.ofList t) ⟨byte⟩

theorem isBoundary_iff : IsBoundary t byte ↔ ∃ u v, t = u ++ v ∧ byteLength u = byte := by
  rw [IsBoundary, String.Pos.Raw.isValid_iff_exists_append]
  constructor
  · rintro ⟨s, s', hs, hp⟩
    refine ⟨s.toList, s'.toList, ?_, ?_⟩
    · rw [← String.toList_append, ← hs, String.toList_ofList]
    · rw [← utf8ByteSize_ofList, String.ofList_toList]
      exact (congrArg String.Pos.Raw.byteIdx hp).symm
  · rintro ⟨u, v, rfl, rfl⟩
    refine ⟨String.ofList u, String.ofList v, String.ofList_append, ?_⟩
    rw [String.Pos.Raw.ext_iff]
    exact (utf8ByteSize_ofList u).symm

theorem splitBytes?_eq_some_iff : splitBytes? n t = some (u, v) ↔ t = u ++ v ∧ byteLength u = n := by
  refine ⟨fun h => ?_, ?_⟩
  · fun_induction splitBytes? n t generalizing u with
    | case1 =>
      obtain ⟨rfl, rfl⟩ := Prod.mk.inj (Option.some.inj h)
      exact ⟨rfl, rfl⟩
    | case2 => cases h
    | case3 n c t hle ih =>
      obtain ⟨⟨u', v'⟩, hsplit, heq⟩ := Option.map_eq_some_iff.1 h
      obtain ⟨rfl, rfl⟩ := Prod.mk.inj heq
      obtain ⟨rfl, hu⟩ := ih hsplit
      refine ⟨rfl, ?_⟩
      rw [byteLength_cons, hu]
      omega
    | case4 => cases h
  · rintro ⟨rfl, rfl⟩
    exact splitBytes?_append u v

theorem isBoundary_iff_isSome : IsBoundary t byte ↔ (splitBytes? byte t).isSome = true := by
  simp only [isBoundary_iff, Option.isSome_iff_exists, Prod.exists, splitBytes?_eq_some_iff]

instance (t : Text) (byte : Nat) : Decidable (IsBoundary t byte) :=
  decidable_of_iff _ isBoundary_iff_isSome.symm

/-! ### Counting characters -/

/-- Where the characters of a text end that begins at `start`. -/
def charEnds (start : Nat) : Text → List Nat
  | [] => []
  | c :: t => (start + c.utf8Size) :: charEnds (start + c.utf8Size) t

/-- The number of characters that end at a position or before it. -/
def charsUpTo (t : Text) (byte : Nat) : Nat := (charEnds 0 t).countP (· ≤ byte)

theorem length_charEnds (start : Nat) (t : Text) : (charEnds start t).length = t.length := by
  induction t generalizing start with
  | nil => rfl
  | cons c t ih => rw [charEnds, List.length_cons, List.length_cons, ih]

theorem charEnds_append (start : Nat) (t u : Text) :
    charEnds start (t ++ u) = charEnds start t ++ charEnds (start + byteLength t) u := by
  induction t generalizing start with
  | nil => rfl
  | cons c t ih =>
    rw [List.cons_append, charEnds, charEnds, ih, List.cons_append, byteLength_cons, Nat.add_assoc]

theorem mem_charEnds_bounds (h : n ∈ charEnds start t) : start < n ∧ n ≤ start + byteLength t := by
  induction t generalizing start with
  | nil => cases h
  | cons c t ih =>
    have hc := c.utf8Size_pos
    rw [byteLength_cons]
    rcases List.mem_cons.1 h with rfl | h
    · omega
    · have hmore := ih h
      omega

/-- The characters that end at a boundary or before it are those before it. -/
theorem charsUpTo_append (t u : Text) : charsUpTo (t ++ u) (byteLength t) = t.length := by
  have hbefore : (charEnds 0 t).countP (· ≤ byteLength t) = (charEnds 0 t).length := by
    rw [List.countP_eq_length]
    intro n hn
    have hle := (mem_charEnds_bounds hn).2
    rw [decide_eq_true_iff]
    omega
  have hafter : (charEnds (0 + byteLength t) u).countP (· ≤ byteLength t) = 0 := by
    rw [List.countP_eq_zero]
    intro n hn
    have hlt := (mem_charEnds_bounds hn).1
    rw [decide_eq_true_iff]
    omega
  rw [charsUpTo, charEnds_append, List.countP_append, hbefore, hafter, length_charEnds, Nat.add_zero]

end Text

namespace Cursor
open Text
variable {c : Cursor} {t : Text} {byte : Nat} {bytes : List Nat}

/-! ### One position -/

/-- The cursor stands at a boundary of the text, with the right counts. -/
def StandsIn (c : Cursor) (t : Text) : Prop :=
  ∃ before, t = before ++ c.rest ∧ c.byte = byteLength before ∧ c.chars = before.length

theorem standsIn_ofText (t : Text) : (ofText t).StandsIn t := ⟨[], rfl, rfl, rfl⟩

namespace StandsIn

theorem chars_eq (h : c.StandsIn t) : c.chars = charsUpTo t c.byte := by
  obtain ⟨before, rfl, hbyte, hchars⟩ := h
  rw [hbyte, hchars, charsUpTo_append]

/-- Wherever the cursor is sent, it comes to a place in the text. -/
theorem seek (h : c.StandsIn t) (byte : Nat) : (c.seek byte).StandsIn t := by
  unfold Cursor.seek
  split
  · exact h
  · next hle =>
    split
    · next gap rest hsplit =>
      obtain ⟨before, rfl, hbyte, hchars⟩ := h
      obtain ⟨hrest, hgap⟩ := splitBytes?_eq_some_iff.1 hsplit
      refine ⟨before ++ gap, ?_, ?_, ?_⟩
      · rw [hrest, List.append_assoc]
      · show byte = _
        rw [byteLength_append, ← hbyte, hgap]
        omega
      · show c.chars + gap.length = _
        rw [List.length_append, hchars]
    · exact h

/-- A boundary that does not lie behind the cursor is so far ahead as some of the characters ahead. -/
theorem exists_gap (h : c.StandsIn t) (hle : c.byte ≤ byte) (hb : IsBoundary t byte) :
    ∃ gap rest, c.rest = gap ++ rest ∧ byte = c.byte + byteLength gap := by
  obtain ⟨before, rfl, hbyte, -⟩ := h
  obtain ⟨u, v, hsplit, rfl⟩ := isBoundary_iff.1 hb
  rcases List.append_eq_append_iff.1 hsplit with ⟨gap, rfl, hrest⟩ | ⟨back, hbefore, hv⟩
  · exact ⟨gap, v, hrest, by rw [byteLength_append, hbyte]⟩
  · -- the boundary cannot lie before the cursor, so it is where the cursor stands
    refine ⟨[], c.rest, rfl, ?_⟩
    rw [hbefore, byteLength_append] at hbyte
    rw [byteLength_nil]
    omega

theorem byte_seek (h : c.StandsIn t) (hle : c.byte ≤ byte) (hb : IsBoundary t byte) :
    (c.seek byte).byte = byte := by
  obtain ⟨gap, rest, hrest, rfl⟩ := h.exists_gap hle hb
  obtain ⟨ahead, place, chars⟩ := c
  obtain rfl : ahead = gap ++ rest := hrest
  rw [seek_append]

end StandsIn

/-! ### Many positions -/

/-- The numbers of characters for positions that the cursor is sent to one after another. -/
def convert (c : Cursor) : List Nat → List Nat
  | [] => []
  | byte :: bytes => (c.seek byte).chars :: (c.seek byte).convert bytes

theorem StandsIn.convert_eq (h : c.StandsIn t) (hrise : (c.byte :: bytes).Pairwise (· ≤ ·))
    (hb : ∀ byte ∈ bytes, IsBoundary t byte) : c.convert bytes = bytes.map (charsUpTo t) := by
  induction bytes generalizing c with
  | nil => rfl
  | cons byte bytes ih =>
    obtain ⟨hbyte, hbytes⟩ := List.forall_mem_cons.1 hb
    obtain ⟨hle, hrise⟩ := List.pairwise_cons.1 hrise
    have hseek : (c.seek byte).byte = byte := h.byte_seek (hle byte (by simp)) hbyte
    have hmore : (c.seek byte).convert bytes = bytes.map (charsUpTo t) :=
      ih (h.seek byte) (by rwa [hseek]) hbytes
    rw [convert, hmore, (h.seek byte).chars_eq, hseek, List.map_cons]

/-- A cursor that starts in front of a text converts rising boundaries, which may be the same several times
and may be the ends of the text, each to the number of characters that end there or before. This is what
one counts in the text before the boundary. -/
theorem convert_ofText (hrise : bytes.Pairwise (· ≤ ·)) (hb : ∀ byte ∈ bytes, IsBoundary t byte) :
    (ofText t).convert bytes = bytes.map (charsUpTo t) ∧
    ∀ byte ∈ bytes, ∃ before after, t = before ++ after ∧ byteLength before = byte ∧
      charsUpTo t byte = before.length := by
  constructor
  · have hstart : ((ofText t).byte :: bytes).Pairwise (· ≤ ·) :=
      List.pairwise_cons.2 ⟨fun byte _ => Nat.zero_le byte, hrise⟩
    exact (standsIn_ofText t).convert_eq hstart hb
  · intro byte hbyte
    obtain ⟨before, after, rfl, rfl⟩ := isBoundary_iff.1 (hb byte hbyte)
    exact ⟨before, after, rfl, rfl, charsUpTo_append before after⟩

namespace EveryWidth

/-- Characters of two, three, one and four bytes. -/
def text : Text := ['é', '€', 'x', '😀']

theorem convert_text : [0, 2, 2, 5, 6, 10].Pairwise (· ≤ ·) ∧
    (∀ byte ∈ [0, 2, 2, 5, 6, 10], IsBoundary text byte) ∧
    (ofText text).convert [0, 2, 2, 5, 6, 10] = [0, 1, 1, 2, 3, 4] := by
  have hrise : [0, 2, 2, 5, 6, 10].Pairwise (· ≤ ·) := by decide
  have hb : ∀ byte ∈ [0, 2, 2, 5, 6, 10], IsBoundary text byte := by decide
  refine ⟨hrise, hb, ?_⟩
  rw [(convert_ofText hrise hb).1]
  decide

end EveryWidth

end Cursor

end Abacus
