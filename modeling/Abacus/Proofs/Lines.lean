import Abacus.Session
import Mathlib.Data.List.TakeWhile

/-! # The lines of an input

`Lines` says from left to right what the lines of an input are; it is what `inputLines` computes
(`lines_iff`). A line can be read if it is the UTF-8 form of a text (`decode?_eq_some_iff`).

`Outcome.ofLines` takes one line after the other, and what an input comes to is what its lines come to
(`Outcome.ofInput_eq_ofLines`). -/

namespace Abacus

namespace Text

theorem trim_eq_nil_iff {t : Text} : trim t = [] ↔ ∀ c ∈ t, isBlank c = true := by
  rw [trim, List.reverse_eq_nil_iff, List.dropWhile_eq_nil_iff]
  simp only [List.mem_reverse]
  constructor
  · intro h
    rcases hd : t.dropWhile isBlank with _ | ⟨c, u⟩
    · exact List.dropWhile_eq_nil_iff.1 hd
    · -- the first character that is left would be no blank
      have hhead := List.head?_dropWhile_not isBlank t
      have hc := h c (by simp [hd])
      rw [hd] at hhead
      simp [hc] at hhead
  · intro h c hc
    exact h c ((List.dropWhile_sublist _).mem hc)

theorem isEmpty_trim (t : Text) : (trim t).isEmpty = t.all isBlank := by
  rw [Bool.eq_iff_iff, List.isEmpty_iff, trim_eq_nil_iff, List.all_eq_true]

/-! ### The UTF-8 form of a text -/

/-- The bytes of the UTF-8 form. -/
def encode (t : Text) : List UInt8 := t.flatMap String.utf8EncodeChar

theorem encode_append (t u : Text) : encode (t ++ u) = encode t ++ encode u := List.flatMap_append

end Text

theorem decode?_eq_some_iff {bytes : List UInt8} {t : Text} :
    decode? bytes = some t ↔ bytes = t.encode := by
  have hencode : t.encode.toByteArray.utf8Decode? = some t.toArray := List.utf8Decode?_utf8Encode
  rw [decode?, Option.map_eq_some_iff]
  constructor
  · rintro ⟨chars, hchars, rfl⟩
    have hget := ByteArray.utf8Encode_get_utf8Decode? (b := bytes.toByteArray) (h := by simp [hchars])
    simp only [hchars, Option.get_some] at hget
    exact (List.toByteArray_inj.1 hget).symm
  · rintro rfl
    exact ⟨t.toArray, hencode, rfl⟩

theorem decode?_encode (t : Text) : decode? t.encode = some t := decode?_eq_some_iff.2 rfl

theorem Text.encode_injective {t u : Text} (h : t.encode = u.encode) : t = u := by
  have hu := decode?_encode u
  rw [← h, decode?_encode] at hu
  exact Option.some.inj hu

/-! ### Lines -/

/-- What the lines of an input are. A newline ends a line, and a carriage return directly before it
belongs to it; what follows the last newline is a line as it stands, if it is anything. -/
inductive Lines : List UInt8 → List (List UInt8) → Prop where
  | nil : Lines [] []
  | last {line : List UInt8} : line ≠ [] → 0x0A ∉ line → Lines line [line]
  | newline {line rest : List UInt8} {lines : List (List UInt8)} : 0x0A ∉ line →
      line.getLast? ≠ some 0x0D → Lines rest lines → Lines (line ++ 0x0A :: rest) (line :: lines)
  | carriageReturn {line rest : List UInt8} {lines : List (List UInt8)} : 0x0A ∉ line →
      Lines rest lines → Lines (line ++ 0x0D :: 0x0A :: rest) (line :: lines)

section InputLines
variable {line rest : List UInt8}

theorem inputLines_of_not_mem (h : 0x0A ∉ line) :
    inputLines line = [line].filter fun line => !line.isEmpty := by
  rw [inputLines, List.splitOn_eq_singleton h]
  rfl

theorem inputLines_append_newline (h : 0x0A ∉ line) (rest : List UInt8) :
    inputLines (line ++ 0x0A :: rest)
      = (if line.getLast? = some 0x0D then line.dropLast else line) :: inputLines rest := by
  obtain ⟨part, parts, hparts⟩ := List.exists_cons_of_ne_nil (List.splitOn_ne_nil 0x0A rest)
  rw [inputLines, inputLines, List.splitOn_append_cons_self_of_not_mem h, hparts]
  rfl

end InputLines

theorem Lines.inputLines_eq {input : List UInt8} {lines : List (List UInt8)} (h : Lines input lines) :
    inputLines input = lines := by
  induction h with
  | nil => rfl
  | last hne hnewline =>
    rw [inputLines_of_not_mem hnewline]
    simp [hne]
  | newline hnewline hreturn _ ih => rw [inputLines_append_newline hnewline, if_neg hreturn, ih]
  | @carriageReturn line rest lines hnewline _ ih =>
    -- up to the newline the line has its carriage return, as its last byte
    have hline : 0x0A ∉ line ++ [0x0D] := by simp [hnewline]
    have h := inputLines_append_newline hline rest
    rw [if_pos (by simp), List.dropLast_concat, ih] at h
    rw [← h, List.append_assoc, List.singleton_append]

theorem lines_inputLines (input : List UInt8) : Lines input (inputLines input) := by
  by_cases hmem : 0x0A ∈ input
  · obtain ⟨line, rest, rfl, hnewline⟩ := List.eq_append_cons_of_mem hmem
    have hrest : Lines rest (inputLines rest) := lines_inputLines rest
    rw [inputLines_append_newline hnewline]
    by_cases hreturn : line.getLast? = some 0x0D
    · obtain ⟨line, rfl⟩ := List.getLast?_eq_some_iff.1 hreturn
      rw [if_pos hreturn, List.dropLast_concat, List.append_assoc, List.singleton_append]
      exact .carriageReturn (fun h => hnewline (by simp [h])) hrest
    · rw [if_neg hreturn]
      exact .newline hnewline hreturn hrest
  · rw [inputLines_of_not_mem hmem]
    by_cases hne : input = []
    · subst hne
      exact .nil
    · have hkept : [input].filter (fun line => !line.isEmpty) = [input] := by simp [hne]
      rw [hkept]
      exact .last hne hmem
termination_by input.length
decreasing_by
  subst_vars
  simp only [List.length_append, List.length_cons]
  omega

/-- Every input has exactly one division into lines. -/
theorem lines_iff {input : List UInt8} {lines : List (List UInt8)} :
    Lines input lines ↔ inputLines input = lines :=
  ⟨Lines.inputLines_eq, fun h => h ▸ lines_inputLines input⟩

/-- The last line has no newline, so its carriage return stands. -/
example : inputLines [0x31, 0x0D, 0x0A, 0x0A, 0x32, 0x0D] = [[0x31], [], [0x32, 0x0D]] := by
  decide +kernel

/-! ### One line after the other -/

namespace Outcome

/-- What the lines come to that are left. A line that is no text ends the run. -/
def ofLines (S : Separators) : List (List UInt8) → Outcome
  | [] => {}
  | line :: lines =>
    match decode? line with
    | none => unreadable
    | some source =>
      if source.all Text.isBlank then ofLines S lines else ofExpression S source ++ ofLines S lines

section Append
variable (a b c : Outcome)

@[simp] theorem stdout_append : (a ++ b).stdout = a.stdout ++ b.stdout := rfl

@[simp] theorem stderr_append : (a ++ b).stderr = a.stderr ++ b.stderr := rfl

@[simp] theorem success_append : (a ++ b).success = (a.success && b.success) := rfl

protected theorem ext_iff {a b : Outcome} :
    a = b ↔ a.stdout = b.stdout ∧ a.stderr = b.stderr ∧ a.success = b.success := by
  cases a
  cases b
  simp

protected theorem append_assoc : a ++ b ++ c = a ++ (b ++ c) := by
  simp [Outcome.ext_iff, Bool.and_assoc]

protected theorem empty_append : {} ++ a = a := by simp [Outcome.ext_iff]

protected theorem append_empty : a ++ {} = a := by simp [Outcome.ext_iff]

end Append

theorem ofExpressions_cons (S : Separators) (source : Text) (sources : List Text) :
    ofExpressions S (source :: sources) = ofExpression S source ++ ofExpressions S sources := rfl

theorem ofInput_eq_ofLines (S : Separators) (input : List UInt8) :
    ofInput S input = ofLines S (inputLines input) := by
  show ofExpressions S (((((inputLines input).map decode?).takeWhile Option.isSome).filterMap id).filter
      fun source => !(Text.trim source).isEmpty)
    ++ (if ((inputLines input).map decode?).all Option.isSome then {} else unreadable) = _
  simp only [Text.isEmpty_trim]
  generalize inputLines input = lines
  induction lines with
  | nil => exact Outcome.append_empty _
  | cons line lines ih =>
    rw [ofLines, List.map_cons]
    rcases hline : decode? line with _ | source
    · exact Outcome.empty_append _
    · by_cases hblank : source.all Text.isBlank = true
      · simpa [hblank] using ih
      · rw [Bool.not_eq_true] at hblank
        simp [hblank, ofExpressions_cons, Outcome.append_assoc, ← ih]

/-- The first line of an input, if it is a text with something to evaluate. -/
theorem ofInput_encode_append (S : Separators) {source : Text} (hnewline : 0x0A ∉ source.encode)
    (hreturn : source.encode.getLast? ≠ some 0x0D) (hblank : source.all Text.isBlank = false)
    (rest : List UInt8) :
    ofInput S (source.encode ++ 0x0A :: rest) = ofExpression S source ++ ofInput S rest := by
  rw [ofInput_eq_ofLines, inputLines_append_newline hnewline, if_neg hreturn, ofLines,
    decode?_encode, ← ofInput_eq_ofLines]
  simp only [hblank, Bool.false_eq_true, if_false]

end Outcome

end Abacus
