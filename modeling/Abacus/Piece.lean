import Abacus.Separators
import Abacus.Token

/-! # The pieces of a source

`pieces` cuts a source into blanks, symbols, runs of digits and separators, and strays that belong
to none of these. Nothing is lost: the texts of the pieces, one after the other, are the source
(`flatMap_text_pieces`). -/

namespace Abacus

/-- A stretch of a source. -/
inductive Piece where
  | blank (c : Char)
  | symbol (s : Symbol)
  | run (text : Text)
  | stray (c : Char)
deriving DecidableEq, Inhabited

namespace Piece

def text : Piece → Text
  | blank c => [c]
  | symbol s => [s.char]
  | run t => t
  | stray c => [c]

end Piece

/-- Cuts a source from left to right. A blank where a piece may begin is a piece of its own, and so
is a symbol, even if the character is also a separator. A digit or any other separator begins a
run, which takes in all digits, separators and blank separators that follow. -/
def pieces (S : Separators) : Text → List Piece
  | [] => []
  | c :: rest =>
    if Text.isBlank c then .blank c :: pieces S rest
    else match Symbol.ofChar? c with
      | some s => .symbol s :: pieces S rest
      | none =>
        if S.acceptsInRun c then
          .run (c :: rest.takeWhile S.acceptsInRun) :: pieces S (rest.dropWhile S.acceptsInRun)
        else .stray c :: pieces S rest
termination_by t => t.length
decreasing_by
  all_goals simp_wf
  have := (List.dropWhile_sublist (l := rest) S.acceptsInRun).length_le
  omega

theorem flatMap_text_pieces (S : Separators) (t : Text) : (pieces S t).flatMap Piece.text = t := by
  fun_induction pieces S t with
  | case1 => rfl
  | case2 c rest _ ih => simp [Piece.text, ih]
  | case3 c rest _ s hs ih =>
    simp [Piece.text, ih, Symbol.ofChar?_eq_some_iff.1 hs]
  | case4 c rest _ _ _ ih => simp [Piece.text, ih]
  | case5 c rest _ _ _ ih => simp [Piece.text, ih]

end Abacus
