import FlatScope.Text

/-!
# Texts as strings

A text is a string of characters unless it holds halves of surrogate pairs, which have no encoding.
A text with such halves is refused, and the first run of them is told. Where some halves are allowed
because they stand for something else, the run begins at the first one that is not.
-/

namespace FlatScope.Text

/-- A run of code points without an encoding. -/
structure Unencodable where
  /-- The first code point of the run. -/
  code : CodePoint
  /-- How many code points stand before the run. -/
  start : Nat
  /-- How many code points there are up to the end of the run. -/
  stop : Nat
  deriving DecidableEq, Repr

/-- The first run of code points without an encoding, where some of them are allowed. -/
def unencodableExcept? (allowed : CodePoint → Bool) (t : Text) : Option Unencodable :=
  let start := (t.takeWhile fun c => !isSurrogate c || allowed c).length
  match t.drop start with
  | [] => none
  | c :: r => some ⟨c, start, start + ((c :: r).takeWhile isSurrogate).length⟩

/-- The first run of code points without an encoding. -/
def unencodable? (t : Text) : Option Unencodable := unencodableExcept? (fun _ => false) t

/-- The wording for a run of code points without an encoding. -/
def Unencodable.message (u : Unencodable) : Text :=
  let place : Text :=
    if u.stop = u.start + 1 then
      "character '\\u" ++ hex 4 u.code ++ "' in position " ++ ofNat u.start
    else "characters in position " ++ ofNat u.start ++ "-" ++ ofNat (u.stop - 1)
  "'utf-8' codec can't encode " ++ place ++ ": surrogates not allowed"

/-- The string of a text. -/
def encode (t : Text) : Except Unencodable String :=
  match t.unencodable? with
  | some u => .error u
  | none => .ok (String.ofList (t.map Char.ofNat))

end FlatScope.Text
