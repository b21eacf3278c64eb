/-!
# Text

Text is a sequence of code points. It is not a `String`: a string literal of the language may
spell out one half of a surrogate pair, and such a half stands in memory, in printed output and
in messages like any other code point. Lengths, positions, comparison and columns all count code
points.

String literals of Lean coerce to `Text`, so fixed wording is written as a string.
-/

namespace FlatScope

/-- A code point: the number of a character, or of one half of a surrogate pair. -/
abbrev CodePoint := Nat

/-- A sequence of code points. -/
abbrev Text := List CodePoint

namespace Text

/-- The code points of a string. -/
def ofString (s : String) : Text := s.toList.map Char.toNat

instance : Coe String Text := ⟨ofString⟩

/-- The decimal digits of a natural number. -/
def ofNat (n : Nat) : Text := (Nat.toDigits 10 n).map Char.toNat

/-- The decimal digits of an integer, after a minus sign if it is negative. -/
def ofInt : Int → Text
  | .ofNat n => ofNat n
  | .negSucc n => "-" ++ ofNat (n + 1)

/-- The texts one after the other, with `sep` between any two. -/
def join (sep : Text) : List Text → Text
  | [] => []
  | [t] => t
  | t :: ts => t ++ sep ++ join sep ts

/-- `t` written `n` times. -/
def times (n : Nat) (t : Text) : Text := (List.replicate n t).flatten

/-- Whether `a` comes before `b`, or is `b`, when texts are sorted by their code points. -/
def le : Text → Text → Bool
  | [], _ => true
  | _ :: _, [] => false
  | a :: as, b :: bs => if a = b then le as bs else a < b

/-- The texts in ascending order of their code points. -/
def sort (ts : List Text) : List Text := ts.mergeSort le

/-! ## Classes of code points -/

/-- The code point of a character. -/
abbrev code (c : Char) : CodePoint := c.toNat

/-- An ASCII letter or an underscore. -/
def isNameStart (c : CodePoint) : Bool :=
  (code 'a' ≤ c && c ≤ code 'z') || (code 'A' ≤ c && c ≤ code 'Z') || c == code '_'

/-- An ASCII letter, an ASCII digit or an underscore. -/
def isNamePart (c : CodePoint) : Bool := isNameStart c || (code '0' ≤ c && c ≤ code '9')

/-- The value of a hexadecimal digit. -/
def hexDigit? (c : CodePoint) : Option Nat :=
  if code '0' ≤ c && c ≤ code '9' then some (c - code '0')
  else if code 'a' ≤ c && c ≤ code 'f' then some (c - code 'a' + 10)
  else if code 'A' ≤ c && c ≤ code 'F' then some (c - code 'A' + 10)
  else none

/-- The number that a sequence of digits denotes in the given base. -/
def ofDigits (base : Nat) (digits : List Nat) : Nat :=
  digits.foldl (fun n d => n * base + d) 0

/-- `n` in lower-case hexadecimal, with zeros in front up to `width` digits. -/
def hex (width n : Nat) : Text :=
  let digits := (Nat.toDigits 16 n).map Char.toNat
  List.replicate (width - digits.length) (code '0') ++ digits

/-- One half of a surrogate pair. -/
def isSurrogate (c : CodePoint) : Bool := 0xD800 ≤ c && c ≤ 0xDFFF

/-- The first half of a surrogate pair. -/
def isHighSurrogate (c : CodePoint) : Bool := 0xD800 ≤ c && c ≤ 0xDBFF

/-- The second half of a surrogate pair. -/
def isLowSurrogate (c : CodePoint) : Bool := 0xDC00 ≤ c && c ≤ 0xDFFF

/-- The code point that a surrogate pair stands for. -/
def ofSurrogates (high low : CodePoint) : CodePoint :=
  0x10000 + (high - 0xD800) * 0x400 + (low - 0xDC00)

/-- The text with every surrogate pair replaced by the code point it stands for. -/
def joinSurrogates : Text → Text
  | [] => []
  | [c] => [c]
  | c :: d :: r =>
    if isHighSurrogate c && isLowSurrogate d then ofSurrogates c d :: joinSurrogates r
    else c :: joinSurrogates (d :: r)

end Text

end FlatScope
