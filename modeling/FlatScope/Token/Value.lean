import FlatScope.Token
import FlatScope.Text.Digit

/-!
# The values of literal tokens

A string literal is read escape by escape: a letter for a control character, the number of a code
point in two, four or any number (in braces) of hexadecimal digits, or a code point that stands for
itself. Two escapes that spell the halves of a surrogate pair make one code point. A number without
a fraction is an integer, one with a fraction the nearest double.

A literal can match its terminal and still have no value; such a `Fault` is no matter of the
grammar.
-/

namespace FlatScope.Token

/-- Why a literal has no value. -/
inductive LiteralFault where
  /-- The escape, written as given, names no code point. -/
  | outOfRange (escape : Text)
  /-- The letter of an escape is not followed by the digits that it needs. -/
  | malformed (letter : CodePoint)
  /-- An integer is written with more digits than can be read. -/
  | tooLong (digits : Nat)
  deriving DecidableEq, Repr

namespace LiteralFault

/-- The wording of a fault. -/
def message : LiteralFault → Text
  | .outOfRange escape => "code point out of range in escape '" ++ escape ++ "'"
  | .malformed letter => "malformed '\\" ++ [letter] ++ "' escape in string literal"
  | .tooLong n => tooLongMessage n

end LiteralFault

/-! ## Strings -/

/-- The largest code point. -/
def lastCodePoint : CodePoint := 0x10FFFF

/-- The code point that an escape of one letter stands for: a control character, or itself. -/
def simpleEscape (c : CodePoint) : CodePoint :=
  if c = Text.code 'n' then 0xA
  else if c = Text.code 't' then 0x9
  else if c = Text.code 'r' then 0xD
  else if c = Text.code 'b' then 0x8
  else if c = Text.code 'f' then 0xC
  else if c = Text.code 'v' then 0xB
  else if c = Text.code '0' then 0x0
  else c

/-- The number that a text of hexadecimal digits denotes. -/
def ofHex? (t : Text) : Option Nat := (t.mapM Text.hexDigit?).map (Text.ofDigits 16)

/-- The number that the first `n` code points of a text denote in hexadecimal. -/
def hexPrefix? (n : Nat) (t : Text) : Option Nat :=
  if n ≤ t.length then ofHex? (t.take n) else none

/-- The hexadecimal digits of an escape in braces, of which the opening one is the first code point
    of `t`. -/
def bracedDigits? (t : Text) : Option Text :=
  match t with
  | [] => none
  | c :: r =>
    let digits := r.takeWhile fun c => (Text.hexDigit? c).isSome
    if c = 0x7B ∧ digits ≠ [] ∧ (r.drop digits.length).head? = some 0x7D then some digits else none

/-- What an escape stands for: the code point, and how many code points follow the letter `c`. -/
def escape (c : CodePoint) (rest : Text) : Except LiteralFault (CodePoint × Nat) :=
  if c = Text.code 'u' then
    match bracedDigits? rest with
    | some digits =>
      let n := Text.ofDigits 16 (digits.filterMap Text.hexDigit?)
      if n ≤ lastCodePoint then .ok (n, digits.length + 2)
      else .error (.outOfRange ([Text.code '\\', c] ++ rest.take (digits.length + 2)))
    | none =>
      match hexPrefix? 4 rest with
      | some n => .ok (n, 4)
      | none => .error (.malformed c)
  else if c = Text.code 'x' then
    match hexPrefix? 2 rest with
    | some n => .ok (n, 2)
    | none => .error (.malformed c)
  else .ok (simpleEscape c, 0)

/-- The text with its escapes replaced. At most `fuel` code points are made; the length of the text
    suffices. -/
def unescapeFrom : Nat → Text → Except LiteralFault Text
  | 0, _ => .ok []
  | _ + 1, [] => .ok []
  | _ + 1, [c] => .ok [c]
  | fuel + 1, c :: d :: r =>
    if c = Text.code '\\' then do
      let (code, n) ← escape d r
      return code :: (← unescapeFrom fuel (r.drop n))
    else do return c :: (← unescapeFrom fuel (d :: r))

/-- The text with its escapes replaced. -/
def unescape (t : Text) : Except LiteralFault Text := unescapeFrom t.length t

/-- The text that a string literal with the given quotes denotes. -/
def stringValue (literal : Text) : Except LiteralFault Text :=
  Text.joinSurrogates <$> unescape ((literal.drop 1).dropLast)

/-! ## Numbers -/

/-- The digits of a text, of any script; a code point that is none is left out. -/
def digitsOf (t : Text) : List Nat := t.filterMap Text.decimalDigit?

/-- The number that a number literal denotes. -/
def numberValue (literal : Text) : Except LiteralFault Number :=
  let whole := literal.takeWhile (· ≠ Text.code '.')
  match literal.drop whole.length with
  | [] =>
    if digitLimit < whole.length then .error (.tooLong whole.length)
    else .ok (.int (Text.ofDigits 10 (digitsOf whole)))
  | _ :: fraction =>
    .ok (.double (Text.scaled false (digitsOf whole ++ digitsOf fraction) (-fraction.length)))

end FlatScope.Token
