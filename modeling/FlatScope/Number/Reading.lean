import FlatScope.Number.Double
import FlatScope.Text.Blank
import FlatScope.Text.Digit

/-!
# Reading numbers

A number in a text may stand between blanks, has an optional sign, and is written in the decimal
digits of any script, where single underscores may separate digits. Integers have digits only,
at most `digitLimit` of them; doubles may have a fraction and an exponent, or be spelled
`inf`, `infinity` or `nan` in any case.
-/

namespace FlatScope

/-- The most digits that an integer may be read or written with. -/
def digitLimit : Nat := 4300

/-- The wording for an integer with too many digits; `found` tells how many there are, if that is
    known. -/
def digitLimitMessage (found : Text) : Text :=
  "Exceeds the limit (" ++ Text.ofNat digitLimit ++ " digits) for integer string conversion" ++
    found ++ "; use sys.set_int_max_str_digits() to increase the limit"

/-- The wording for a text that spells an integer with too many digits. -/
def tooLongMessage (digits : Nat) : Text :=
  digitLimitMessage (": value has " ++ Text.ofNat digits ++ " digits")

namespace Text

/-- A blank that may surround a number. -/
def isNumberBlank (c : CodePoint) : Bool := isBlank c && !(0x1C ≤ c && c ≤ 0x1F)

/-- The digits at the start of a text, single underscores between them left out, and the rest.
    An underscore that is not followed by a digit belongs to the rest. -/
def digitRun : Text → List Nat × Text
  | [] => ([], [])
  | [c] =>
    match decimalDigit? c with
    | some d => ([d], [])
    | none => ([], [c])
  | c :: c' :: r =>
    match decimalDigit? c with
    | none => ([], c :: c' :: r)
    | some d =>
      if c' = code '_' then
        match digitRun r with
        | ([], _) => ([d], c' :: r)
        | (ds, rest) => (d :: ds, rest)
      else
        let (ds, rest) := digitRun (c' :: r)
        (d :: ds, rest)

/-- The sign at the start of a text, and the rest. -/
def signAndRest : Text → Bool × Text
  | [] => (false, [])
  | c :: r =>
    if c = code '-' then (true, r)
    else if c = code '+' then (false, r)
    else (false, c :: r)

/-- What a text holds where an integer is expected. -/
inductive ReadInt where
  | value (n : Int)
  /-- More digits than the limit allows. -/
  | tooLong (digits : Nat)
  | malformed

/-- Reads a text as an integer. -/
def readInt (t : Text) : ReadInt :=
  let (negative, body) := signAndRest (t.dropWhile isNumberBlank)
  match digitRun body with
  | ([], _) => .malformed
  | (ds, rest) =>
    if rest.head? = some (code '_') then .malformed
    else if digitLimit < ds.length then .tooLong ds.length
    else if rest.all isNumberBlank then
      .value (if negative then -(ofDigits 10 ds : Int) else ofDigits 10 ds)
    else .malformed

/-- An ASCII letter in lower case; any other code point as it is. -/
def toLower (c : CodePoint) : CodePoint :=
  if code 'A' ≤ c && c ≤ code 'Z' then c + 32 else c

/-- The exponent at the start of a text, none if it has no digits, and the rest. -/
def exponentAndRest (t : Text) : Option Int × Text :=
  match t with
  | [] => (some 0, [])
  | c :: r =>
    if toLower c = code 'e' then
      let (negative, body) := signAndRest r
      match digitRun body with
      | ([], _) => (none, t)
      | (ds, rest) => (some (if negative then -(ofDigits 10 ds : Int) else ofDigits 10 ds), rest)
    else (some 0, t)

/-- `digits` · 10^`exponent` as a double. Exponents so large or small that the result is infinite
    or zero are cut short. -/
def scaled (negative : Bool) (digits : List Nat) (exponent : Int) : Double :=
  let n := ofDigits 10 digits
  if n = 0 then .finite negative 0
  else if 400 < exponent then .infinite negative
  else if exponent + digits.length < -400 then .finite negative 0
  else .ofDecimal negative n exponent

/-- The unsigned number without blanks that a text spells. -/
def readMagnitude? (negative : Bool) (t : Text) : Option Double :=
  let lower := t.map toLower
  if lower = "inf" ∨ lower = "infinity" then some (.infinite negative)
  else if lower = "nan" then some (.nan negative .operation)
  else
    let (whole, rest) := digitRun t
    let (fraction, rest) := match rest with
      | [] => ([], [])
      | c :: r =>
        if c = code '.' then digitRun r else ([], c :: r)
    if whole.isEmpty && fraction.isEmpty then none
    else match exponentAndRest rest with
      | (some e, []) => some (scaled negative (whole ++ fraction) (e - fraction.length))
      | _ => none

/-- Reads a text as a double. -/
def readDouble? (t : Text) : Option Double :=
  let body := ((t.dropWhile isNumberBlank).reverse.dropWhile isNumberBlank).reverse
  let (negative, body) := signAndRest body
  readMagnitude? negative body

end Text

end FlatScope
