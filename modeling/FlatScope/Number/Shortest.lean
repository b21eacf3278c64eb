import FlatScope.Number.Double
import FlatScope.Text

/-!
# The shortest decimal

A finite double is written with as few significant digits as read back to it, and with the nearest
such digits. For each number of digits from 1 to 17 only the two neighbours of the value on the
grid of decimals with that many digits can be the nearest that reads back, so these are tried, the
nearer first (the even one if they are equally near).
-/

namespace FlatScope.Double

/-- The exponent of the first significant decimal digit of a positive number of units: the `e`
    with 10^e ≤ value < 10^(e+1). -/
def leadingExponent (units : Nat) : Int :=
  (Nat.toDigits 10 ((units * Nat.pow 10 324) >>> unitBits)).length - 325

/-- The neighbours of a value on the grid of multiples of 10^`grid`, as multiples of it, the
    nearer one first. -/
def neighbours (units : Nat) (grid : Int) : Nat × Nat :=
  let (num, den) := match grid with
    | .ofNat g => (units, one * Nat.pow 10 g)
    | .negSucc g => (units * Nat.pow 10 (g + 1), one)
  let below := num / den
  if nearestEven num den = below then (below, below + 1) else (below + 1, below)

/-- The shortest decimal of a positive number of units, searched from `n` significant digits on:
    its digits as one number, and the exponent of the last one. The `fuel` is how many digits more
    may be needed. -/
def shortestFrom (units : Nat) (lead : Int) : Nat → Nat → Nat × Int
  | 0, n => ((neighbours units (lead - n + 1)).1, lead - n + 1)
  | fuel + 1, n =>
    let grid := lead - n + 1
    let (near, far) := neighbours units grid
    if ofDecimal false near grid = .finite false units then (near, grid)
    else if ofDecimal false far grid = .finite false units then (far, grid)
    else shortestFrom units lead fuel (n + 1)

/-- The shortest decimal of a positive number of units. -/
def shortest (units : Nat) : Nat × Int :=
  shortestFrom units (leadingExponent units) 16 1

/-- The digits of a decimal without the zeros at its end, and the exponent of the first one. -/
def significant (decimal : Nat × Int) : Text × Int :=
  let digits := Text.ofNat decimal.1
  let kept := (digits.reverse.dropWhile (· == Text.code '0')).reverse
  (kept, decimal.2 + digits.length - 1)

/-- An exponent with its sign and at least two digits. -/
def exponentText (e : Int) : Text :=
  let digits := Text.ofNat e.natAbs
  let sign : Text := if e < 0 then "-" else "+"
  sign ++ (if digits.length < 2 then "0" ++ digits else digits)

/-- Digits whose first one has the exponent `e`: positional from 10⁻⁴ up to 10¹⁶ and always with a
    fraction, in scientific notation elsewhere. -/
def layout (digits : Text) (e : Int) : Text :=
  if -4 ≤ e ∧ e < 16 then
    match e with
    | .ofNat e =>
      if digits.length ≤ e + 1 then
        digits ++ List.replicate (e + 1 - digits.length) (Text.code '0') ++ ".0"
      else digits.take (e + 1) ++ "." ++ digits.drop (e + 1)
    | .negSucc e => "0." ++ List.replicate e (Text.code '0') ++ digits
  else
    let (first, rest) := digits.splitAt 1
    let fraction : Text := if rest.isEmpty then "" else "." ++ rest
    first ++ fraction ++ "e" ++ exponentText e

/-- A double as text. -/
def text : Double → Text
  | .nan _ _ => "nan"
  | .infinite s => sign s ++ "inf"
  | .finite s 0 => sign s ++ "0.0"
  | .finite s u =>
    let (digits, e) := significant (shortest u)
    sign s ++ layout digits e
where
  /-- The mark of a negative number. -/
  sign (negative : Bool) : Text := if negative then "-" else ""

end FlatScope.Double
