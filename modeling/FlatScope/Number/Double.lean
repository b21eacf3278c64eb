/-!
# Doubles

Double precision numbers, by their exact values. The smallest positive double is the *unit*,
2⁻¹⁰⁷⁴, and every finite double is a whole number of units with a sign; so comparison, remainder
and truncation are those of natural numbers, and every other operation computes its exact result
and rounds it once (`Double.ofRatio`): to 53 significant bits, or to whole units where that is
coarser, a half going to the even neighbour.

A NaN has a sign too, which shows only where a NaN is divided by zero, and an origin, which shows
only where signals that carry NaNs are compared: no NaN is equal to a NaN, but signals with the same
NaN are equal.
-/

namespace FlatScope

/-- Where a NaN comes from. Two NaNs of a running program are the same if their origins are. -/
inductive NanOrigin where
  /-- An operation that has just yielded it, which does not tell it from others yet. -/
  | operation
  /-- A division or a remainder by zero; there is only one such NaN. -/
  | byZero
  /-- A place in what a program is given. -/
  | given (place : Nat)
  /-- The operation with this number among those of a run that yielded a NaN. -/
  | result (index : Nat)
  deriving DecidableEq, Repr, Inhabited

/-- A double precision number. -/
inductive Double where
  | nan (negative : Bool) (origin : NanOrigin)
  | infinite (negative : Bool)
  /-- `units` times the smallest positive double. -/
  | finite (negative : Bool) (units : Nat)
  deriving DecidableEq, Repr, Inhabited

namespace Double

/-- The bits of the number of units in one. -/
def unitBits : Nat := 1074

/-- The number of units in one. -/
def one : Nat := 1 <<< unitBits

/-- The least power of two that is too large for a finite double, in units. -/
def bound : Nat := 1 <<< (unitBits + 1024)

/-! ## Rounding -/

/-- The integer nearest to `num / den`, the even one if two are equally near. -/
def nearestEven (num den : Nat) : Nat :=
  let q := num / den
  let r := num % den
  if 2 * r < den then q else if den < 2 * r then q + 1 else q + q % 2

/-- `num / den` rounded to 53 significant bits, or to an integer if it has fewer. -/
def roundUnits (num den : Nat) : Nat :=
  let dropped := (num / den).log2 - 52
  nearestEven num (den <<< dropped) <<< dropped

/-- The double nearest to `num / den` units. -/
def ofRatio (negative : Bool) (num den : Nat) : Double :=
  let units := roundUnits num den
  if units < bound then .finite negative units else .infinite negative

/-- The double nearest to `digits` · 10^`exponent`. -/
def ofDecimal (negative : Bool) (digits : Nat) (exponent : Int) : Double :=
  match exponent with
  | .ofNat e => ofRatio negative ((digits * Nat.pow 10 e) <<< unitBits) 1
  | .negSucc e => ofRatio negative (digits <<< unitBits) (Nat.pow 10 (e + 1))

/-- The double nearest to an integer, infinite if that is out of range. -/
def ofInt (n : Int) : Double := ofRatio (n < 0) (n.natAbs <<< unitBits) 1

/-! ## The order -/

/-- The sign of a number, set for negative ones, negative zero and negative NaNs. -/
def negative : Double → Bool
  | .nan s _ | .infinite s | .finite s _ => s

def isNaN : Double → Bool
  | .nan _ _ => true
  | _ => false

def isInfinite : Double → Bool
  | .infinite _ => true
  | _ => false

/-- A NaN with the given origin; any other number as it is. -/
def withOrigin (o : NanOrigin) : Double → Double
  | .nan s _ => .nan s o
  | d => d

/-- The two zeros. -/
def isZero : Double → Bool
  | .finite _ 0 => true
  | _ => false

/-- `units` with a sign, as an integer. -/
def signed (negative : Bool) (units : Nat) : Int := if negative then -units else units

/-- How a number compares with the integer `n` of units; nothing compares with a NaN. -/
def compareUnits? (n : Int) : Double → Option Ordering
  | .nan _ _ => none
  | .infinite s => some (if s then .lt else .gt)
  | .finite s u => some (compare (signed s u) n)

/-- How two numbers compare; nothing compares with a NaN. -/
def compare? : Double → Double → Option Ordering
  | .nan _ _, _ => none
  | a, .finite s u => a.compareUnits? (signed s u)
  | _, .nan _ _ => none
  | .infinite s, .infinite t =>
    some (if s = t then .eq else if s then .lt else .gt)
  | .finite _ _, .infinite t => some (if t then .gt else .lt)

/-- How a number compares with an integer. -/
def compareInt? (a : Double) (n : Int) : Option Ordering := a.compareUnits? (n * one)

/-- A number without a fraction. -/
def isWhole : Double → Bool
  | .finite _ u => u % one = 0
  | _ => false

/-- The integer part of a finite number. -/
def truncate? : Double → Option Int
  | .finite s u => some (signed s (u / one))
  | _ => none

/-! ## Arithmetic -/

/-- The NaN that an operation without a meaningful result gives. -/
def invalid : Double := .nan true .operation

/-- The NaN that an operation on a NaN gives. -/
def derived (negative : Bool) : Double := .nan negative .operation

def neg : Double → Double
  | .nan s _ => derived !s
  | .infinite s => .infinite !s
  | .finite s u => .finite (!s) u

/-- The sum of two numbers. Of two opposite numbers it is positive zero. -/
def add : Double → Double → Double
  | .nan s _, _ => derived s
  | _, .nan s _ => derived s
  | .infinite s, .infinite t => if s = t then .infinite s else invalid
  | .infinite s, .finite _ _ => .infinite s
  | .finite _ _, .infinite t => .infinite t
  | .finite s u, .finite t v =>
    let sum := signed s u + signed t v
    if sum = 0 then .finite (s && t) 0 else ofRatio (sum < 0) sum.natAbs 1

/-- The difference of two numbers. A NaN keeps its sign. -/
def sub (a b : Double) : Double :=
  match b with
  | .nan s o => a.add (.nan s o)
  | b => a.add b.neg

def mul : Double → Double → Double
  | .nan s _, _ => derived s
  | _, .nan s _ => derived s
  | .infinite s, b => if b.isZero then invalid else .infinite (s ^^ b.negative)
  | .finite s u, .infinite t => if u = 0 then invalid else .infinite (s ^^ t)
  | .finite s u, .finite t v => ofRatio (s ^^ t) (u * v) one

def div : Double → Double → Double
  | .nan s _, _ => derived s
  | _, .nan s _ => derived s
  | .infinite s, .infinite _ => let _ := s; invalid
  | .infinite s, .finite t _ => .infinite (s ^^ t)
  | .finite s _, .infinite t => .finite (s ^^ t) 0
  | .finite s u, .finite t v =>
    if v = 0 then if u = 0 then invalid else .infinite (s ^^ t)
    else ofRatio (s ^^ t) (u <<< unitBits) v

/-- The remainder of the division with a truncated quotient; it has the sign of the dividend. -/
def mod : Double → Double → Double
  | .nan s _, _ => derived s
  | _, .nan s _ => derived s
  | .infinite _, _ => invalid
  | .finite s u, .infinite _ => .finite s u
  | .finite s u, .finite _ v => if v = 0 then invalid else .finite s (u % v)

end Double

end FlatScope
