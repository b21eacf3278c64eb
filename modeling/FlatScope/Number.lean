import FlatScope.Number.Reading
import FlatScope.Number.Shortest

/-!
# Numbers

A number of the language is an integer of any size or a double. The two are told apart by how they
came about, not by their value: `1` and `1.0` are equal and print alike. They are compared by their
exact values. An operation on two integers is exact except for division, whose exact quotient is
rounded once to a double; an operation with a double first turns an integer into a double, which
fails if it is out of range. A quotient without a fraction is an integer again.
-/

namespace FlatScope

/-- A number: an integer or a double. -/
inductive Number where
  | int (n : Int)
  | double (d : Double)
  deriving DecidableEq, Repr, Inhabited

namespace Number

/-- Why an operation on numbers has no result. -/
inductive Fault where
  /-- An integer is too large for a double. -/
  | intTooLarge
  /-- The quotient of two integers is too large for a double. -/
  | quotientTooLarge
  /-- The remainder of an infinite dividend. -/
  | infiniteDividend
  /-- An integer has too many digits to be written. -/
  | tooManyDigits
  /-- An integer was expected and a NaN found. -/
  | notAnInteger
  /-- An integer was expected and an infinite number found. -/
  | infiniteInteger
  deriving DecidableEq, Repr

/-- The wording of a fault. -/
def Fault.message : Fault → Text
  | .intTooLarge => "int too large to convert to float"
  | .quotientTooLarge => "integer division result too large for a float"
  | .infiniteDividend => "math domain error"
  | .tooManyDigits => digitLimitMessage []
  | .notAnInteger => "cannot convert float NaN to integer"
  | .infiniteInteger => "cannot convert float infinity to integer"

/-! ## Comparison -/

/-- How the exact values of two numbers compare; nothing compares with a NaN. -/
def compare? : Number → Number → Option Ordering
  | .int a, .int b => some (compare a b)
  | .double a, .double b => a.compare? b
  | .double a, .int b => a.compareInt? b
  | .int a, .double b => (b.compareInt? a).map Ordering.swap

/-- Equality by value. -/
def same (a b : Number) : Bool := a.compare? b == some .eq

/-- Equality by value or, for NaNs, by origin. -/
def alike (a b : Number) : Bool := a.same b || a = b

/-- A number equal to zero. -/
def isZero (a : Number) : Bool := a.same (.int 0)

def isNaN : Number → Bool
  | .int _ => false
  | .double d => d.isNaN

/-! ## Conversion -/

/-- A number as a double. -/
def toDouble : Number → Except Fault Double
  | .double d => .ok d
  | .int n =>
    let d := Double.ofInt n
    if d.isInfinite then .error .intTooLarge else .ok d

/-- The integer equal to a number. -/
def toIndex? : Number → Option Int
  | .int n => some n
  | .double d => if d.isWhole then d.truncate? else none

/-- The integer part of a number. -/
def truncate : Number → Except Fault Int
  | .int n => .ok n
  | .double d =>
    match d with
    | .nan _ _ => .error .notAnInteger
    | .infinite _ => .error .infiniteInteger
    | .finite s u => .ok (Double.signed s (u / Double.one))

/-- A double without a fraction as an integer, any other as it is. -/
def ofQuotient (d : Double) : Number :=
  match (Number.double d).toIndex? with
  | some n => .int n
  | none => .double d

/-! ## Arithmetic -/

/-- An operation that is exact on integers and rounds once on doubles. -/
def arithmetic (onInts : Int → Int → Int) (onDoubles : Double → Double → Double) :
    Number → Number → Except Fault Number
  | .int a, .int b => .ok (.int (onInts a b))
  | a, b => do return .double (onDoubles (← a.toDouble) (← b.toDouble))

def add : Number → Number → Except Fault Number := arithmetic (· + ·) Double.add

def sub : Number → Number → Except Fault Number := arithmetic (· - ·) Double.sub

def mul : Number → Number → Except Fault Number := arithmetic (· * ·) Double.mul

def neg : Number → Number
  | .int n => .int (-n)
  | .double d => .double d.neg

/-- The rounded quotient of two integers, the second not zero. -/
def quotient (a b : Int) : Except Fault Double :=
  let d := Double.ofRatio ((a < 0) != (b < 0)) (a.natAbs <<< Double.unitBits) b.natAbs
  if d.isInfinite then .error .quotientTooLarge else .ok d

/-- The quotient. Zero by zero is no number; anything else by zero is infinite and has the sign of
    the dividend, whatever the sign of the zero. -/
def div (a b : Number) : Except Fault Number :=
  if b.isZero then
    if a.isZero then .ok (.double (.nan false .byZero))
    else do return .double (.infinite (← a.toDouble).negative)
  else
    match a, b with
    | .int a, .int b => ofQuotient <$> quotient a b
    | a, b => do return ofQuotient ((← a.toDouble).div (← b.toDouble))

/-- The remainder, computed on doubles; it is an integer if both operands are. The remainder by
    zero is no number. -/
def mod (a b : Number) : Except Fault Number :=
  if b.isZero then .ok (.double (.nan false .byZero))
  else do
    let x ← a.toDouble
    let y ← b.toDouble
    if x.isInfinite && !y.isNaN then throw .infiniteDividend
    let r := x.mod y
    match a, b with
    | .int _, .int _ => return .int (r.truncate?.getD 0)
    | _, _ => return .double r

/-! ## Text -/

/-- An integer in decimal digits. -/
def intText (n : Int) : Except Fault Text :=
  if Nat.pow 10 digitLimit ≤ n.natAbs then .error .tooManyDigits else .ok (Text.ofInt n)

/-- A number as a literal shows it: a double always has a fraction or an exponent. -/
def literalText : Number → Text
  | .int n => Text.ofInt n
  | .double d => d.text

/-- A number as a program prints it: a double without a fraction looks like an integer. -/
def text : Number → Except Fault Text
  | .int n => intText n
  | .double d =>
    match d with
    | .nan _ _ => .ok "NaN"
    | .infinite s => .ok (if s then "-Infinity" else "Infinity")
    | .finite s u =>
      if d.isWhole then intText (Double.signed s (u / Double.one)) else .ok d.text

end Number

end FlatScope
