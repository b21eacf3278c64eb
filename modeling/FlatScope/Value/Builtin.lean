import FlatScope.Value.Text

/-!
# The functions that every program can call

`print` shows its arguments on a line, `push` adds an element to an array, `len` counts elements or
code points, `range` makes an array of consecutive integers, and `str` shows a value as a text.
-/

namespace FlatScope

namespace Value

/-- A value as an integer: a double loses its fraction, a truth value is 0 or 1, and a text is read
    in decimal. -/
def toInteger : Value → Except RunError Int
  | .number n =>
    match n.truncate with
    | .ok n => .ok n
    | .error f => .error (.number f)
  | .bool b => .ok (if b then 1 else 0)
  | .text t =>
    match Text.readInt t with
    | .value n => .ok n
    | .tooLong n => .error (.integerTooLong n)
    | .malformed => .error (.integerText t)
  | .undefined => .error (.noInteger .undefined)
  | .array _ => .error (.noInteger .array)
  | .closure _ => .error (.noInteger .closure)
  | .builtin _ => .error (.noInteger .builtin)
  | .noSignal => .error (.noInteger .noSignal)
  | .signal _ _ => .error (.noInteger .signal)

/-- The integers from `lo` up to but not including `hi`. -/
def integers (lo hi : Int) : Array Value :=
  Array.ofFn fun i : Fin (hi - lo).toNat => .number (.int (lo + i))

/-- The number of a count. -/
def count (n : Nat) : Value := .number (.int n)

end Value

namespace Builtin

open Value

/-- Makes an array of integers. -/
def makeRange (s : Store) (lo hi : Except RunError Int) : Except RunError Value × Store :=
  match lo, hi with
  | .ok lo, .ok hi =>
    let (v, s) := s.newArray (integers lo hi)
    (.ok v, s)
  | .error e, _ | .ok _, .error e => (.error e, s)

/-- The error that shows a value. -/
def refuse (s : Store) (e : Text → RunError) (v : Value) : Except RunError Value :=
  match v.render s with
  | .ok t => .error (e t)
  | .error e => .error e

/-- What a call yields, whose number of arguments the function takes, and the store after it. -/
def apply (s : Store) : Builtin → List Value → Except RunError Value × Store
  | .print, args =>
    match args.mapM (render s) with
    | .ok texts => (.ok .undefined, s.emit (Text.join " " texts))
    | .error e => (.error e, s)
  | .push, [.array id, v] =>
    let size := (s.elements id).size
    (.ok (count (size + 1)), s.modifyElements id (·.push v))
  | .push, v :: _ => (refuse s .pushTarget v, s)
  | .len, .array id :: _ => (.ok (count (s.elements id).size), s)
  | .len, .text t :: _ => (.ok (count t.length), s)
  | .len, v :: _ => (refuse s .lenArgument v, s)
  | .range, [v] => makeRange s (.ok 0) v.toInteger
  | .range, v :: w :: _ => makeRange s v.toInteger w.toInteger
  | .str, v :: _ => (.text <$> v.render s, s)
  | _, [] => (.ok .undefined, s)

/-- A call with any number of arguments. -/
def call (s : Store) (b : Builtin) (args : List Value) : Except RunError Value × Store :=
  if b.takes args.length then b.apply s args else (.error (.argumentCount b args.length), s)

end Builtin

end FlatScope
