import FlatScope.Eval.Error
import FlatScope.Syntax.Same

/-!
# Equality of values

Two numbers are equal by value, two arrays or closures if they are the same one, and other values
if they are of one type and look the same. The values that two equal signals carry are compared
more loosely (`alike`): truth values count as numbers, a NaN is equal to itself, arrays are compared
by their elements, and closures by their code and frame.
-/

namespace FlatScope.Value

/-- A value that counts as a number inside of a signal. -/
def numeric? : Value → Option Number
  | .bool b => some (.int (if b then 1 else 0))
  | .number n => some n
  | _ => none

/-- Closures of the same code over the same frame. -/
def alikeClosures (c d : Closure) : Bool :=
  c.params = d.params && c.body.same d.body && c.frame = d.frame && c.name = d.name

/-- Whether two values inside of signals are equal; `arraysAlike` compares two arrays. -/
def alikeWith (s : Store) (arraysAlike : Nat → Nat → Except RunError Bool) :
    Value → Value → Except RunError Bool
  | .array a, .array b => if a = b then .ok true else arraysAlike a b
  | .closure a, .closure b =>
    .ok (a = b || alikeClosures (s.closures[a]?.getD default) (s.closures[b]?.getD default))
  | .signal k v, .signal l w => if k = l then alikeWith s arraysAlike v w else .ok false
  | v, w =>
    match v.numeric?, w.numeric? with
    | some m, some n => .ok (m.alike n)
    | _, _ => .ok (v = w)

/-- Whether all pairs of elements satisfy `p`, up to the first that does not. -/
def allPairs (p : Value → Value → Except RunError Bool) :
    List Value → List Value → Except RunError Bool
  | [], [] => .ok true
  | v :: vs, w :: ws => do if ← p v w then allPairs p vs ws else return false
  | _, _ => .ok false

/-- Whether two arrays have equal elements, compared to less than `fuel` nested arrays. -/
def arraysAlike (s : Store) : Nat → Nat → Nat → Except RunError Bool
  | 0, _, _ => .error .cyclic
  | fuel + 1, a, b =>
    let xs := s.elements a
    let ys := s.elements b
    if xs.size = ys.size then allPairs (alikeWith s (arraysAlike s fuel)) xs.toList ys.toList
    else .ok false

/-- Whether two values are equal. -/
def equal (s : Store) : Value → Value → Except RunError Bool
  | .number m, .number n => .ok (m.same n)
  | .signal k v, .signal l w =>
    if k = l then alikeWith s (arraysAlike s ((s.arrays.size + 1) * (s.arrays.size + 1))) v w
      else .ok false
  | v, w => .ok (v = w)

end FlatScope.Value
