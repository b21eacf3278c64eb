import FlatScope.Eval.Error
import FlatScope.Syntax.Explicit

/-!
# Values as text and as truth values

A value is shown as a program prints it. Inside of a signal it is shown in a more explicit way:
texts in quotes, numbers as literals, functions with their code. An array that contains itself
cannot be shown.
-/

namespace FlatScope

namespace Value

/-- Whether a condition holds that has this value. -/
def truthy : Value → Bool
  | .undefined | .bool false => false
  | .number n => !n.isNaN && !n.isZero
  | .text t => t ≠ []
  | _ => true

/-! ## Text -/

/-- More nested arrays than any value of this store has that does not contain itself. -/
def depth (s : Store) : Nat := s.arrays.size + 1

/-- A number that is shown, or the error of showing it. -/
def numberText : Except Number.Fault Text → Except RunError Text
  | .ok t => .ok t
  | .error f => .error (.number f)

/-- A value inside of a signal; `arrayText` shows the array of a number. -/
def explicitText (s : Store) (arrayText : Nat → Except RunError Text) :
    Value → Except RunError Text
  | .undefined => .ok Explicit.missing
  | .bool b => .ok (Explicit.truth b)
  | .number (.int n) => numberText (Number.intText n)
  | .number (.double d) => .ok d.text
  | .text t => .ok t.quoted
  | .array id => arrayText id
  | .closure id => .ok (closureText (s.closures[id]?.getD default))
  | .builtin b => .ok b.name
  | .noSignal => .ok "<no signal>"
  | .signal .ret v => do return "<signal return " ++ (← explicitText s arrayText v) ++ ">"
  | .signal k _ => .ok ("<signal " ++ k.keyword ++ ">")
where
  /-- A closure by its code and its name. -/
  closureText (c : Closure) : Text :=
    Explicit.record "Closure"
      [ ("params", Explicit.names c.params), ("body", Explicit.block c.body),
        ("name", Explicit.text? c.name) ]

/-- An array inside of a signal and of the arrays `around`, with at most `fuel` more nested
    arrays. An array inside of itself is not shown again. -/
def explicitArray (s : Store) : Nat → List Nat → Nat → Except RunError Text
  | 0, _, _ => .ok "[...]"
  | fuel + 1, around, id =>
    if around.contains id then .ok "[...]"
    else do
      let inner := explicitArray s fuel (id :: around)
      let items ← (s.elements id).toList.mapM (explicitText s inner)
      return Explicit.items items

/-- A value as text, with less than `fuel` nested arrays. -/
def textFrom (s : Store) : Nat → Value → Except RunError Text
  | 0, _ => .error .cyclic
  | fuel + 1, v =>
    match v with
    | .undefined => .ok "undefined"
    | .bool b => .ok (if b then "true" else "false")
    | .number n => numberText n.text
    | .text t => .ok t
    | .array id => do
      let items ← (s.elements id).toList.mapM (textFrom s fuel)
      return "[" ++ Text.join "," items ++ "]"
    | .closure _ | .builtin _ => .ok "[function]"
    | .noSignal | .signal _ _ => explicitText s (explicitArray s (depth s) []) v

/-- A value as a program prints it. -/
def render (s : Store) (v : Value) : Except RunError Text := textFrom s (depth s) v

end Value

end FlatScope
