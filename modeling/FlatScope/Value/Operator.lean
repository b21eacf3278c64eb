import FlatScope.Value.Equality
import FlatScope.Value.Text

/-!
# Operators

What the operators that evaluate all of their operands make of two values. Texts are joined with
anything and compared by their code points; everything else but equality is for numbers only.
-/

namespace FlatScope.Value

/-- The result of an operation on numbers. -/
def ofNumber : Except Number.Fault Number → Except RunError Value
  | .ok n => .ok (.number n)
  | .error f => .error (.number f)

/-- The order that a comparison accepts. -/
def accepts : BinaryOp → Ordering → Bool
  | .lt, o => o == .lt
  | .le, o => o != .gt
  | .gt, o => o == .gt
  | .ge, o => o != .lt
  | _, _ => false

/-- How two texts compare. -/
def compareTexts (a b : Text) : Ordering :=
  if a = b then .eq else if Text.le a b then .lt else .gt

/-- A binary operator on numbers. -/
def onNumbers (op : BinaryOp) (m n : Number) : Except RunError Value :=
  match op with
  | .add => ofNumber (m.add n)
  | .sub => ofNumber (m.sub n)
  | .mul => ofNumber (m.mul n)
  | .div => ofNumber (m.div n)
  | .mod => ofNumber (m.mod n)
  | .lt | .le | .gt | .ge =>
    .ok (.bool (match m.compare? n with
      | some o => accepts op o
      | none => false))
  | op => .error (.unknownBinary op)

/-- Operands that the operator does not apply to. -/
def refuse (s : Store) (op : BinaryOp) (v w : Value) : Except RunError Value := do
  throw (.operands op (← v.render s) (← w.render s))

/-- A binary operator on two values. -/
def binary (s : Store) (op : BinaryOp) (v w : Value) : Except RunError Value :=
  match op, v, w with
  | .eq, v, w => .bool <$> v.equal s w
  | .ne, v, w => (fun b => .bool !b) <$> v.equal s w
  | .add, .text a, w => do return .text (a ++ (← w.render s))
  | .add, v, .text b => do return .text ((← v.render s) ++ b)
  | op, .number m, .number n => onNumbers op m n
  | op, .text a, .text b =>
    match op with
    | .lt | .le | .gt | .ge => .ok (.bool (accepts op (compareTexts a b)))
    | op => refuse s op (.text a) (.text b)
  | op, v, w => refuse s op v w

/-- A unary operator on a value. -/
def unary (s : Store) (op : UnaryOp) (v : Value) : Except RunError Value :=
  match op with
  | .not => .ok (.bool !v.truthy)
  | .neg =>
    match v with
    | .number n => .ok (.number n.neg)
    | v => do throw (.notNegatable (← v.render s))
  | op => .error (.unknownUnary op)

/-- The position that a value means in an array or text. -/
def toIndex? : Value → Option Int
  | .number n => n.toIndex?
  | _ => none

/-- The element of an array or text at the position that a value means; nothing is there outside
    of it. -/
def element (s : Store) (base position : Value) : Except RunError Value :=
  match base with
  | .array id =>
    .ok (match position.toIndex? with
      | some (.ofNat i) => (s.elements id)[i]?.getD .undefined
      | _ => .undefined)
  | .text t =>
    .ok (match position.toIndex? with
      | some (.ofNat i) => ((t[i]?).map fun c => .text [c]).getD .undefined
      | _ => .undefined)
  | base => do throw (.notIndexable (← base.render s))

/-- The array and the position in it that an assignment to an element changes. -/
def elementTarget (base position : Value) : Except RunError (Nat × Nat) :=
  match base, position.toIndex? with
  | .array id, some (.ofNat i) => .ok (id, i)
  | _, _ => .error .elementTarget

end FlatScope.Value

namespace FlatScope.Store

/-- Assigns to an element of an array, which grows as needed. -/
def setElement (s : Store) (id i : Nat) (value : Value) : Store :=
  s.modifyElements id fun xs =>
    (xs ++ Array.replicate (i + 1 - xs.size) Value.undefined).setIfInBounds i value

end FlatScope.Store
