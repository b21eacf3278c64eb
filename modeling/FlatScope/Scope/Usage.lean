import FlatScope.Rejection
import FlatScope.Scope

/-!
# How bindings are used

What follows from the references of a function: which bindings are assigned to, and which are
*captured*, that is, used in a function nested inside of the scope that declares them. A binding in
the header of a loop that is captured has to be a new one in every iteration.

An assignment to a `const` is rejected, the first one in the order of the references.
-/

namespace FlatScope

/-- The kinds of bindings that the lowering tells apart. -/
inductive BindingKind where
  | functionScoped
  | blockMutable
  | blockConst
  | loopScoped
  deriving DecidableEq, Repr

/-- The kind of a binding. -/
def Binding.kind (b : Binding) : BindingKind :=
  if b.origin.isFunctionScoped then .functionScoped
  else match b.origin with
    | .header _ => .loopScoped
    | o => if o.isConst then .blockConst else .blockMutable

namespace Scoping

/-- The references to a binding. -/
def referencesTo (a : Scoping) (b : BindingId) : List Reference :=
  a.references.filter (·.binding = some b)

/-- The nodes that assign to a binding, in the order of the references. -/
def writesOf (a : Scoping) (b : BindingId) : List NodeId :=
  ((a.referencesTo b).filter (·.isWrite)).map (·.node)

/-- The functions between the scope `inner` and the scope `owner` around it. -/
def functionsBetween (a : Scoping) (inner owner : ScopeId) : List ScopeId :=
  (((a.chain inner).takeWhile (·.id ≠ owner)).filter (·.kind = .function)).map (·.id)

/-- The functions nested inside of the scope of a binding that use it, each once. -/
def capturersOf (a : Scoping) (b : BindingId) : List ScopeId :=
  match a.binding? b with
  | none => []
  | some binding =>
    ((a.referencesTo b).flatMap fun r => a.functionsBetween r.scope binding.scope).eraseDups

/-- Whether a function nested inside of its scope uses a binding. -/
def isCaptured (a : Scoping) (b : BindingId) : Bool := !(a.capturersOf b).isEmpty

/-- Whether a binding has to be a new one in every iteration of its loop. -/
def isPerIteration (a : Scoping) (b : BindingId) : Bool :=
  match a.binding? b with
  | none => false
  | some binding => binding.kind = .loopScoped && a.isCaptured b

/-- The bindings that nothing may be assigned to. -/
def constants (a : Scoping) : List BindingId :=
  (a.bindings.filter (·.origin.isConst)).map (·.id)

/-- The constant that a reference assigns to. -/
def violated? (a : Scoping) (r : Reference) : Option Binding :=
  if r.isWrite then (r.binding.bind a.binding?).filter (·.origin.isConst) else none

/-- Rejects the first assignment to a constant. -/
def checkConstants (a : Scoping) : Except Rejection Unit :=
  a.references.forM fun r =>
    match a.violated? r with
    | none => .ok ()
    | some b => .error ⟨.immutable b.name b.span, r.span⟩

end Scoping

end FlatScope
