import FlatScope.LoopPlan
import FlatScope.Scope.Resolve

/-!
# Analyses

Everything that is found out about a function before it is lowered: what its names mean, which of
its blocks and loops are wrapped, and how its loops are run. A function that passes the analysis
declares all its names, once each, and assigns to none of its constants.
-/

namespace FlatScope

/-- What is known about a function. -/
structure Analysis where
  scoping : Scoping
  /-- The wrappers, in the order of the text. -/
  wrappers : List Wrapper
  /-- The plans of the loops, in the order of the text. -/
  loops : List LoopPlan
  deriving DecidableEq, Repr

/-- Analyses a function, given the names that mean something outside of it and whether wrappers of
    loops are made before the loops where possible. -/
def FunctionDef.analyse (fn : FunctionDef Mark) (globals : List Name) (hoisting : Bool) :
    Except Rejection Analysis := do
  let a ← fn.resolve globals
  a.checkConstants
  let wrappers := fn.wrappers a
  return ⟨a, wrappers, fn.loopPlans a wrappers hoisting⟩

namespace Analysis

/-- The wrapper of a block or loop. -/
def wrapper? (a : Analysis) (node : NodeId) : Option Wrapper := a.wrappers.find? (·.node = node)

/-- The plan of a loop. -/
def loopPlan? (a : Analysis) (loop : NodeId) : Option LoopPlan := a.loops.find? (·.loop = loop)

/-- The scopes whose bindings live inside of wrappers. -/
def wrappedScopes (a : Analysis) : List ScopeId := a.wrappers.flatMap (·.covered)

/-- The bindings that live inside of wrappers. -/
def wrappedBindings (a : Analysis) : List BindingId :=
  a.wrappers.flatMap fun w => w.locals ++ w.params

end Analysis

end FlatScope
