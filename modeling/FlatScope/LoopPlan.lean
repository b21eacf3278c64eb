import FlatScope.Wrapper

/-!
# Plans for loops

How the wrapper of a loop is used. A binding of the header that is captured is *fresh*: it is a
parameter of the wrapper, while the loop itself goes on with a variable of its own, the *driver*.
Where the body of a `for` that counts assigns to such a binding, the parameter is written back to
the driver whenever the wrapper is left, so that the clauses of the header see what was assigned.

The wrapper is made once before the loop, unless it uses a binding of a loop around this one that
is a new one in every iteration.
-/

namespace FlatScope

/-- What becomes of a loop. -/
structure LoopPlan where
  loop : NodeId
  /-- The bindings of the header. -/
  header : List BindingId
  /-- Those that are a new one in every iteration. -/
  fresh : List BindingId
  /-- Those that are written back. -/
  writeBack : List BindingId
  wrapper : Option Wrapper
  /-- Whether the wrapper is made once before the loop. -/
  hoist : Bool
  deriving DecidableEq, Repr

namespace LoopPlan

/-- The bindings of the header that stay the same throughout the loop. -/
def shared (p : LoopPlan) : List BindingId := p.header.filter (!p.fresh.contains ·)

end LoopPlan

namespace Scoping

/-- Whether a reference inside of the given nodes is to a binding from outside of them that is no
    parameter of the wrapper, and that is a new one in every iteration of its loop. -/
def readsPerIteration (a : Scoping) (w : Wrapper) (inside : List NodeId) (r : Reference) : Bool :=
  match r.binding.bind a.binding? with
  | none => false
  | some b =>
    inside.contains r.node && !w.params.contains b.id && !inside.contains b.scope &&
      a.isPerIteration b.id

/-- Whether a header is that of a `for` that counts. -/
def isCounting : Header Mark → Bool
  | .counting .. => true
  | _ => false

/-- The plan for a loop, given the wrappers of the function. -/
def planLoop (a : Scoping) (wrappers : List Wrapper) (hoisting : Bool) (loop : NodeId)
    (header : Header Mark) (body : Block Mark) : LoopPlan :=
  let bindings := ((a.loop? loop).bind (·.header)).map a.bindingIdsOf |>.getD []
  match wrappers.find? (·.node = loop) with
  | none => ⟨loop, bindings, [], [], none, false⟩
  | some w =>
    let inside := body.marks.map (·.id)
    let fresh := bindings.filter w.params.contains
    let writeBack :=
      if isCounting header then fresh.filter fun b => (a.writesOf b).any inside.contains else []
    ⟨loop, bindings, fresh, writeBack, some w,
      hoisting && !a.references.any (a.readsPerIteration w inside)⟩

end Scoping

/-- The plans for the loops of a function, in the order of the text. -/
def FunctionDef.loopPlans (fn : FunctionDef Mark) (a : Scoping) (wrappers : List Wrapper)
    (hoisting : Bool) : List LoopPlan :=
  fn.nodes.filterMap fun
    | .stmt (.loop m h b) => some (a.planLoop wrappers hoisting m.id h b)
    | _ => none

end FlatScope
