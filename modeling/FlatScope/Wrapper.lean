import FlatScope.Scope.Usage
import FlatScope.Syntax.Declared
import FlatScope.Syntax.Exits
import FlatScope.Syntax.Nodes

/-!
# Wrappers

A block-scoped binding that is captured needs a variable of its own every time its block is
entered. So the block becomes the body of a function, the *wrapper*, that is called on the spot. A
scope is wrapped exactly if one of its own bindings is captured. A loop is wrapped as a whole, by
one wrapper for the scopes of its header and of its body, if one of these is; then the bindings of
its header that are captured are the parameters of the wrapper.

The `var`s declared inside of a wrapper still belong to the function around it.
-/

namespace FlatScope

/-- A wrapper to be made. -/
structure Wrapper where
  /-- The block that is wrapped, or the loop whose body is. -/
  node : NodeId
  scope : ScopeId
  /-- The bindings declared in the wrapped block. -/
  locals : List BindingId
  params : List BindingId
  /-- The early exits that leave the wrapped block. -/
  exits : List Exit
  /-- The scopes whose bindings live inside of the wrapper. -/
  covered : List ScopeId
  /-- The `var`s declared in the wrapped block. -/
  hoisted : List BindingId
  isLoop : Bool
  deriving DecidableEq, Repr

namespace Scoping

/-- Whether one of the bindings of a scope is captured. -/
def needsWrapper (a : Scoping) (id : ScopeId) : Bool := (a.bindingIdsOf id).any a.isCaptured

/-- The bindings of the `var`s declared in a block, each once. -/
def hoistedIn (a : Scoping) (b : Block Mark) : List BindingId :=
  (b.vars.filterMap fun (_, m) => a.declarations.lookup m.id).eraseDups

/-- The wrapper of a block. The body of a loop is left to the wrapper of the loop. -/
def blockWrapper? (a : Scoping) (b : Block Mark) : Option Wrapper :=
  match a.blockScopes.lookup b.mark.id with
  | none => none
  | some scope =>
    if a.loops.any (·.body = some scope) || !a.needsWrapper scope then none
    else some
      { node := b.mark.id
        scope := scope
        locals := a.bindingIdsOf scope
        params := []
        exits := b.exits
        covered := [scope]
        hoisted := a.hoistedIn b
        isLoop := false }

/-- The wrapper of a loop with the given body. -/
def loopWrapper? (a : Scoping) (loop : NodeId) (body : Block Mark) : Option Wrapper :=
  match a.loop? loop with
  | none => none
  | some scopes =>
    if !(scopes.header.any a.needsWrapper || scopes.body.any a.needsWrapper) then none
    else
      let params := ((scopes.header.map a.bindingIdsOf).getD []).filter a.isPerIteration
      some
        { node := loop
          scope := (scopes.header.or scopes.body).getD loop
          locals := (scopes.body.map a.bindingIdsOf).getD []
          params := params
          exits := body.exits
          covered := (if params.isEmpty then [] else scopes.header.toList) ++ scopes.body.toList
          hoisted := a.hoistedIn body
          isLoop := true }

/-- The wrapper of a node. -/
def wrapper? (a : Scoping) : Node Mark → Option Wrapper
  | .block b => a.blockWrapper? b
  | .stmt (.loop m _ b) => a.loopWrapper? m.id b
  | _ => none

end Scoping

/-- The wrappers of a function, in the order of the text. -/
def FunctionDef.wrappers (fn : FunctionDef Mark) (a : Scoping) : List Wrapper :=
  fn.nodes.filterMap a.wrapper?

end FlatScope
