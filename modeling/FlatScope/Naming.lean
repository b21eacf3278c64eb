import FlatScope.Analysis
import FlatScope.NameSupply

/-!
# Names of the lowered bindings

In a lowered function all variables of a function or wrapper live in one scope, so a binding may
need another name than the one it was declared with.

* A binding of a function, or one that lives inside of a wrapper, keeps its name.
* Any other binding moves into the function or wrapper around it. It keeps its name only if no
  other binding of the function and no name from outside of the function is called like it.
* A binding declared in the body of a loop may be called like one of the header. Both live inside
  of the wrapper of the loop, so the one of the body gets a new name.

New names hold a dollar sign, which no identifier of the source does.
-/

namespace FlatScope

/-- The names of the lowered bindings, and a supply of further ones. -/
structure Naming where
  names : List (BindingId × Name)
  supply : NameSupply
  deriving DecidableEq, Repr

namespace Naming

/-- The name of a binding. -/
def nameOf (n : Naming) (b : BindingId) : Name := (n.names.lookup b).getD []

/-- What new names made from a name start with. -/
def stem (name : Name) : Name := name ++ "$"

/-- Whether a binding keeps the name that it was declared with. -/
def keepsName (a : Analysis) (b : Binding) : Bool :=
  (a.scoping.scope? b.scope).any (·.kind = .function) || a.wrappedBindings.contains b.id ||
    !((a.scoping.bindings.filter (·.name = b.name)).length > 1 ||
      a.scoping.globalsUsed.contains b.name)

/-- Names a further binding. -/
def add (a : Analysis) (n : Naming) (b : Binding) : Naming :=
  if keepsName a b then { n with names := n.names ++ [(b.id, b.name)] }
  else
    let (name, supply) := n.supply.fresh (stem b.name)
    ⟨n.names ++ [(b.id, name)], supply⟩

/-- Gives a binding a new name if it has one of the given names. -/
def avoid (names : List Name) (n : Naming) (b : BindingId) : Naming :=
  if names.contains (n.nameOf b) then
    let (name, supply) := n.supply.fresh (stem (n.nameOf b))
    ⟨n.names.map fun (c, old) => if c = b then (c, name) else (c, old), supply⟩
  else n

/-- Tells the bindings declared inside of a wrapper from its parameters. -/
def separate (n : Naming) (w : Wrapper) : Naming :=
  w.locals.foldl (avoid (w.params.map n.nameOf)) n

/-- The names of the bindings of a function. -/
def ofAnalysis (a : Analysis) : Naming :=
  let taken := a.scoping.bindings.map (·.name) ++ a.scoping.globalsUsed
  let named := a.scoping.bindings.foldl (add a) ⟨[], .ofTaken taken⟩
  a.wrappers.foldl separate named

end Naming

end FlatScope
