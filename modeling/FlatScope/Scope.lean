import FlatScope.Syntax.Numbering

/-!
# Scopes, bindings and references

What is known about the names of one function. A *scope* is a stretch of the function with names of
its own: a function, a block that declares a `let` or `const`, or a loop whose header does. A scope
is known by the number of the node that opens it. A *binding* is a declared name; it belongs to one
scope. A *reference* is one use of a name with the binding it means, or without one if it means
something from outside of the function.
-/

namespace FlatScope

/-- The number of a scope: that of the node that opens it. -/
abbrev ScopeId := NodeId

/-- The number of a binding. -/
abbrev BindingId := Nat

inductive ScopeKind where
  | function
  | block
  | loop
  deriving DecidableEq, Repr

/-- How a binding is introduced: as a parameter, by a declaration among statements, or in the
    header of a loop. -/
inductive Origin where
  | param
  | declared (kind : DeclKind)
  | header (kind : DeclKind)
  deriving DecidableEq, Repr

namespace Origin

/-- The kind of the declaration; a parameter has none. -/
def kind? : Origin → Option DeclKind
  | .param => none
  | .declared k | .header k => some k

/-- Parameters and `var`s belong to a whole function. -/
def isFunctionScoped : Origin → Bool
  | .param => true
  | .declared k | .header k => !k.isBlockScoped

/-- Nothing may be assigned to a `const`. -/
def isConst (o : Origin) : Bool := o.kind? = some .const

end Origin

/-- A declared name. -/
structure Binding where
  id : BindingId
  name : Name
  origin : Origin
  scope : ScopeId
  span : Span
  deriving DecidableEq, Repr

/-- A stretch of a function with names of its own, each with its binding, in the order of their
    declaration. -/
structure Scope where
  id : ScopeId
  kind : ScopeKind
  parent : Option ScopeId
  names : List (Name × BindingId)
  deriving DecidableEq, Repr

namespace Scope

/-- The bindings of a scope in the order of their declaration. -/
def bindingIds (s : Scope) : List BindingId := s.names.map (·.2)

end Scope

/-- One use of a name, in the given scope. -/
structure Reference where
  node : NodeId
  name : Name
  binding : Option BindingId
  scope : ScopeId
  isWrite : Bool
  span : Span
  deriving DecidableEq, Repr

/-- The scopes of a loop: that of its header and that of its body, if they have one, and the one
    that it stands in. -/
structure LoopScopes where
  loop : NodeId
  header : Option ScopeId
  body : Option ScopeId
  enclosing : ScopeId
  deriving DecidableEq, Repr

/-- All that is known about the names of a function. -/
structure Scoping where
  root : ScopeId
  /-- The scopes in the order in which they are opened. -/
  scopes : List Scope
  /-- Every scope that is opened inside of another one, behind that one, in the same order. -/
  nesting : List (ScopeId × ScopeId)
  /-- The bindings in the order of their numbers, which start with 1. -/
  bindings : List Binding
  /-- The references in the order in which they are resolved. -/
  references : List Reference
  /-- The binding that a declaration or the header of a loop declares. -/
  declarations : List (NodeId × BindingId)
  /-- The scope that a block opens. -/
  blockScopes : List (NodeId × ScopeId)
  loops : List LoopScopes
  /-- The names that mean something from outside of the function. -/
  globalsUsed : List Name
  deriving DecidableEq, Repr

namespace Scoping

/-- Nothing is known yet. -/
def empty (root : ScopeId) : Scoping := ⟨root, [], [], [], [], [], [], [], []⟩

/-! ## Looking up -/

def scope? (a : Scoping) (id : ScopeId) : Option Scope := a.scopes.find? (·.id = id)

def binding? (a : Scoping) (id : BindingId) : Option Binding := a.bindings.find? (·.id = id)

/-- The scope and those around it, the innermost first, at most `fuel` of them. -/
def chainFrom (a : Scoping) : Nat → ScopeId → List Scope
  | 0, _ => []
  | fuel + 1, id =>
    match a.scope? id with
    | none => []
    | some s =>
      match s.parent with
      | none => [s]
      | some p => s :: a.chainFrom fuel p

/-- The scope and those around it, the innermost first. -/
def chain (a : Scoping) (id : ScopeId) : List Scope := a.chainFrom a.scopes.length id

/-- The function that a scope belongs to. -/
def enclosingFunction? (a : Scoping) (id : ScopeId) : Option ScopeId :=
  ((a.chain id).find? (·.kind = .function)).map (·.id)

/-- Whether a scope is `outer` or lies inside of it. -/
def isWithin (a : Scoping) (id outer : ScopeId) : Bool := (a.chain id).any (·.id = outer)

/-- The binding that a name means in a scope. -/
def lookup? (a : Scoping) (id : ScopeId) (name : Name) : Option Binding :=
  ((a.chain id).findSome? (·.names.lookup name)).bind a.binding?

/-- The use of a name at a node. -/
def referenceAt? (a : Scoping) (node : NodeId) : Option Reference :=
  a.references.find? (·.node = node)

/-- The binding that a node declares. -/
def declared? (a : Scoping) (node : NodeId) : Option Binding :=
  (a.declarations.lookup node).bind a.binding?

/-- The scopes of a loop. -/
def loop? (a : Scoping) (node : NodeId) : Option LoopScopes := a.loops.find? (·.loop = node)

/-- The scopes directly inside of a scope, in the order in which they are opened. -/
def children (a : Scoping) (id : ScopeId) : List ScopeId :=
  (a.nesting.filter (·.1 = id)).map (·.2)

/-- The bindings of a scope. -/
def bindingIdsOf (a : Scoping) (id : ScopeId) : List BindingId :=
  ((a.scope? id).map Scope.bindingIds).getD []

/-! ## Extending -/

/-- Opens a scope. -/
def addScope (a : Scoping) (id : ScopeId) (kind : ScopeKind) (parent : Option ScopeId) : Scoping :=
  { a with
    scopes := a.scopes ++ [⟨id, kind, parent, []⟩]
    nesting := a.nesting ++ (parent.map fun p => (p, id)).toList }

/-- The number of the next binding. -/
def nextBinding (a : Scoping) : BindingId := a.bindings.length + 1

/-- Declares a name in a scope. -/
def addBinding (a : Scoping) (scope : ScopeId) (name : Name) (origin : Origin) (span : Span) :
    Scoping :=
  { a with
    bindings := a.bindings ++ [⟨a.nextBinding, name, origin, scope, span⟩]
    scopes := a.scopes.map fun s =>
      if s.id = scope then { s with names := s.names ++ [(name, a.nextBinding)] } else s }

/-- Notes that a node declares a binding. -/
def addDeclaration (a : Scoping) (node : Option NodeId) (binding : BindingId) : Scoping :=
  match node with
  | none => a
  | some n => { a with declarations := a.declarations ++ [(n, binding)] }

/-- Notes that a block opens the scope of the same number. -/
def addBlockScope (a : Scoping) (id : ScopeId) : Scoping :=
  { a with blockScopes := a.blockScopes ++ [(id, id)] }

/-- Notes the scopes of a loop. -/
def addLoop (a : Scoping) (l : LoopScopes) : Scoping := { a with loops := a.loops ++ [l] }

/-- Notes a reference; without a binding it is one to something outside of the function. -/
def addReference (a : Scoping) (r : Reference) : Scoping :=
  { a with
    references := a.references ++ [r]
    globalsUsed :=
      if r.binding.isNone && !a.globalsUsed.contains r.name then a.globalsUsed ++ [r.name]
      else a.globalsUsed }

/-- The binding of a name in the scope itself. -/
def ownBinding? (a : Scoping) (scope : ScopeId) (name : Name) : Option Binding :=
  ((a.scope? scope).bind (·.names.lookup name)).bind a.binding?

/-- The binding of a name in a scope or one around it, within the same function but not in the
    scope of the function itself. -/
def bindingBelowFunction? (a : Scoping) (scope : ScopeId) (name : Name) : Option Binding :=
  (((a.chain scope).takeWhile (·.kind ≠ .function)).findSome? (·.names.lookup name)).bind a.binding?

end Scoping

end FlatScope
