import FlatScope.Eval
import FlatScope.Proofs.Lowering.Lowered

/-!
# Machines for regions

The variables of a running program by what they hold, not by what they are called. An *activation*
is one run of the code of a function or of a wrapper; a *location* is a slot of an activation, and
an environment says at which location each binding is. A closure is a function of the source with
the environment that it was made in.

Arrays, printed lines and what is known by name outside of all functions are kept in a `Store` as
everywhere.
-/

namespace FlatScope.Regional

/-- A slot of an activation. -/
structure Location where
  activation : FrameId
  slot : Slot
  deriving DecidableEq, Repr

/-- Where the bindings are. -/
abbrev Env := BindingId → Location

/-- A function of the source with the environment that it was made in. -/
structure Closure where
  scoping : Scoping
  scope : ScopeId
  params : List Name
  code : List (Stmt Mark)
  env : Env

/-- All that a running program has made. -/
structure Machine where
  store : Store
  /-- The number of the next activation. -/
  activations : Nat
  cells : Location → Value
  closures : Array Closure

/-- A piece of a running program. -/
abbrev Run := Process Machine

namespace Machine

/-- Puts a value at a location. -/
def set (m : Machine) (l : Location) (v : Value) : Machine :=
  { m with cells := fun k => if k = l then v else m.cells k }

@[simp] theorem set_cells_same (m : Machine) (l : Location) (v : Value) :
    (m.set l v).cells l = v := by
  simp [set]

theorem set_cells_ne (m : Machine) {l k : Location} (v : Value) (h : k ≠ l) :
    (m.set l v).cells k = m.cells k := by
  simp [set, h]

/-- Puts values at locations, one after the other. -/
def setAll (m : Machine) (ls : List (Location × Value)) : Machine :=
  ls.foldl (fun m (l, v) => m.set l v) m

/-- Copies values from location to location, one after the other. -/
def copyAll (m : Machine) (ls : List (Location × Location)) : Machine :=
  ls.foldl (fun m (target, source) => m.set target (m.cells source)) m

/-- The machine with a new activation, all of whose variables are undefined. -/
def activate (m : Machine) : Machine :=
  { m with
    activations := m.activations + 1
    cells := fun l => if l.activation = m.activations then .undefined else m.cells l }

/-- Makes a closure. -/
def newClosure (m : Machine) (c : Closure) : Value × Machine :=
  (.closure m.closures.size, { m with closures := m.closures.push c })

end Machine

/-- A step that only concerns the store. -/
def onStore {α : Type} (x : FlatScope.Run α) : Run α := fun m =>
  match x m.store with
  | .done a s => .done a { m with store := s }
  | .interrupted w s => .interrupted w { m with store := s }
  | .outOfFuel => .outOfFuel

/-- The value at a location. -/
def get (l : Location) : Run Value := .make fun m => (m.cells l, m)

/-- Puts a value at a location. -/
def set (l : Location) (v : Value) : Run Unit := .make fun m => ((), m.set l v)

/-- Begins an activation. -/
def activate : Run FrameId := .make fun m => (m.activations, m.activate)

/-- Copies values from location to location. -/
def copyAll (ls : List (Location × Location)) : Run Unit := .make fun m => ((), m.copyAll ls)

/-- Makes a closure. -/
def close (c : Closure) : Run Value := .make fun m => m.newClosure c

end FlatScope.Regional
