import FlatScope.Eval.Error

/-!
# Environments

Variables live in frames, and a frame may have another one around it: a name means the variable of
that name in the nearest frame that has one. A frame is made after the frame around it, so the
numbers of the frames around a frame are smaller than its own.

`set` and `get` refuse a variable whose declaration has not run, and `set` refuses a constant;
`setInitial` does neither, since it is the declaration that runs.
-/

namespace FlatScope

namespace Frame

/-- The variable of the given name in the frame itself. -/
def find? (f : Frame) (name : Name) : Option Cell := f.cells.lookup name

/-- Whether the frame itself has a variable of the given name. -/
def has (f : Frame) (name : Name) : Bool := (f.find? name).isSome

/-- Replaces the content of the variable of the given name. -/
def update (f : Frame) (name : Name) (value : Value) : Frame :=
  { f with cells := f.cells.map fun (n, c) =>
      if n = name then (n, { c with content := some value }) else (n, c) }

/-- Adds a variable, which is the last one. -/
def add (f : Frame) (name : Name) (cell : Cell) : Frame :=
  { f with cells := f.cells ++ [(name, cell)] }

/-- Defines a variable, unless there is one of that name. -/
def define (f : Frame) (name : Name) (content : Option Value) (const : Bool) :
    Except RunError Frame :=
  if f.has name then .error (.alreadyDefined name) else .ok (f.add name ⟨content, const⟩)

end Frame

namespace Store

/-- Makes a frame. -/
def newFrame (s : Store) (f : Frame) : FrameId × Store :=
  (s.frames.size, { s with frames := s.frames.push f })

/-- Makes an empty frame inside another one. -/
def child (s : Store) (parent : FrameId) : FrameId × Store := s.newFrame ⟨some parent, []⟩

/-- Makes a frame with the same variables inside the same frame. -/
def copy (s : Store) (id : FrameId) : FrameId × Store :=
  s.newFrame (s.frames[id]?.getD default)

/-- The nearest frame that has a variable of the given name, and that variable, among at most
    `fuel` frames. -/
def findFrom (frames : Array Frame) (name : Name) : Nat → FrameId → Option (FrameId × Cell)
  | 0, _ => none
  | fuel + 1, id =>
    match frames[id]? with
    | none => none
    | some f =>
      match f.find? name, f.parent with
      | some cell, _ => some (id, cell)
      | none, some p => findFrom frames name fuel p
      | none, none => none

/-- The nearest frame that has a variable of the given name, and that variable. -/
def find? (s : Store) (name : Name) (id : FrameId) : Option (FrameId × Cell) :=
  findFrom s.frames name (id + 1) id

/-- Replaces the content of a variable of the given frame. -/
def write (s : Store) (id : FrameId) (name : Name) (value : Value) : Store :=
  { s with frames := s.frames.modify id fun f => f.update name value }

/-- Defines a variable in a frame. -/
def define (s : Store) (id : FrameId) (name : Name) (content : Option Value) (const : Bool) :
    Except RunError Store :=
  match s.frames[id]? with
  | none => .ok s
  | some f => (f.define name content const).map fun f =>
      { s with frames := s.frames.setIfInBounds id f }

/-- The content of a variable. -/
def get (s : Store) (id : FrameId) (name : Name) : Except RunError Value :=
  match s.find? name id with
  | none => .error (.unknownName name)
  | some (_, ⟨none, _⟩) => .error (.uninitialized name)
  | some (_, ⟨some v, _⟩) => .ok v

/-- The frame of the variable that an assignment changes. -/
def setTarget (s : Store) (id : FrameId) (name : Name) : Except RunError FrameId :=
  match s.find? name id with
  | none => .error (.unknownName name)
  | some (_, ⟨none, _⟩) => .error (.uninitialized name)
  | some (_, ⟨some _, true⟩) => .error (.constant name)
  | some (owner, ⟨some _, false⟩) => .ok owner

/-- Assigns to a variable. -/
def set (s : Store) (id : FrameId) (name : Name) (value : Value) : Except RunError Store :=
  (s.setTarget id name).map fun owner => s.write owner name value

/-- The frame of the variable that a declaration gives its value. -/
def initialTarget (s : Store) (id : FrameId) (name : Name) : Except RunError FrameId :=
  match s.find? name id with
  | none => .error (.unknownName name)
  | some (owner, _) => .ok owner

/-- Gives a variable the value of its declaration. -/
def setInitial (s : Store) (id : FrameId) (name : Name) (value : Value) :
    Except RunError Store :=
  (s.initialTarget id name).map fun owner => s.write owner name value

end Store

end FlatScope
