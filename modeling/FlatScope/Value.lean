import FlatScope.Syntax
import FlatScope.Span

/-!
# Values and the store

What a running program computes with. Arrays and closures have an identity: a value refers to them
by their number in the `Store`, which also holds the frames of variables and what has been printed.
Numbers are given out in order and never reused. A NaN that an operation yields gets a number too.

A signal is a value that stands for an early exit; a `return` signal carries the returned value.
Only lowered programs make signals.
-/

namespace FlatScope

/-- The functions that every program can call. -/
inductive Builtin where
  | print
  | push
  | len
  | range
  | str
  deriving DecidableEq, Repr

namespace Builtin

/-- All of them, in the order in which they are defined. -/
def all : List Builtin := [.print, .push, .len, .range, .str]

def name : Builtin → Name
  | .print => "print"
  | .push => "push"
  | .len => "len"
  | .range => "range"
  | .str => "str"

/-- The names of the functions that every program can call. -/
def names : List Name := all.map name

/-- Whether a function can be called with so many arguments. -/
def takes : Builtin → Nat → Bool
  | .print, _ => true
  | .push, n => n = 2
  | .len, n => n = 1
  | .range, n => n = 1 ∨ n = 2
  | .str, n => n = 1

end Builtin

/-- The number of a frame in the store. -/
abbrev FrameId := Nat

/-- A value. -/
inductive Value where
  | undefined
  | bool (b : Bool)
  | number (n : Number)
  | text (t : Text)
  /-- The array with the given number. -/
  | array (id : Nat)
  /-- The closure with the given number. -/
  | closure (id : Nat)
  | builtin (b : Builtin)
  /-- The marker of code that was not left early. -/
  | noSignal
  /-- The signal of an early exit, with the value that it carries. -/
  | signal (kind : Exit) (value : Value)
  deriving DecidableEq, Repr, Inhabited

/-- Whether a value is a signal of the given kind. -/
def Value.isSignal (v : Value) (kind : SignalKind) : Bool :=
  match kind, v with
  | none, .noSignal => true
  | some k, .signal l _ => k = l
  | _, _ => false

/-- A function with the frame that it closes over, and its name if it was declared with one. -/
structure Closure where
  params : List Name
  body : Block Span
  frame : FrameId
  name : Option Name
  deriving Inhabited

/-- A variable. Its content is missing until the declaration of a `let` or `const` has run. -/
structure Cell where
  content : Option Value
  const : Bool
  deriving Repr, Inhabited

/-- The variables of one scope in the order of their definition, and the frame around it. -/
structure Frame where
  parent : Option FrameId
  cells : List (Name × Cell)
  deriving Repr, Inhabited

/-- All that a running program has made. -/
structure Store where
  frames : Array Frame
  arrays : Array (Array Value)
  closures : Array Closure
  /-- How many operations have yielded a NaN of their own. -/
  nans : Nat
  /-- The printed lines, the last one first. -/
  printed : List Text
  deriving Inhabited

namespace Store

/-- Nothing has been made. -/
def empty : Store := ⟨#[], #[], #[], 0, []⟩

/-- The elements of an array. -/
def elements (s : Store) (id : Nat) : Array Value := s.arrays[id]?.getD #[]

/-- The lines printed so far, in order. -/
def lines (s : Store) : List Text := s.printed.reverse

/-- Makes an array. -/
def newArray (s : Store) (elements : Array Value) : Value × Store :=
  (.array s.arrays.size, { s with arrays := s.arrays.push elements })

/-- Makes a closure. -/
def newClosure (s : Store) (c : Closure) : Value × Store :=
  (.closure s.closures.size, { s with closures := s.closures.push c })

/-- Tells a NaN that an operation has just yielded from all others. -/
def identify (s : Store) : Value → Value × Store
  | .number (.double (.nan negative .operation)) =>
    (.number (.double (.nan negative (.result s.nans))), { s with nans := s.nans + 1 })
  | v => (v, s)

/-- Changes the elements of an array. -/
def modifyElements (s : Store) (id : Nat) (f : Array Value → Array Value) : Store :=
  { s with arrays := s.arrays.modify id f }

/-- Prints a line. -/
def emit (s : Store) (line : Text) : Store := { s with printed := line :: s.printed }

end Store

end FlatScope
