import FlatScope.Eval

/-!
# Running a program

Before anything of a program runs, the outermost frame gets the functions that every program can
call and the functions of the program, which must all have different names. The statements outside
of the functions run like the body of a function without parameters; functions can also be called
one by one.
-/

namespace FlatScope.Eval

/-- The outermost frame. -/
def globalFrame : FrameId := 0

/-- The store before a program runs. -/
def initialStore (p : Program Span) : Except RunError Store := do
  let (_, s) := Store.empty.newFrame ⟨none, []⟩
  let s ← Builtin.all.foldlM
    (fun s b => s.define globalFrame b.name (some (.builtin b)) false) s
  p.functions.foldlM
    (fun s fn =>
      let (f, s) := s.newClosure ⟨fn.params, fn.body, globalFrame, some fn.name⟩
      s.define globalFrame fn.name (some f) false) s

/-- Calls a function that need not belong to the program. -/
def callFunction (fuel : Nat) (fn : FunctionDef Span) (args : List Value) : Run Value :=
  callClosure fuel ⟨fn.params, fn.body, globalFrame, some fn.name⟩ args

/-- Runs the statements of a program outside of its functions. -/
def main (fuel : Nat) (p : Program Span) : Run Value := callFunction fuel (p.main .unknown) []

/-- Calls the function with the given name. -/
def callGlobal (fuel : Nat) (name : Name) (args : List Value) : Run Value := do
  let f ← Process.read fun s => s.get globalFrame name
  call fuel f args

/-- More steps than any program takes that ends in a lifetime. -/
def allSteps : Nat := 1 <<< 60

end FlatScope.Eval
