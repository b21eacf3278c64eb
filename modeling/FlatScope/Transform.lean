import FlatScope.Lowering
import FlatScope.Value.Builtin

/-!
# Transforming programs

`FunctionDef.transform` takes one function through all stages: its nodes are numbered, it is
analysed and it is lowered. `Program.transform` does so with every function of a program and with
its statements. A name may mean something outside of a function if it is that of a builtin, of a
function of the program, or a global of the options.

A function that is rejected is left out of the transformed program, and the others are transformed
all the same; but if the transformation is strict, the first rejection ends it.
-/

namespace FlatScope

/-- How functions are transformed. -/
structure Options where
  /-- Whether wrappers of loops are made before the loops where possible. -/
  hoisting : Bool := true
  /-- Further names that mean something outside of all functions. -/
  globals : List Name := []
  /-- Whether the first rejection ends the transformation of a program. -/
  strict : Bool := false
  deriving DecidableEq, Repr, Inhabited

/-- The names that mean something outside of a function: besides those of the builtins and of the
    options the given ones. -/
def Options.knownNames (o : Options) (names : List Name) : List Name :=
  Builtin.all.map (·.name) ++ o.globals ++ names

/-- Transforms a function, given the names that mean something outside of it besides those of the
    builtins and of the options. -/
def FunctionDef.transformKnowing (fn : FunctionDef Span) (o : Options) (names : List Name) :
    Except Failure (FunctionDef Span) :=
  let numbered := fn.number
  match numbered.analyse (o.knownNames names) o.hoisting with
  | .error r => .error (.rejected r)
  | .ok a => numbered.lower a

/-- Transforms a function that may call itself. -/
def FunctionDef.transform (fn : FunctionDef Span) (o : Options) :
    Except Failure (FunctionDef Span) :=
  fn.transformKnowing o [fn.name]

/-- What became of one function. -/
structure Transformed where
  name : Name
  result : Except Rejection (FunctionDef Span)

namespace Transformed

/-- The transformed function. -/
def function? (t : Transformed) : Option (FunctionDef Span) := t.result.toOption

/-- Whether the function was transformed. -/
def ok (t : Transformed) : Bool := t.function?.isSome

/-- The report on a rejected function. -/
def diagnostics (t : Transformed) : List Diagnostic :=
  match t.result with
  | .ok _ => []
  | .error r => [r.diagnostic (some t.name)]

end Transformed

/-- Transforms a function and keeps the reason if it is rejected, unless the transformation is
    strict. -/
def FunctionDef.tryTransform (fn : FunctionDef Span) (o : Options) (names : List Name) :
    Except Failure Transformed :=
  match fn.transformKnowing o names with
  | .ok lowered => .ok ⟨fn.name, .ok lowered⟩
  | .error (.rejected r) => if o.strict then .error (.rejected r) else .ok ⟨fn.name, .error r⟩
  | .error e => .error e

/-- A transformed program, and what became of each of its functions. -/
structure TransformedProgram where
  program : Program Span
  results : List Transformed

namespace TransformedProgram

/-- Whether every function was transformed. -/
def ok (t : TransformedProgram) : Bool := t.results.all Transformed.ok

/-- The reports on the functions that were rejected. -/
def diagnostics (t : TransformedProgram) : List Diagnostic :=
  t.results.flatMap Transformed.diagnostics

end TransformedProgram

namespace Program

/-- The function that the statements of a program form, if it has any. -/
def main? (p : Program Span) : Option (FunctionDef Span) :=
  if p.statements.isEmpty then none else some (p.main .unknown)

/-- Transforms the functions of a program and its statements. -/
def transform (p : Program Span) (o : Options) : Except Failure TransformedProgram := do
  let names := p.functions.map (·.name)
  let functions ← p.functions.mapM (·.tryTransform o names)
  let main ← p.main?.toList.mapM (·.tryTransform o names)
  let statements := (main.filterMap (·.function?)).flatMap (·.body.statements)
  return ⟨⟨functions.filterMap (·.function?), statements⟩, functions ++ main⟩

end Program

end FlatScope
