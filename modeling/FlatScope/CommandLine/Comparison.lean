import FlatScope.Diagnostic
import FlatScope.Eval.Session
import FlatScope.Json

/-!
# Comparing runs

A program and its transformed one are run, and the lines that they print are compared. A runtime
error is reported (`E0901`), and so are different lines if there is no such error (`E0902`); but a
number that grows too large, or a jump that leaves the program, ends the comparison itself.
-/

namespace FlatScope

/-- Why a comparison cannot be finished. -/
inductive Abort where
  | interrupted (why : Interrupt)
  | unfinished
  deriving DecidableEq, Repr

/-- What a program prints, or the error that it stops with. -/
abbrev Printed := Except RunError (List Text)

/-- Runs a program within the given number of steps. -/
def Program.printed (p : Program Span) (fuel : Nat) : Except Abort Printed :=
  match Eval.initialStore p with
  | .error e => .ok (.error e)
  | .ok store =>
    match Eval.main fuel p store with
    | .done _ s => .ok (.ok s.lines)
    | .interrupted (.failed e) _ =>
      if e.kind = .overflow then .error (.interrupted (.failed e)) else .ok (.error e)
    | .interrupted why _ => .error (.interrupted why)
    | .outOfFuel => .error .unfinished

/-- What a program and the transformed one print. -/
structure Comparison where
  given : Printed
  transformed : Printed

namespace Comparison

/-- Runs both programs. -/
def ofPrograms (given transformed : Program Span) (fuel : Nat) : Except Abort Comparison := do
  let g ← given.printed fuel
  let t ← transformed.printed fuel
  return ⟨g, t⟩

/-- The lines that both programs print, if neither stops with an error and they are the same. -/
def common? (c : Comparison) : Option (List Text) :=
  match c.given, c.transformed with
  | .ok g, .ok t => if g = t then some g else none
  | _, _ => none

/-- A report on a run. -/
def report (code message : Text) : Diagnostic :=
  ⟨message, some code, some "run", Diagnostic.error, .unknown, [], none⟩

/-- The report on a program that stops with an error. -/
def failure (label : Text) : Printed → List Diagnostic
  | .ok _ => []
  | .error e => [report "E0901" (label ++ " program failed at runtime: " ++ e.message)]

/-- What the comparison finds fault with. -/
def diagnostics (c : Comparison) : List Diagnostic :=
  match failure "original" c.given ++ failure "transformed" c.transformed, c.common? with
  | [], none => [report "E0902" "transformed program output differs from the original"]
  | ds, _ => ds

/-- The lines that a program prints as JSON. -/
def linesJson : Printed → Json
  | .ok lines => .ofTexts lines
  | .error _ => .null

/-- A comparison as JSON. -/
def json (c : Comparison) : Json :=
  .object
    [ ("original", linesJson c.given),
      ("transformed", linesJson c.transformed),
      ("match", .bool c.common?.isSome) ]

end Comparison

end FlatScope
