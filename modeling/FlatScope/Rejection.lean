import FlatScope.Diagnostic
import FlatScope.Printer

/-!
# Rejections

Why a function cannot be lowered. The causes fall into three groups, which their codes and phases
tell apart: names that are not declared, or declared twice (`E0101`, `E0102`); assignments to
constants (`E0201`); and constructs that the lowering has no answer to, or that stand out of place
(`E0301`).
-/

namespace FlatScope

/-- Why a function cannot be lowered. -/
inductive Cause where
  /-- A name is declared nowhere around its use. -/
  | unresolved (name : Name)
  /-- A name is declared twice in one scope, before at the given place. -/
  | duplicate (name : Name) (previous : Span)
  /-- A constant, declared at the given place, is assigned to. -/
  | immutable (name : Name) (declared : Span)
  | missingInitializer (name : Name)
  /-- Something of the given class is assigned to. -/
  | assignmentTarget (className : Text)
  | jumpOutsideLoop (jump : Exit)
  | unknownStmt (className : Text)
  | unknownHeader (className : Text)
  | unknownExpr (className : Text)
  /-- A declaration stands where none can be. -/
  | misplacedDeclaration (name : Name)
  /-- A clause of a `for` becomes more than one statement. -/
  | headerClause
  /-- A signal arrives where no loop is left that it could be for. -/
  | signalOutsideLoop (signal : Exit)
  deriving DecidableEq, Repr

namespace Cause

/-- The wording of a cause. -/
def message : Cause → Text
  | .unresolved n => "unresolved reference '" ++ n ++ "'"
  | .duplicate n _ => "'" ++ n ++ "' is already declared in this scope"
  | .immutable n _ => "assignment to immutable binding '" ++ n ++ "'"
  | .missingInitializer n => "missing initializer in const declaration of '" ++ n ++ "'"
  | .assignmentTarget c => "unsupported assignment target '" ++ c ++ "'"
  | .jumpOutsideLoop e => "'" ++ e.keyword ++ "' outside of a loop"
  | .unknownStmt c => "unsupported statement '" ++ c ++ "'"
  | .unknownHeader c => "unsupported loop header '" ++ c ++ "'"
  | .unknownExpr c => "unsupported expression '" ++ c ++ "'"
  | .misplacedDeclaration n => "declaration of '" ++ n ++ "' was not analyzed"
  | .headerClause => "loop header clause does not lower to a single statement"
  | .signalOutsideLoop e => "'" ++ e.keyword ++ "' signal has no enclosing loop"

/-- The code of a cause. -/
def code : Cause → Text
  | .unresolved _ => "E0101"
  | .duplicate .. => "E0102"
  | .immutable .. => "E0201"
  | _ => "E0301"

/-- The phase that finds a cause. -/
def phase : Cause → Text
  | .unresolved _ | .duplicate .. => "scope"
  | .immutable .. => "classify"
  | _ => "transform"

/-- A note on another place, if its line is known. -/
def placeNote (before : Text) (place : Span) : List Text :=
  match place.line with
  | none => []
  | some _ => [before ++ place.describe]

/-- The notes on a cause. -/
def notes : Cause → List Text
  | .duplicate _ previous => placeNote "previous declaration at " previous
  | .immutable n declared => placeNote ("'" ++ n ++ "' declared immutable at ") declared
  | _ => []

end Cause

/-- A cause with its place. -/
structure Rejection where
  cause : Cause
  span : Span
  deriving DecidableEq, Repr

/-- A rejection as a diagnostic, which may name the function. -/
def Rejection.diagnostic (r : Rejection) (function : Option Name) : Diagnostic :=
  ⟨r.cause.message, some r.cause.code, some r.cause.phase, Diagnostic.error, r.span, r.cause.notes,
    function⟩

/-- The name of the class of an expression. -/
def Expr.className {α : Type} : Expr α → Text
  | .literal .. => "Literal"
  | .name .. => "Name"
  | .unary .. => "Unary"
  | .binary .. => "Binary"
  | .call .. => "Call"
  | .array .. => "ArrayLiteral"
  | .index .. => "Index"
  | .function .. => "FunctionExpr"
  | .signal .. => "SignalExpr"
  | .signalIs .. => "SignalIs"
  | .signalValue .. => "SignalValue"
  | .unknown _ n => n

end FlatScope
