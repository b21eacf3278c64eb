import FlatScope.Text.Quoted
import FlatScope.Value

/-!
# Runtime errors

The causes for which a running program stops. A cause that shows a value holds the text of it.
-/

namespace FlatScope

/-- The type of a value that is no number, as conversions name it. -/
inductive TypeName where
  | undefined
  | array
  | closure
  | builtin
  | noSignal
  | signal
  deriving DecidableEq, Repr

namespace TypeName

def word : TypeName → Text
  | .undefined => "NoneType"
  | .array => "list"
  | .closure => "Closure"
  | .builtin => "BuiltinFunction"
  | .noSignal => "_NoSignal"
  | .signal => "ControlSignal"

end TypeName

/-- Why a running program stops. -/
inductive RunError where
  /-- No frame around has the variable. -/
  | unknownName (name : Name)
  /-- The declaration of the variable has not run. -/
  | uninitialized (name : Name)
  /-- An assignment to a constant. -/
  | constant (name : Name)
  /-- Two variables of one name in one scope. -/
  | alreadyDefined (name : Name)
  | notCallable (value : Text)
  | notIterable (value : Text)
  | notIndexable (value : Text)
  | notSignal (value : Text)
  | notNegatable (value : Text)
  /-- The operator does not apply to values like these. -/
  | operands (op : BinaryOp) (left right : Text)
  /-- An element is assigned to something without elements, or at a place that is none. -/
  | elementTarget
  /-- Something is assigned to that is neither a variable nor an element. -/
  | target
  | unknownUnary (op : UnaryOp)
  | unknownBinary (op : BinaryOp)
  | unknownExpr (className : Text)
  | unknownStmt (className : Text)
  | unknownHeader (className : Text)
  /-- A function is called with a number of arguments that it does not take. -/
  | argumentCount (b : Builtin) (count : Nat)
  | pushTarget (value : Text)
  | lenArgument (value : Text)
  /-- A value is no number and cannot become one. -/
  | noInteger (type : TypeName)
  /-- A text does not spell an integer. -/
  | integerText (text : Text)
  /-- A text spells an integer with too many digits. -/
  | integerTooLong (digits : Nat)
  | number (fault : Number.Fault)
  /-- An array contains itself. -/
  | cyclic
  deriving DecidableEq, Repr

namespace RunError

/-- The kinds of runtime errors. -/
inductive Kind where
  | runtime
  | type
  | value
  | overflow
  /-- Nesting without end. -/
  | depth
  deriving DecidableEq, Repr

def kind : RunError → Kind
  | .pushTarget _ | .lenArgument _ | .noInteger _ => .type
  | .integerText _ | .integerTooLong _ => .value
  | .number .intTooLarge | .number .quotientTooLarge | .number .infiniteInteger => .overflow
  | .number .infiniteDividend | .number .tooManyDigits | .number .notAnInteger => .value
  | .cyclic => .depth
  | _ => .runtime

/-- The wording of an error. -/
def message : RunError → Text
  | .unknownName n => "Unknown identifier '" ++ n ++ "'"
  | .uninitialized n => "cannot access '" ++ n ++ "' before initialization"
  | .constant n => "assignment to constant variable '" ++ n ++ "'"
  | .alreadyDefined n => "'" ++ n ++ "' already defined in this scope"
  | .notCallable v => v ++ " is not a function"
  | .notIterable v => v ++ " is not iterable"
  | .notIndexable v => v ++ " is not indexable"
  | .notSignal v => v ++ " is not a control signal"
  | .notNegatable v => "cannot negate " ++ v
  | .operands op l r => "unsupported operands for " ++ op.symbol ++ ": " ++ l ++ ", " ++ r
  | .elementTarget => "invalid index assignment"
  | .target => "Unsupported assignment target"
  | .unknownUnary op => "Unsupported unary operator " ++ op.symbol
  | .unknownBinary op => "Unsupported operator " ++ op.symbol
  | .unknownExpr n => "Unsupported expression " ++ n
  | .unknownStmt n => "Unsupported statement " ++ n
  | .unknownHeader n => "Unsupported loop header " ++ n
  | .argumentCount b n => b.name ++ "() got " ++ Text.ofNat n ++ " argument(s)"
  | .pushTarget v => "push() expects an array, got " ++ v
  | .lenArgument v => "len() expects an array or string, got " ++ v
  | .noInteger t =>
    "int() argument must be a string, a bytes-like object or a real number, not '" ++ t.word ++ "'"
  | .integerText t =>
    "invalid literal for int() with base 10: " ++ t.quoted.take 200
  | .integerTooLong n => tooLongMessage n
  | .number f => f.message
  | .cyclic => "maximum recursion depth exceeded"

end RunError

end FlatScope
