import FlatScope.Text.Digit
import FlatScope.Transform

/-!
# Command line arguments

A command line names one source file among its options. An option may be written in several ways:

* a long name may be cut short as long as it is the only one that begins like that;
* a value is the next argument, follows a long name after an equals sign, or a short name directly
  or after an equals sign;
* short names may follow the short name of an option without a value;
* after `--` every argument is an operand.

A value that is attached and reads `--` is none: the option stands there without one.

The arguments are first sorted into `Word`s, which does not depend on their order but for `--`, and
then read from left to right. A request for help counts from where it stands; what is wrong further
right is not looked at.
-/

namespace FlatScope.CommandLine

/-- Where the transformed program goes. -/
inductive Target where
  | standardOutput
  | file (path : Text)
  /-- An option that lacks the path. -/
  | unnamed
  deriving DecidableEq, Repr

/-- What a command line asks for. -/
structure Arguments where
  source : Text
  output : Target
  /-- Whether the program is only read and printed. -/
  emitInput : Bool
  /-- Whether the program and the transformed one are run and compared. -/
  run : Bool
  /-- Whether reports are written as JSON. -/
  json : Bool
  /-- How the program is transformed, unless an option lacks a name. -/
  options : Option Options
  deriving DecidableEq, Repr

/-- Why a command line asks for nothing to be done. -/
inductive Usage where
  | help
  | wrong
  deriving DecidableEq, Repr

/-- The exit status of a command that does nothing. -/
def Usage.status : Usage → Nat
  | .help => 0
  | .wrong => 2

/-! ## Options -/

/-- An option without a value. -/
inductive Switch where
  | emitInput
  | run
  | json
  | noHoist
  | strict
  deriving DecidableEq, Repr

/-- An option with a value. -/
inductive Setting where
  | output
  | globalName
  deriving DecidableEq, Repr

/-- An option. -/
inductive Key where
  | help
  | switch (s : Switch)
  | setting (s : Setting)
  deriving DecidableEq, Repr

namespace Key

/-- All options. -/
def all : List Key :=
  [.help, .setting .output, .switch .emitInput, .switch .run, .switch .json, .switch .noHoist,
    .switch .strict, .setting .globalName]

/-- The name of an option after two dashes. -/
def long : Key → Text
  | .help => "help"
  | .switch .emitInput => "emit-input"
  | .switch .run => "run"
  | .switch .json => "json"
  | .switch .noHoist => "no-hoist"
  | .switch .strict => "strict"
  | .setting .output => "output"
  | .setting .globalName => "global"

/-- The name of an option after one dash. -/
def short? : Key → Option CodePoint
  | .help => some (Text.code 'h')
  | .setting .output => some (Text.code 'o')
  | _ => none

/-- The option with the given long name. -/
def ofLong? (name : Text) : Option Key := all.find? (·.long = name)

/-- The option with the given short name. -/
def ofShort? (c : CodePoint) : Option Key := all.find? (·.short? = some c)

/-- The options whose long name begins in the given way. -/
def candidates (start : Text) : List Key := all.filter (start.isPrefixOf ·.long)

end Key

/-! ## Words -/

/-- What an argument is, taken by itself. -/
inductive Word where
  | operand (t : Text)
  /-- The argument after which there are only operands. -/
  | separator
  /-- An option with a long name, and what is after its equals sign. -/
  | long (k : Key) (value : Option Text)
  /-- An option with a short name, and what is attached to it. -/
  | short (k : Key) (attached : Option Text)
  /-- The start of more than one long name. -/
  | ambiguous
  | unknown
  deriving DecidableEq, Repr

/-- A text up to the first equals sign, and what is after it if there is one. -/
def splitValue (t : Text) : Text × Option Text :=
  let name := t.takeWhile (· ≠ Text.code '=')
  (name, if name.length < t.length then some (t.drop (name.length + 1)) else none)

/-- What is attached to a short name, if something is: an equals sign in front does not count. -/
def attached? : Text → Option Text
  | [] => none
  | 0x3D :: value => some value
  | value => some value

/-- One or more digits, and at most one line feed after them. -/
def isDigits (t : Text) : Bool :=
  let digits := t.takeWhile Text.isDecimalDigit
  !digits.isEmpty && (t.length = digits.length || t.drop digits.length = "\n")

/-- Digits, or digits after a point that may follow others: after a dash that is a number, not an
    option. A line feed may end it. -/
def isMagnitude (t : Text) : Bool :=
  isDigits t ||
    match t.dropWhile Text.isDecimalDigit with
    | c :: fraction => c = Text.code '.' && isDigits fraction
    | [] => false

namespace Word

/-- An argument with a dash in front that is no option. -/
def other (t : Text) : Word :=
  if isMagnitude (t.drop 1) || t.contains (Text.code ' ') then .operand t else .unknown

/-- An argument with two dashes in front, given what is after them. -/
def ofLong (t rest : Text) : Word :=
  let (name, value) := splitValue rest
  match Key.ofLong? rest, Key.ofLong? name, Key.candidates name with
  | some k, _, _ => .long k none
  | none, some k, _ | none, none, [k] => .long k value
  | none, none, [] => other t
  | none, none, _ => .ambiguous

/-- An argument with one dash in front, given what is after it. -/
def ofShort (t : Text) (c : CodePoint) (rest : Text) : Word :=
  match Key.ofShort? c with
  | none => other t
  | some k => .short k (attached? rest)

/-- What an argument is that does not follow a separator. -/
def ofText (t : Text) : Word :=
  match t with
  | 0x2D :: 0x2D :: rest => ofLong t rest
  | 0x2D :: c :: rest => ofShort t c rest
  | _ => .operand t

/-- The words of a command line. -/
def ofArguments : List Text → List Word
  | [] => []
  | t :: ts =>
    if t = Text.ofString "--" then .separator :: ts.map .operand else ofText t :: ofArguments ts

end Word

/-! ## Reading words -/

/-- What is read from the words so far. -/
structure Draft where
  source : Option Text
  output : Target
  switches : List Switch
  /-- The names given, of which some may be lacking. -/
  globals : List (Option Name)
  /-- Whether there are words that mean nothing. -/
  surplus : Bool
  deriving DecidableEq, Repr

namespace Draft

/-- Before any words. -/
def empty : Draft := ⟨none, .standardOutput, [], [], false⟩

/-- Reads an operand: the first one is the source. -/
def operand (d : Draft) (t : Text) : Draft :=
  match d.source with
  | none => { d with source := some t }
  | some _ => { d with surplus := true }

/-- Reads an option without a value. -/
def switch (d : Draft) (s : Switch) : Draft := { d with switches := s :: d.switches }

/-- Reads an option with its value, or without one; of several outputs the last counts. -/
def setting (d : Draft) (value : Option Text) : Setting → Draft
  | .output => { d with output := (value.map Target.file).getD .unnamed }
  | .globalName => { d with globals := d.globals ++ [value] }

/-- The value that is attached to an option. -/
def attachedValue? (t : Text) : Option Text := if t = Text.ofString "--" then none else some t

/-- What a request for help means to which short names are attached: help, unless one of them is
    none or lacks its value. What follows an option with a value is the value. -/
def attachedToHelp (next : List Word) : Text → Usage
  | [] => .help
  | c :: rest =>
    match Key.ofShort? c, rest, next with
    | some .help, _, _ => attachedToHelp next rest
    | some (.setting _), _ :: _, _ | some (.setting _), [], .operand _ :: _ => .help
    | _, _, _ => .wrong

/-- Reads words. -/
def read (d : Draft) : List Word → Except Usage Draft
  | [] => .ok d
  | .separator :: .operand t :: ws | .operand t :: .separator :: ws | .operand t :: ws =>
    (d.operand t).read ws
  | .separator :: ws | .unknown :: ws => { d with surplus := true : Draft }.read ws
  | .ambiguous :: _ => .error .wrong
  | .long .help none :: _ | .short .help none :: _ => .error .help
  | .short .help (some (c :: t)) :: ws => .error (attachedToHelp ws (c :: t))
  | .long (.switch s) none :: ws | .short (.switch s) none :: ws => (d.switch s).read ws
  | .long (.setting s) none :: .operand t :: ws | .short (.setting s) none :: .operand t :: ws =>
    (d.setting (some t) s).read ws
  | .long (.setting s) (some t) :: ws | .short (.setting s) (some t) :: ws =>
    (d.setting (attachedValue? t) s).read ws
  | .long .. :: _ | .short .. :: _ => .error .wrong

/-- What the words ask for, if they name a source and all of them mean something. -/
def finish (d : Draft) : Except Usage Arguments :=
  match d.source, d.surplus with
  | some source, false =>
    let has (s : Switch) : Bool := d.switches.contains s
    .ok ⟨source, d.output, has .emitInput, has .run, has .json,
      (d.globals.mapM id).map (⟨!has .noHoist, ·, has .strict⟩)⟩
  | _, _ => .error .wrong

end Draft

/-- Reads the arguments of a command line. -/
def Arguments.ofTexts (args : List Text) : Except Usage Arguments := do
  let words := Word.ofArguments args
  if words.contains .ambiguous then throw .wrong
  (← Draft.empty.read words).finish

end FlatScope.CommandLine
