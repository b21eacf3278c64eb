import FlatScope.CommandLine.Arguments
import FlatScope.CommandLine.Comparison
import FlatScope.Parser.Report
import FlatScope.Path

/-!
# The command

What the command does with a source file: it reads the program, prints it or transforms it, prints
the transformed program or writes it to a file, and may run both programs. Everything is decided
here but for the work of the operating system, so `perform` takes what became of reading the source,
and an `Outcome` says what to write to which file before the command ends.

The exit status is 0 unless there is something to report. Reports go to the standard error, or as a
JSON object to the standard output.
-/

namespace FlatScope.CommandLine

/-- Why a source cannot be read. -/
inductive ReadFailure where
  | missing
  | directory
  | notDirectory
  | other (reason : Text)
  deriving DecidableEq, Repr

/-- The wording of a failure to read. -/
def ReadFailure.reason : ReadFailure → Text
  | .missing => "No such file or directory"
  | .directory => "Is a directory"
  | .notDirectory => "Not a directory"
  | .other r => r

/-- Why a command breaks off. -/
inductive Breakdown where
  /-- A path that no file can have. -/
  | path (f : Path.Fault)
  /-- An option that stands without its value. -/
  | lacking (s : Setting)
  /-- An error in the source that is not reported. -/
  | source (e : Parser.SyntaxError)
  | strayVariable (name : Name)
  | comparison (a : Abort)

/-- The wording of a breakdown. -/
def Breakdown.message : Breakdown → Text
  | .path f => f.message
  | .lacking .output => "no path to write to"
  | .lacking .globalName => "no name for a global"
  | .source e => e.message
  | .strayVariable n => "no declaration of '" ++ n ++ "'"
  | .comparison .unfinished => "the program does not end"
  | .comparison (.interrupted (.failed e)) => e.message
  | .comparison (.interrupted _) => "the program was left by a jump"

/-- What a command prints and its exit status. -/
structure Report where
  status : Nat
  out : Text
  err : Text
  deriving DecidableEq, Repr

/-- What a command does: the file it writes with its content, and how it ends after that. -/
structure Outcome where
  written : Option (Text × Text)
  ending : Except Breakdown Report

namespace Outcome

/-- Ends without writing a file. -/
def report (r : Report) : Outcome := ⟨none, .ok r⟩

/-- Breaks off without writing a file. -/
def breakdown (b : Breakdown) : Outcome := ⟨none, .error b⟩

end Outcome

/-- The text with a line feed for each line end, whether that is a carriage return, a line feed or
    both. -/
def unifyLineEnds : Text → Text
  | [] => []
  | 0xD :: 0xA :: r => 0xA :: unifyLineEnds r
  | c :: r => (if c = 0xD then 0xA else c) :: unifyLineEnds r

namespace Arguments

/-- The path of the source as it is shown. -/
def file (a : Arguments) : Text := Path.normalize a.source

/-- The report of a command that printed `err` before. The program is printed, or is part of the
    report if that is JSON, and then so are the further members. -/
def report (a : Arguments) (program : Option Text) (err : Text) (ds : List Diagnostic)
    (members : List (Text × Json)) : Report :=
  let status : Nat := if ds.isEmpty then 0 else 1
  let line (t : Text) : Text := t ++ "\n"
  if a.json then
    let head : List (Text × Json) :=
      [ ("exit_code", .int status),
        ("diagnostics", .array (ds.map (·.json "driver" (some a.file)))) ]
    let program : List (Text × Json) := program.toList.map fun text => ("program", .text text)
    ⟨status, line (Json.object (head ++ program ++ members)).print, err⟩
  else ⟨status, program.getD [], err ++ ds.flatMap fun d => line (d.format (some a.file))⟩

/-- The report of a command that finds fault before it prints anything. -/
def fault (a : Arguments) (d : Diagnostic) : Outcome := .report (a.report none [] [d] [])

/-- The report on a source that cannot be read. -/
def unreadable (f : ReadFailure) : Diagnostic :=
  ⟨"cannot read source: " ++ f.reason, some "E0900", some "driver", Diagnostic.error, .unknown, [],
    none⟩

/-- What is said if both programs print the same lines. -/
def matchNote (a : Arguments) (c : Comparison) : Text :=
  match a.json, c.common? with
  | false, some lines => "run: outputs match (" ++ Text.ofNat lines.length ++ " line(s))\n"
  | _, _ => []

/-- The comparison of the program with the transformed one, if it is asked for and nothing was
    left out. -/
def comparison? (a : Arguments) (p : Program Span) (t : TransformedProgram) :
    Except Abort (Option Comparison) :=
  if a.run && t.ok then (Comparison.ofPrograms p t.program Eval.allSteps).map some else .ok none

/-- What is done with a transformed program. -/
def deliver (a : Arguments) (p : Program Span) (t : TransformedProgram) : Outcome :=
  let text := t.program.format
  let shown := if a.output = .standardOutput then some text else none
  let ending : Except Breakdown Report :=
    match a.comparison? p t with
    | .error e => .error (.comparison e)
    | .ok none => .ok (a.report shown [] t.diagnostics [])
    | .ok (some c) =>
      .ok (a.report shown (a.matchNote c) (t.diagnostics ++ c.diagnostics) [("run", c.json)])
  match a.output with
  | .standardOutput => ⟨none, ending⟩
  | .unnamed => .breakdown (.lacking .output)
  | .file path =>
    match Path.fault? (Path.normalize path) with
    | some f => .breakdown (.path f)
    | none => ⟨some (Path.normalize path, text), ending⟩

/-- What is done with a program. -/
def process (a : Arguments) (p : Program Span) : Outcome :=
  if a.emitInput then .report (a.report (some p.format) [] [] [])
  else match a.options.map p.transform with
    | none => .breakdown (.lacking .globalName)
    | some (.error (.strayVariable n)) => .breakdown (.strayVariable n)
    | some (.error (.rejected r)) => a.fault (r.diagnostic none)
    | some (.ok t) => a.deliver p t

/-- What is done with the content of the source. -/
def processText (a : Arguments) (content : Text) : Outcome :=
  match Parser.parseFile (unifyLineEnds content) (some a.file) with
  | .ok p => a.process p
  | .error e =>
    match e.diagnostic? (some a.file) with
    | some d => a.fault d
    | none => .breakdown (.source e)

/-- What the command does, given its source or why that cannot be read. -/
def perform (a : Arguments) (source : Except ReadFailure Text) : Outcome :=
  match Path.fault? a.file, source with
  | some f, _ => .breakdown (.path f)
  | none, .error f => a.fault (unreadable f)
  | none, .ok content => a.processText content

end Arguments

end FlatScope.CommandLine
