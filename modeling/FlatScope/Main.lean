import FlatScope.CommandLine
import FlatScope.Text.Encoding

/-!
# The program

Reads the source file, writes and prints what `FlatScope.CommandLine` decides, and ends with its
exit status.
-/

namespace FlatScope.CommandLine

/-- Reads a file, or tells why it cannot be read. -/
def readSource (path : String) : IO (Except ReadFailure Text) := do
  try
    match String.fromUTF8? (← IO.FS.readBinFile path) with
    | some s => return .ok (Text.ofString s)
    | none => throw (.userError "the source is not in UTF-8")
  catch
    | .noFileOrDirectory .. => return .error .missing
    | .inappropriateType .. => return .error .directory
    | .userError m => throw (.userError m)
    | e => return .error (.other (Text.ofString (toString e)))

/-- The string of a text, or an error if it has none. -/
def encoded (t : Text) : IO String :=
  match t.encode with
  | .ok s => pure s
  | .error u => throw (.userError (String.ofList (u.message.map Char.ofNat)))

/-- Does what the arguments ask for, and returns the exit status. -/
def runArguments (a : Arguments) : IO UInt32 := do
  let outcome := a.perform (← readSource (← encoded a.source))
  match outcome.written with
  | none => pure ()
  | some (path, content) => IO.FS.writeFile (← encoded path) (← encoded content)
  match outcome.ending with
  | .ok r =>
    IO.print (← encoded r.out)
    IO.eprint (← encoded r.err)
    return UInt32.ofNat r.status
  | .error b =>
    IO.eprintln (← encoded b.message)
    return 1

end FlatScope.CommandLine

/-- Runs the command with the given arguments. -/
def main (args : List String) : IO UInt32 :=
  match FlatScope.CommandLine.Arguments.ofTexts (args.map FlatScope.Text.ofString) with
  | .ok a => FlatScope.CommandLine.runArguments a
  | .error u => do
    IO.eprintln "usage: flatscope [-h] [-o OUTPUT] [--emit-input] [--run] [--json] [--no-hoist]"
    IO.eprintln "                 [--strict] [--global NAME] source"
    return UInt32.ofNat u.status
