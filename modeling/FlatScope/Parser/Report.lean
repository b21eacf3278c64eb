import FlatScope.Diagnostic
import FlatScope.Parser
import FlatScope.Syntax.Map

/-!
# Reading a source file

A source is read into a program whose marks say where in which file each node stands. What is wrong
with a source is reported as one diagnostic: `E0001` if the grammar does not allow it, `E0002` if
something else is wrong. An integer with too many digits is not reported in this way.
-/

namespace FlatScope.Parser

/-- Reads the source of the given file. -/
def parseFile (source : Text) (file : Option Text) : Except SyntaxError (Program Span) :=
  (parse source).map (Program.map (Span.ofExtent file))

/-- A diagnostic of the parser. -/
def diagnosticOf (code message : Text) (span : Span) : Diagnostic :=
  ⟨message, some code, some "parser", Diagnostic.error, span, [], none⟩

/-- The diagnostic for an error in the given file, if it is one that is reported. -/
def SyntaxError.diagnostic? (file : Option Text) (e : SyntaxError) : Option Diagnostic :=
  match e with
  | .unexpected t => some (diagnosticOf "E0001" e.message (.ofPosition file t.extent.start))
  | .unexpectedEnd place | .noTerminal _ place =>
    some (diagnosticOf "E0001" e.message (.ofPosition file place))
  | .fault (.literal (.tooLong _)) _ => none
  | .fault _ place => some (diagnosticOf "E0002" e.message (.ofExtent file place))

end FlatScope.Parser
