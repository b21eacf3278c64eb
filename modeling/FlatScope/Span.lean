import FlatScope.Text

/-!
# Places in a source

A `Position` counts lines by line feeds and columns by code points, both from 1. An `Extent` is
the stretch from the first code point of something read to the position after its last one. A
`Span` is what is known about the place of a node: all of an extent and the file for a node that
was read from a file, nothing for a node that was made, and any numbers for one that came with them.
-/

namespace FlatScope

/-- A position in a source. -/
structure Position where
  line : Nat
  column : Nat
  deriving DecidableEq, Repr, Inhabited

namespace Position

/-- The first position of a source. -/
def origin : Position := ⟨1, 1⟩

/-- The position after the code point `c`. -/
def next (p : Position) (c : CodePoint) : Position :=
  if c = Text.code '\n' then ⟨p.line + 1, 1⟩ else ⟨p.line, p.column + 1⟩

/-- The position after a text. -/
def after (p : Position) (t : Text) : Position := t.foldl next p

end Position

/-- A stretch of a source. -/
structure Extent where
  start : Position
  stop : Position
  deriving DecidableEq, Repr, Inhabited

/-- The place of a node, as far as it is known. -/
structure Span where
  file : Option Text
  line : Option Int
  column : Option Int
  endLine : Option Int
  endColumn : Option Int
  deriving DecidableEq, Repr, Inhabited

namespace Span

/-- A place of which nothing is known. -/
def unknown : Span := ⟨none, none, none, none, none⟩

/-- The place of an extent of a file. -/
def ofExtent (file : Option Text) (e : Extent) : Span :=
  ⟨file, some e.start.line, some e.start.column, some e.stop.line, some e.stop.column⟩

/-- A position of a file, whose end is not known. -/
def ofPosition (file : Option Text) (p : Position) : Span :=
  ⟨file, some p.line, some p.column, none, none⟩

/-- The span with the given file, unless it has one already. -/
def withFile (s : Span) (file : Option Text) : Span :=
  { s with file := s.file.or file }

/-- A number, or a question mark if it is not known. -/
def number : Option Int → Text
  | some n => Text.ofInt n
  | none => "?"

/-- The start of a span as `line:column`. -/
def describe (s : Span) : Text := number s.line ++ ":" ++ number s.column

/-- The name of a file that is not empty, the first of two. -/
def fileName? (file other : Option Text) : Option Text :=
  (file.filter (· ≠ [])).or (other.filter (· ≠ []))

end Span

end FlatScope
