import FlatScope.Text.Printable

/-!
# Quoted text

Messages show a text in quotes, on one line and with every code point visible. The quotes are
single, unless the text holds a single quote and no double one. Backslashes, the enclosing quote
and the three usual control characters are escaped by a letter, other unprintable code points by
their number in hexadecimal.
-/

namespace FlatScope.Text

/-- How the code point `c` is written between two of the given quotes. -/
def quotedCode (quote c : CodePoint) : Text :=
  if c = quote ∨ c = code '\\' then [code '\\', c]
  else if c = code '\n' then "\\n"
  else if c = code '\t' then "\\t"
  else if c = code '\r' then "\\r"
  else if isPrintable c then [c]
  else if c < 0x100 then "\\x" ++ hex 2 c
  else if c < 0x10000 then "\\u" ++ hex 4 c
  else "\\U" ++ hex 8 c

/-- The text in quotes. -/
def quoted (t : Text) : Text :=
  let quote := if t.contains (code '\'') && !t.contains (code '"') then code '"' else code '\''
  [quote] ++ t.flatMap (quotedCode quote) ++ [quote]

end FlatScope.Text
