import FlatScope.Text

/-!
# JSON

Values of the data format JSON, and their text on one line: a blank follows every comma and colon,
members keep their order, and everything outside of printable ASCII is escaped, a code point above
U+FFFF by the two halves of its surrogate pair.
-/

namespace FlatScope

/-- A JSON value; of numbers only the integers. -/
inductive Json where
  | null
  | bool (b : Bool)
  | int (n : Int)
  | text (t : Text)
  | array (items : List Json)
  | object (members : List (Text × Json))
  deriving Inhabited

namespace Json

/-- An integer, or null. -/
def ofInt? : Option Int → Json
  | some n => .int n
  | none => .null

/-- A text, or null. -/
def ofText? : Option Text → Json
  | some t => .text t
  | none => .null

/-- The texts of a list. -/
def ofTexts (ts : List Text) : Json := .array (ts.map .text)

/-- The escape of a 16-bit unit. -/
def unitEscape (n : Nat) : Text := "\\u" ++ Text.hex 4 n

/-- How a code point is written inside quotes. -/
def escapeCode (c : CodePoint) : Text :=
  if c = Text.code '"' then "\\\""
  else if c = Text.code '\\' then "\\\\"
  else if c = 0xA then "\\n"
  else if c = 0xD then "\\r"
  else if c = 0x9 then "\\t"
  else if c = 0x8 then "\\b"
  else if c = 0xC then "\\f"
  else if 0x20 ≤ c ∧ c < 0x7F then [c]
  else if c < 0x10000 then unitEscape c
  else unitEscape (0xD800 + (c - 0x10000) / 0x400) ++ unitEscape (0xDC00 + (c - 0x10000) % 0x400)

/-- A text in quotes. -/
def quote (t : Text) : Text := [Text.code '"'] ++ t.flatMap escapeCode ++ [Text.code '"']

mutual

/-- The text of a value. -/
def print : Json → Text
  | .null => "null"
  | .bool true => "true"
  | .bool false => "false"
  | .int n => Text.ofInt n
  | .text t => quote t
  | .array items => "[" ++ Text.join ", " (printItems items) ++ "]"
  | .object members => [0x7B] ++ Text.join ", " (printMembers members) ++ [0x7D]

def printItems : List Json → List Text
  | [] => []
  | j :: js => print j :: printItems js

def printMembers : List (Text × Json) → List Text
  | [] => []
  | (key, j) :: ms => (quote key ++ ": " ++ print j) :: printMembers ms

end

end Json

end FlatScope
