import FlatScope.Token
import FlatScope.Text.Digit

/-!
# Splitting a source into tokens

At each place the first of these that matches is taken: white space and comments up to the end of
the line, which are skipped; words; numbers; strings in either kind of quotes; operators and
punctuation marks, the longer ones first. Where none matches the tokens end.
-/

namespace FlatScope

namespace Token

/-- The white space between tokens. -/
def isSpace (c : CodePoint) : Bool := c = 0x20 ∨ c = 0x9 ∨ c = 0xC ∨ c = 0xD ∨ c = 0xA

/-- The length of the rest of a string literal up to its closing quote: a backslash takes the
    following code point with it, unless that is a line feed. -/
def stringLength? (quote : CodePoint) : Text → Option Nat
  | [] => none
  | [c] => if c = quote then some 1 else none
  | c :: d :: r =>
    if c = quote then some 1
    else if c = Text.code '\\' then
      if d = Text.code '\n' then none else (stringLength? quote r).map (· + 2)
    else (stringLength? quote (d :: r)).map (· + 1)

/-- The length of a number at the start of a text: digits, and a fraction if digits follow the
    point. -/
def numberLength (t : Text) : Nat :=
  let whole := (t.takeWhile Text.isDecimalDigit).length
  match t.drop whole with
  | c :: r =>
    let fraction := (r.takeWhile Text.isDecimalDigit).length
    if c = Text.code '.' ∧ 0 < fraction then whole + 1 + fraction else whole
  | [] => whole

/-- What a source holds at one place. -/
inductive Lexeme where
  | skipped (length : Nat)
  | token (terminal : Terminal) (length : Nat)
  | nothing

/-- What a source that starts with the code point `c` holds there. -/
def lexeme (c : CodePoint) (rest : Text) : Lexeme :=
  if isSpace c then .skipped 1
  else if c = Text.code '/' ∧ rest.head? = some (Text.code '/') then
    .skipped (1 + (rest.takeWhile (· ≠ Text.code '\n')).length)
  else if Text.isNameStart c then
    let word := c :: rest.takeWhile Text.isNamePart
    .token (Terminal.ofWord word) word.length
  else if Text.isDecimalDigit c then .token .number (numberLength (c :: rest))
  else if c = Text.code '"' ∨ c = Text.code '\'' then
    match stringLength? c rest with
    | some n => .token .string (1 + n)
    | none => .nothing
  else
    match Terminal.symbols.find? (·.1.isPrefixOf (c :: rest)) with
    | some (symbol, terminal) => .token terminal symbol.length
    | none => .nothing

/-- Why the tokens of a source end. -/
inductive Stop where
  /-- The source is at its end. -/
  | finished
  /-- Nothing matches at the given place, which holds the given code point. -/
  | noTerminal (c : CodePoint) (place : Position)
  deriving DecidableEq, Repr

/-- The tokens of the source `t` that starts at `p`, and why they end. At most `fuel` steps are
    taken; the length of the source suffices, as each step takes a code point or more. -/
def scanFrom : Nat → Position → Text → List Token × Stop
  | _, _, [] => ([], .finished)
  | 0, p, c :: _ => ([], .noTerminal c p)
  | fuel + 1, p, c :: rest =>
    match lexeme c rest with
    | .nothing => ([], .noTerminal c p)
    | .skipped n =>
      scanFrom fuel (p.after ((c :: rest).take n)) ((c :: rest).drop n)
    | .token terminal n =>
      let text := (c :: rest).take n
      let (tokens, stop) := scanFrom fuel (p.after text) ((c :: rest).drop n)
      (⟨terminal, text, ⟨p, p.after text⟩⟩ :: tokens, stop)

/-- The tokens of a source, and why they end. -/
def scan (source : Text) : List Token × Stop := scanFrom source.length .origin source

end Token

end FlatScope
