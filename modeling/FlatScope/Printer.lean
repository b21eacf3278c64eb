import FlatScope.Syntax

/-!
# Printing programs

A program is printed with one statement to a line and two blanks of indentation to a block. An
`else` whose block is a single `if` is printed as `else if`. Parentheses are written only where the
tree would otherwise read back differently: around an operand that binds less tightly than its
operator, or as tightly on the right, and around a function that begins a statement or is called.

The signal expressions of lowered programs look like uses of an object `$signal`. They and the names
that the lowering makes up are for reading only.
-/

namespace FlatScope

variable {α : Type}

/-! ## Literals -/

/-- How a code point is written in a string literal. -/
def Literal.escapeCode (c : CodePoint) : Text :=
  if c = Text.code '\\' then "\\\\"
  else if c = Text.code '"' then "\\\""
  else if c = Text.code '\n' then "\\n"
  else if c = Text.code '\t' then "\\t"
  else if c = Text.code '\r' then "\\r"
  else [c]

/-- A text as a string literal. -/
def Literal.quote (t : Text) : Text :=
  [Text.code '"'] ++ t.flatMap Literal.escapeCode ++ [Text.code '"']

/-- A constant as a literal. -/
def Literal.format : Literal → Text
  | .undefined => "undefined"
  | .bool true => "true"
  | .bool false => "false"
  | .number n => n.literalText
  | .text t => Literal.quote t

/-! ## Layout -/

namespace Printer

/-- The indentation of a line at the given level. -/
def pad (level : Nat) : Text := List.replicate (2 * level) (Text.code ' ')

def openBrace : Text := [0x7B]

def closeBrace : Text := [0x7D]

/-- A block between braces after `lead`, given the lines in it, indented to the level of the line
    it starts on. -/
def braced (lead : Text) (lines : List Text) (level : Nat) : List Text :=
  match lines with
  | [] => [lead ++ openBrace ++ closeBrace]
  | _ => [lead ++ openBrace] ++ lines ++ [pad level ++ closeBrace]

/-- Lines continued by further lines, the first of which goes on the last line. -/
def continueWith (lines more : List Text) : List Text :=
  match more with
  | [] => lines
  | first :: rest => lines.dropLast ++ [(lines.getLast?.getD []) ++ " " ++ first] ++ rest

/-- The text in parentheses if `wrap` holds. -/
def wrapIf (wrap : Bool) (t : Text) : Text := if wrap then "(" ++ t ++ ")" else t

/-- Names between commas. -/
def names (ns : List Name) : Text := Text.join ", " ns

end Printer

open Printer

/-! ## Expressions and statements -/

/-- How tightly an operator holds its operands together. -/
def BinaryOp.precedence : BinaryOp → Nat
  | .or => 1
  | .and => 2
  | .eq | .ne => 3
  | .lt | .le | .gt | .ge => 4
  | .add | .sub => 5
  | .mul | .div | .mod => 6
  | .other _ => 0

/-- How tightly an expression holds together. -/
def Expr.precedence : Expr α → Nat
  | .binary _ op _ _ => op.precedence
  | .unary .. => 7
  | .function .. => 0
  | _ => 9

/-- The name of the class of a statement. -/
def Stmt.className : Stmt α → Text
  | .declaration .. => "Declaration"
  | .assignment .. => "Assignment"
  | .expression .. => "ExprStmt"
  | .block _ => "Block"
  | .branch .. => "If"
  | .loop .. => "Loop"
  | .ret .. => "Return"
  | .brk _ => "Break"
  | .cont _ => "Continue"
  | .unknown _ n => n

/-- A function, which stands by itself unless it is in parentheses. -/
def Expr.isFunction : Expr α → Bool
  | .function .. => true
  | _ => false

mutual

/-- An expression, on a line of the given level. -/
def Expr.format (level : Nat) : Expr α → Text
  | .literal _ v => v.format
  | .name _ n => n
  | .unary _ op e => op.symbol ++ wrapIf (e.precedence ≤ 7) (e.format level)
  | .binary _ op l r =>
    wrapIf (l.precedence < op.precedence) (l.format level) ++ " " ++ op.symbol ++ " " ++
      wrapIf (r.precedence ≤ op.precedence) (r.format level)
  | .call _ f args =>
    wrapIf (f.precedence < 8) (f.format level) ++
      "(" ++ Text.join ", " (Expr.formatList level args) ++ ")"
  | .index _ b i => wrapIf (b.precedence < 8) (b.format level) ++ "[" ++ i.format level ++ "]"
  | .array _ es => "[" ++ Text.join ", " (Expr.formatList level es) ++ "]"
  | .function _ ps b =>
    Text.join "\n" (braced ("function (" ++ names ps ++ ") ") (b.formatLines (level + 1)) level)
  | .signal _ (some .ret) v =>
    "$signal.return(" ++ (match v with
      | none => []
      | some e => e.format level) ++ ")"
  | .signal _ k _ => "$signal." ++ SignalKind.word k
  | .signalIs _ s k => "$signal.is(" ++ s.format level ++ ", \"" ++ SignalKind.word k ++ "\")"
  | .signalValue _ s => "$signal.value(" ++ s.format level ++ ")"
  | .unknown _ n => "<invalid expr " ++ n ++ ">"

def Expr.formatList (level : Nat) : List (Expr α) → List Text
  | [] => []
  | e :: es => e.format level :: Expr.formatList level es

/-- The lines of the statements of a block at the given level. -/
def Block.formatLines (level : Nat) : Block α → List Text
  | .mk _ ss => Stmt.formatList level ss

/-- A declaration, an assignment or an expression, without a semicolon. -/
def Stmt.formatClause (level : Nat) : Stmt α → Text
  | .declaration _ n k none => k.keyword ++ " " ++ n
  | .declaration _ n k (some e) => k.keyword ++ " " ++ n ++ " = " ++ e.format level
  | .assignment _ t v => t.format level ++ " = " ++ v.format level
  | .expression _ e => wrapIf e.isFunction (e.format level)
  | s => "<invalid stmt " ++ s.className ++ ">"

/-- The lines of a statement at the given level. -/
def Stmt.format (level : Nat) : Stmt α → List Text
  | .declaration _ n k none => [pad level ++ k.keyword ++ " " ++ n ++ ";"]
  | .declaration _ n k (some e) =>
    [pad level ++ k.keyword ++ " " ++ n ++ " = " ++ e.format level ++ ";"]
  | .assignment _ t v => [pad level ++ t.format level ++ " = " ++ v.format level ++ ";"]
  | .expression _ e => [pad level ++ wrapIf e.isFunction (e.format level) ++ ";"]
  | .ret _ none => [pad level ++ "return;"]
  | .ret _ (some e) => [pad level ++ "return " ++ e.format level ++ ";"]
  | .brk _ => [pad level ++ "break;"]
  | .cont _ => [pad level ++ "continue;"]
  | .block b => braced (pad level) (b.formatLines (level + 1)) level
  | .branch _ c t e =>
    continueWith
      (braced (pad level ++ "if (" ++ c.format level ++ ") ") (t.formatLines (level + 1)) level)
      (match e with
        | none => []
        | some b => b.formatElse level)
  | .loop _ h b =>
    match h with
    | .unknown _ n => [pad level ++ "<invalid loop header " ++ n ++ ">"]
    | h => braced (pad level ++ h.format level) (b.formatLines (level + 1)) level
  | .unknown _ n => [pad level ++ "<invalid stmt " ++ n ++ ">"]

def Stmt.formatList (level : Nat) : List (Stmt α) → List Text
  | [] => []
  | s :: ss => s.format level ++ Stmt.formatList level ss

/-- The lines of an `else` with the given block, the first without indentation. -/
def Block.formatElse (level : Nat) : Block α → List Text
  | .mk _ [.branch _ c t e] =>
    continueWith
      (braced ("else if (" ++ c.format level ++ ") ") (t.formatLines (level + 1)) level)
      (match e with
        | none => []
        | some b => b.formatElse level)
  | .mk _ ss => braced "else " (Stmt.formatList (level + 1) ss) level

/-- The words of a loop before its body. -/
def Header.format (level : Nat) : Header α → Text
  | .whileTrue _ c => "while (" ++ c.format level ++ ") "
  | .counting _ i c u =>
    "for (" ++
      (match i with
        | none => []
        | some s => s.formatClause level) ++ "; " ++
      (match c with
        | none => []
        | some e => e.format level) ++ "; " ++
      (match u with
        | none => []
        | some s => s.formatClause level) ++ ") "
  | .forOf _ n k e =>
    "for (" ++
      (match k with
        | none => []
        | some k => k.keyword ++ " ") ++ n ++ " of " ++ e.format level ++ ") "
  | .unknown _ n => "<invalid loop header " ++ n ++ ">"

end

/-! ## Functions and programs -/

/-- A function declared at the top of a program. -/
def FunctionDef.format (fn : FunctionDef α) : Text :=
  Text.join "\n"
    (braced ("function " ++ fn.name ++ "(" ++ names fn.params ++ ") ") (fn.body.formatLines 1) 0)

/-- A program: its functions, then the statements outside them, with empty lines between. -/
def Program.format (p : Program α) : Text :=
  let main := match p.statements with
    | [] => []
    | ss => [Text.join "\n" (Stmt.formatList 0 ss)]
  Text.join "\n\n" (p.functions.map FunctionDef.format ++ main) ++ "\n"

end FlatScope
