import FlatScope.Span
import FlatScope.Syntax
import FlatScope.Text.Quoted

/-!
# Trees written out

The text of a tree with all of its parts: every node by the name of its class and its fields, the
place among them, names and texts in quotes. This is how the code of a function is shown inside of
a signal.
-/

namespace FlatScope

namespace Explicit

/-- A thing by the name of its class and its fields. -/
def record (className : Text) (fields : List (Text × Text)) : Text :=
  className ++ "(" ++ Text.join ", " (fields.map fun (name, value) => name ++ "=" ++ value) ++ ")"

/-- The things of a list. -/
def items (ts : List Text) : Text := "[" ++ Text.join ", " ts ++ "]"

/-- What stands for something missing. -/
def missing : Text := "None"

def number? (n : Option Int) : Text := (n.map Text.ofInt).getD missing

def text? (t : Option Text) : Text := (t.map Text.quoted).getD missing

def names (ns : List Name) : Text := items (ns.map Text.quoted)

def truth (b : Bool) : Text := if b then "True" else "False"

/-- One of the words of a class. -/
def word (className constant value : Text) : Text :=
  "<" ++ className ++ "." ++ constant ++ ": " ++ value.quoted ++ ">"

def declKind (k : DeclKind) : Text :=
  let constant : Text := match k with
    | .var => "VAR"
    | .letVar => "LET"
    | .const => "CONST"
  word "DeclKind" constant k.keyword

def signalKind (k : SignalKind) : Text :=
  let constant : Text := match k with
    | none => "NONE"
    | some .ret => "RETURN"
    | some .brk => "BREAK"
    | some .cont => "CONTINUE"
  word "SignalKind" constant (SignalKind.word k)

/-- A constant. -/
def literal : Literal → Text
  | .undefined => missing
  | .bool b => truth b
  | .number n => n.literalText
  | .text t => t.quoted

/-- A place. -/
def span (s : Span) : Text :=
  record "Span"
    [ ("file", text? s.file), ("line", number? s.line), ("column", number? s.column),
      ("end_line", number? s.endLine), ("end_column", number? s.endColumn) ]

/-- A node by the name of its class and its fields, the last of which is its place. -/
def node (className : Text) (fields : List (Text × Text)) (place : Span) : Text :=
  let loc : Text × Text := ("loc", span place)
  record className (fields ++ [loc])

mutual

def expr : Expr Span → Text
  | .literal m v => node "Literal" [("value", literal v)] m
  | .name m n => node "Name" [("ident", n.quoted)] m
  | .unary m op e => node "Unary" [("op", op.symbol.quoted), ("operand", expr e)] m
  | .binary m op l r =>
    node "Binary" [("op", op.symbol.quoted), ("left", expr l), ("right", expr r)] m
  | .call m f args => node "Call" [("func", expr f), ("args", items (exprs args))] m
  | .array m es => node "ArrayLiteral" [("elements", items (exprs es))] m
  | .index m b i => node "Index" [("value", expr b), ("index", expr i)] m
  | .function m ps b => node "FunctionExpr" [("params", names ps), ("body", block b)] m
  | .signal m k v => node "SignalExpr" [("kind", signalKind k), ("value", expr? v)] m
  | .signalIs m e k => node "SignalIs" [("subject", expr e), ("kind", signalKind k)] m
  | .signalValue m e => node "SignalValue" [("subject", expr e)] m
  | .unknown _ n => record n []

def exprs : List (Expr Span) → List Text
  | [] => []
  | e :: es => expr e :: exprs es

def expr? : Option (Expr Span) → Text
  | none => missing
  | some e => expr e

def block : Block Span → Text
  | .mk m ss => node "Block" [("statements", items (stmts ss))] m

def block? : Option (Block Span) → Text
  | none => missing
  | some b => block b

def stmt : Stmt Span → Text
  | .declaration m n k v =>
    node "Declaration" [("name", n.quoted), ("kind", declKind k), ("value", expr? v)] m
  | .assignment m t v => node "Assignment" [("target", expr t), ("value", expr v)] m
  | .expression m e => node "ExprStmt" [("expr", expr e)] m
  | .block b => block b
  | .branch m c t e =>
    node "If" [("condition", expr c), ("then_block", block t), ("else_block", block? e)] m
  | .loop m h b => node "Loop" [("header", header h), ("body", block b)] m
  | .ret m v => node "Return" [("value", expr? v)] m
  | .brk m => node "Break" [] m
  | .cont m => node "Continue" [] m
  | .unknown _ n => record n []

def stmts : List (Stmt Span) → List Text
  | [] => []
  | s :: ss => stmt s :: stmts ss

def stmt? : Option (Stmt Span) → Text
  | none => missing
  | some s => stmt s

def header : Header Span → Text
  | .whileTrue m c => node "WhileHeader" [("condition", expr c)] m
  | .counting m i c u =>
    node "ForHeader" [("init", stmt? i), ("condition", expr? c), ("update", stmt? u)] m
  | .forOf m n k e =>
    node "ForOfHeader"
      [("name", n.quoted), ("kind", (k.map declKind).getD missing), ("iterable", expr e)] m
  | .unknown _ n => record n []

end

end Explicit

end FlatScope
