import FlatScope.Number

/-!
# Syntax

The trees of the language: a small imperative language with closures, block-scoped and
function-scoped declarations and three kinds of loops. The same trees describe what is read and
what the lowering makes of it; the lowered programs declare only `var`s and use the three signal
expressions, which nobody writes.

Every node carries a *mark* of a type of choice: its place in the source when it is read, its
number beside that when it is analysed.

A node may also be of a class that the language does not know. Such a node has nothing but the
name of its class; each consumer has its own answer to it.
-/

namespace FlatScope

/-- An identifier. -/
abbrev Name := Text

/-- The three ways to declare a variable. -/
inductive DeclKind where
  | var
  | letVar
  | const
  deriving DecidableEq, Repr, Inhabited

namespace DeclKind

/-- A declaration is scoped to its block, unless it is a `var`. -/
def isBlockScoped : DeclKind → Bool
  | .var => false
  | .letVar | .const => true

/-- The keyword of a declaration. -/
def keyword : DeclKind → Text
  | .var => "var"
  | .letVar => "let"
  | .const => "const"

end DeclKind

/-- The three ways to leave a piece of code early. -/
inductive Exit where
  | ret
  | brk
  | cont
  deriving DecidableEq, Repr, Inhabited

namespace Exit

/-- The keyword of an early exit. -/
def keyword : Exit → Text
  | .ret => "return"
  | .brk => "break"
  | .cont => "continue"

/-- The exits in the order in which they are tested for. -/
def all : List Exit := [.ret, .brk, .cont]

end Exit

/-- The kind of a signal: the early exit that it stands for, or none for the marker of code that
    was not left early. -/
abbrev SignalKind := Option Exit

/-- The word for a kind of signal. -/
def SignalKind.word : SignalKind → Text
  | none => "none"
  | some e => e.keyword

inductive UnaryOp where
  | not
  | neg
  | other (symbol : Text)
  deriving DecidableEq, Repr

namespace UnaryOp

def symbol : UnaryOp → Text
  | .not => "!"
  | .neg => "-"
  | .other s => s

/-- The operator with the given symbol. -/
def ofSymbol (s : Text) : UnaryOp :=
  if s = UnaryOp.not.symbol then .not else if s = UnaryOp.neg.symbol then .neg else .other s

end UnaryOp

inductive BinaryOp where
  | or
  | and
  | eq
  | ne
  | lt
  | le
  | gt
  | ge
  | add
  | sub
  | mul
  | div
  | mod
  | other (symbol : Text)
  deriving DecidableEq, Repr

namespace BinaryOp

def symbol : BinaryOp → Text
  | .or => "||"
  | .and => "&&"
  | .eq => "=="
  | .ne => "!="
  | .lt => "<"
  | .le => "<="
  | .gt => ">"
  | .ge => ">="
  | .add => "+"
  | .sub => "-"
  | .mul => "*"
  | .div => "/"
  | .mod => "%"
  | .other s => s

/-- The operators of the language. -/
def all : List BinaryOp := [.or, .and, .eq, .ne, .lt, .le, .gt, .ge, .add, .sub, .mul, .div, .mod]

/-- The operator with the given symbol. -/
def ofSymbol (s : Text) : BinaryOp :=
  (all.find? (·.symbol = s)).getD (.other s)

end BinaryOp

/-- A constant. -/
inductive Literal where
  | undefined
  | bool (b : Bool)
  | number (n : Number)
  | text (t : Text)
  deriving DecidableEq, Repr

mutual

/-- An expression. -/
inductive Expr (α : Type) where
  | literal (mark : α) (value : Literal)
  | name (mark : α) (ident : Name)
  | unary (mark : α) (op : UnaryOp) (operand : Expr α)
  | binary (mark : α) (op : BinaryOp) (left right : Expr α)
  | call (mark : α) (func : Expr α) (args : List (Expr α))
  | array (mark : α) (elements : List (Expr α))
  | index (mark : α) (base position : Expr α)
  | function (mark : α) (params : List Name) (body : Block α)
  /-- The signal of an early exit, with the value that a `return` carries; or the marker of no
      exit. -/
  | signal (mark : α) (kind : SignalKind) (value : Option (Expr α))
  /-- Whether the subject is a signal of the given kind. -/
  | signalIs (mark : α) (subject : Expr α) (kind : SignalKind)
  /-- The value that a signal carries. -/
  | signalValue (mark : α) (subject : Expr α)
  | unknown (mark : α) (className : Text)

/-- Statements in braces. -/
inductive Block (α : Type) where
  | mk (mark : α) (statements : List (Stmt α))

/-- A statement. -/
inductive Stmt (α : Type) where
  | declaration (mark : α) (name : Name) (kind : DeclKind) (value : Option (Expr α))
  | assignment (mark : α) (target value : Expr α)
  | expression (mark : α) (expr : Expr α)
  | block (body : Block α)
  | branch (mark : α) (condition : Expr α) (thenBlock : Block α) (elseBlock : Option (Block α))
  | loop (mark : α) (header : Header α) (body : Block α)
  | ret (mark : α) (value : Option (Expr α))
  | brk (mark : α)
  | cont (mark : α)
  | unknown (mark : α) (className : Text)

/-- What a loop repeats over. -/
inductive Header (α : Type) where
  | whileTrue (mark : α) (condition : Expr α)
  | counting (mark : α) (init : Option (Stmt α)) (condition : Option (Expr α))
      (update : Option (Stmt α))
  /-- A loop over the elements of a sequence. Without a kind it assigns a variable declared
      elsewhere. -/
  | forOf (mark : α) (name : Name) (kind : Option DeclKind) (iterable : Expr α)
  | unknown (mark : α) (className : Text)

end

/-- A function declared at the top of a program. -/
structure FunctionDef (α : Type) where
  mark : α
  name : Name
  params : List Name
  body : Block α

/-- A program: its functions, and the statements outside them. -/
structure Program (α : Type) where
  functions : List (FunctionDef α)
  statements : List (Stmt α)

variable {α : Type}

instance [Inhabited α] : Inhabited (Expr α) := ⟨.literal default .undefined⟩

instance [Inhabited α] : Inhabited (Block α) := ⟨.mk default []⟩

instance [Inhabited α] : Inhabited (Stmt α) := ⟨.brk default⟩

instance [Inhabited α] : Inhabited (Header α) := ⟨.whileTrue default default⟩

namespace Block

def mark : Block α → α
  | .mk a _ => a

def statements : Block α → List (Stmt α)
  | .mk _ ss => ss

end Block

namespace Expr

def mark : Expr α → α
  | .literal a _ | .name a _ | .unary a _ _ | .binary a _ _ _ | .call a _ _ | .array a _
  | .index a _ _ | .function a _ _ | .signal a _ _ | .signalIs a _ _ | .signalValue a _
  | .unknown a _ => a

end Expr

namespace Header

def mark : Header α → α
  | .whileTrue a _ | .counting a _ _ _ | .forOf a _ _ _ | .unknown a _ => a

end Header

namespace Stmt

def mark : Stmt α → α
  | .declaration a _ _ _ | .assignment a _ _ | .expression a _ | .branch a _ _ _ | .loop a _ _
  | .ret a _ | .brk a | .cont a | .unknown a _ => a
  | .block b => b.mark

end Stmt

/-- The name of the function that the statements outside all functions form. It is no identifier,
    so no program can call or shadow that function. -/
def mainName : Name := "<main>"

/-- The statements outside all functions as a function, with the given mark. -/
def Program.main (mark : α) (p : Program α) : FunctionDef α :=
  ⟨mark, mainName, [], .mk mark p.statements⟩

end FlatScope
