import FlatScope.Token.Value

/-!
# The parser's stack

The parser reads one token at a time. What it has read so far is a stack of `Frame`s, the innermost
construct first: each frame is a construct that has been begun, with the parts of it that are
complete, and stands at one place of its grammar rule; the frame on top says what may come next.
A complete expression is a frame of its own, `Frame.operand`, until the next token shows what it
belongs to.

This module holds the frames and the two ways in which frames are put together without reading:
pending operators are applied to a complete operand (`Frame.reduce`), and a complete statement goes
into the construct around it (`Frame.complete`).
-/

namespace FlatScope

/-- The level of an operator: those of a higher level bind more tightly, and those of one level
    group to the left. -/
def BinaryOp.level : BinaryOp → Nat
  | .or => 1
  | .and => 2
  | .eq | .ne => 3
  | .le | .ge | .lt | .gt => 4
  | .add | .sub => 5
  | .mul | .div | .mod => 6
  | .other _ => 0

namespace Parser

/-- A complete expression, with the extent of all that was read for it: the parentheses around it
    included, and for operators and suffixes their operands. -/
structure Operand where
  expr : Expr Extent
  outer : Extent

/-- An expression that was read without parentheses, and whose mark spans all of it. -/
def Operand.plain (e : Expr Extent) : Operand := ⟨e, e.mark⟩

/-- The start of a function: where it starts, and its name if it is not an expression. -/
structure FunctionHead where
  start : Position
  name : Option Name

/-- The start of an `if` up to the end of its first block. -/
structure IfHead where
  start : Position
  condition : Expr Extent
  thenBlock : Block Extent

/-- A construct that has been begun. -/
inductive Frame where
  /-- A program; awaits a function, a statement or the end. The parts come last first. -/
  | program (functions : List (FunctionDef Extent)) (statements : List (Stmt Extent))
  /-- A block; awaits a statement or its closing brace. The statements come last first. -/
  | block (start : Position) (statements : List (Stmt Extent))
  /-- A complete expression. -/
  | operand (e : Operand)
  /-- A unary operator; awaits its operand. -/
  | unary (start : Position) (op : UnaryOp)
  /-- A left operand and an operator; awaits the right operand. -/
  | binary (left : Operand) (op : BinaryOp) (place : Extent)
  /-- An opening parenthesis; awaits an expression. -/
  | paren (start : Position)
  /-- A call; awaits an argument, or at first the closing parenthesis. Arguments come last first. -/
  | call (func : Operand) (start : Position) (args : List (Expr Extent))
  /-- An access; awaits the position. -/
  | index (base : Operand) (start : Position)
  /-- An array; awaits an element, or at first the closing bracket. Elements come last first. -/
  | array (start : Position) (elements : List (Expr Extent))
  /-- The word that begins a function; awaits a parenthesis, or at the top of a program a name. -/
  | functionWord (start : Position) (top : Bool)
  /-- The name of a function; awaits a parenthesis. -/
  | functionName (head : FunctionHead)
  /-- An opening parenthesis before parameters; awaits a name or the closing one. -/
  | paramsOpen (head : FunctionHead)
  /-- Parameters, last first; awaits a comma or the closing parenthesis. -/
  | params (head : FunctionHead) (names : List Name)
  /-- Parameters and a comma; awaits a name. -/
  | paramsComma (head : FunctionHead) (names : List Name)
  /-- All parameters; awaits the opening brace. -/
  | paramsClosed (head : FunctionHead) (names : List Name)
  /-- A function whose body is the block above. -/
  | body (head : FunctionHead) (names : List Name)
  /-- An expression statement or an assignment; awaits the expression or the target. -/
  | simple
  /-- The target of an assignment and the equals sign; awaits the value. -/
  | assign (target : Operand)
  /-- The word that begins a declaration; awaits the name. -/
  | declareWord (start : Position) (kind : DeclKind)
  /-- A declaration with its name; awaits an equals sign or the end. -/
  | declareName (start : Position) (kind : DeclKind) (name : Token)
  /-- A declaration up to the equals sign; awaits the value. -/
  | declareValue (start : Position) (kind : DeclKind) (name : Token)
  /-- A `return`; awaits a value or the end. -/
  | returnWord (place : Extent)
  /-- A `break` or `continue`; awaits the end. -/
  | jump (s : Stmt Extent)
  /-- An `if`; awaits the opening parenthesis. -/
  | ifWord (start : Position)
  /-- An `if` and the parenthesis; awaits the condition. -/
  | ifOpen (start : Position)
  /-- An `if` with its condition; awaits the opening brace. -/
  | ifCondition (start : Position) (condition : Expr Extent)
  /-- An `if` whose first block is above. -/
  | ifThen (start : Position) (condition : Expr Extent)
  /-- An `if` with its first block; awaits an `else` or whatever follows the statement. -/
  | ifElse (head : IfHead)
  /-- An `if` and an `else`; awaits a block or another `if`. -/
  | elseWord (head : IfHead)
  /-- An `if` whose second block is above. -/
  | elseBlock (head : IfHead)
  /-- An `if` whose `else` has the `if` above. -/
  | elseIf (head : IfHead)
  /-- A `while`; awaits the opening parenthesis. -/
  | whileWord (start : Position)
  /-- A `while` and the parenthesis; awaits the condition. -/
  | whileOpen (start : Position)
  /-- A `for`; awaits the opening parenthesis. -/
  | forWord (start : Position)
  /-- A `for` and the parenthesis; awaits the first clause or the word that begins it. -/
  | forOpen (start : Position)
  /-- A `for`, the parenthesis and a name; awaits `of` or the rest of an expression. -/
  | forName (start : Position) (name : Token)
  /-- A `for`, the parenthesis and the word of a declaration; awaits the name. -/
  | forDeclare (start : Position) (wordStart : Position) (kind : DeclKind)
  /-- A `for`, the parenthesis and a declared name; awaits `of` or the rest of the declaration. -/
  | forDeclareName (start : Position) (wordStart : Position) (kind : DeclKind) (name : Token)
  /-- A `for` up to the word `of`; awaits the sequence. -/
  | forOf (start : Position) (kind : Option DeclKind) (name : Token)
  /-- A `for` with its first clause; awaits the condition or the semicolon. -/
  | forCondition (start : Position) (init : Option (Stmt Extent))
  /-- A `for` with its first two clauses; awaits the third or the closing parenthesis. -/
  | forUpdate (start : Position) (init : Option (Stmt Extent)) (condition : Option (Expr Extent))
  /-- A loop up to the parenthesis after its header, which has yet to get its extent; awaits the
      opening brace. -/
  | loopHead (start : Position) (header : Extent → Header Extent)
  /-- A loop whose body is above. -/
  | loopBody (start : Position) (header : Extent → Header Extent)

/-- What the parser has read, the innermost construct first. -/
abbrev Stack := List Frame

/-! ## Putting frames together -/

/-- A unary operator with its operand. -/
def Operand.unary (start : Position) (op : UnaryOp) (e : Operand) : Operand :=
  .plain (.unary ⟨start, e.outer.stop⟩ op e.expr)

/-- A binary operator with its operands; its mark is that of the operator alone. -/
def Operand.binary (left : Operand) (op : BinaryOp) (place : Extent) (right : Operand) : Operand :=
  ⟨.binary place op left.expr right.expr, ⟨left.outer.start, right.outer.stop⟩⟩

/-- Applies to `e` the operators pending on the stack that bind at least as tightly as a binary
    operator of level `p`. -/
def reduce (p : Nat) (e : Operand) : Stack → Operand × Stack
  | .unary start op :: rest => reduce p (e.unary start op) rest
  | .binary left op place :: rest =>
    if p ≤ op.level then reduce p (left.binary op place e) rest
    else (e, .binary left op place :: rest)
  | rest => (e, rest)

/-- Applies to `e` all operators pending on the stack. -/
def reduceAll (e : Operand) (stack : Stack) : Operand × Stack := reduce 0 e stack

/-- An `if` with the given `else`. -/
def IfHead.build (head : IfHead) (elseBlock : Option (Block Extent)) : Stmt Extent :=
  let stop := (elseBlock.getD head.thenBlock).mark.stop
  .branch ⟨head.start, stop⟩ head.condition head.thenBlock elseBlock

/-- Puts a complete statement into the construct around it. An `if` that follows an `else`
    completes the `if` before it, as the only statement of its second block. -/
def complete (s : Stmt Extent) : Stack → Option Stack
  | .program fs ss :: rest => some (.program fs (s :: ss) :: rest)
  | .block start ss :: rest => some (.block start (s :: ss) :: rest)
  | .elseIf head :: rest => complete (head.build (some (.mk s.mark [s]))) rest
  | _ => none

/-- A loop over its complete body. -/
def loopOf (start : Position) (header : Extent → Header Extent) (body : Block Extent) :
    Stmt Extent :=
  let place := ⟨start, body.mark.stop⟩
  .loop place (header place) body

/-- Puts a complete block into the construct whose block it is. -/
def closeBlock (b : Block Extent) : Stack → Option Stack
  | .body ⟨start, some name⟩ names :: .program fs ss :: rest =>
    some (.program (⟨⟨start, b.mark.stop⟩, name, names.reverse, b⟩ :: fs) ss :: rest)
  | .body ⟨start, none⟩ names :: rest =>
    some (.operand (.plain (.function ⟨start, b.mark.stop⟩ names.reverse b)) :: rest)
  | .ifThen start condition :: rest => some (.ifElse ⟨start, condition, b⟩ :: rest)
  | .elseBlock head :: rest => complete (head.build (some b)) rest
  | .loopBody start header :: rest => complete (loopOf start header b) rest
  | rest => complete (.block b) rest

end Parser

end FlatScope
