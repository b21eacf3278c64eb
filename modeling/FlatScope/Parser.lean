import FlatScope.Parser.Stack
import FlatScope.Token.Lexer
import FlatScope.Text.Blank
import FlatScope.Text.Quoted

/-!
# The parser

A pushdown machine without look-ahead: `step` takes the stack over one token, or refuses the token.
What is on the stack can always be continued to a program, so the first token that is refused is
the first one that no program can have at its place, and it is the one that is reported; a place of
the source where no terminal matches is reported in its turn among the tokens.

Two things are wrong with a program that is no matter of the grammar: an assignment to something
that is neither a name nor an access, and a literal without a value. The first of these in the
order of reading is kept, and reported once the whole source has been read.
-/

namespace FlatScope.Parser

/-- What is wrong with a source that the grammar accepts. -/
inductive Fault where
  /-- The target of an assignment is neither a name nor an access. -/
  | target
  | literal (fault : Token.LiteralFault)
  deriving DecidableEq, Repr

/-- The wording of a fault. -/
def Fault.message : Fault → Text
  | .target => "invalid assignment target"
  | .literal f => f.message

/-- What the parser has read, and the first fault in it with its place. -/
structure State where
  stack : Stack
  fault : Option (Fault × Extent)

namespace State

/-- Nothing has been read. -/
def initial : State := ⟨[.program [] []], none⟩

/-- Notes a fault, unless there is one already. -/
def note (s : State) (fault : Fault) (place : Extent) : State :=
  { s with fault := s.fault.or (some (fault, place)) }

/-- The state with another stack. -/
def withStack (s : State) (stack : Stack) : State := { s with stack }

end State

/-! ## Expressions -/

/-- Pushes a literal with the given value, or notes that it has none. -/
def pushLiteral (s : State) (rest : Stack) (t : Token)
    (value : Except Token.LiteralFault Literal) : State :=
  match value with
  | .ok v => s.withStack (.operand (.plain (.literal t.extent v)) :: rest)
  | .error fault =>
    (s.withStack (.operand (.plain (.literal t.extent .undefined)) :: rest)).note (.literal fault)
      t.extent

/-- Begins an expression with the token `t` above the given stack. -/
def beginExpr (s : State) (rest : Stack) (t : Token) : Option State :=
  match t.terminal with
  | .number => some (pushLiteral s rest t (.number <$> Token.numberValue t.text))
  | .string => some (pushLiteral s rest t (.text <$> Token.stringValue t.text))
  | .kwTrue => some (pushLiteral s rest t (.ok (.bool true)))
  | .kwFalse => some (pushLiteral s rest t (.ok (.bool false)))
  | .kwUndefined => some (pushLiteral s rest t (.ok .undefined))
  | .name => some (s.withStack (.operand (.plain (.name t.extent t.text)) :: rest))
  | .leftBracket => some (s.withStack (.array t.extent.start [] :: rest))
  | .leftParen => some (s.withStack (.paren t.extent.start :: rest))
  | .kwFunction => some (s.withStack (.functionWord t.extent.start false :: rest))
  | .bang => some (s.withStack (.unary t.extent.start .not :: rest))
  | .operator .sub => some (s.withStack (.unary t.extent.start .neg :: rest))
  | _ => none

/-! ## Statements -/

/-- The declaration that a terminal begins. -/
def declKind? : Terminal → Option DeclKind
  | .kwVar => some .var
  | .kwLet => some .letVar
  | .kwConst => some .const
  | _ => none

/-- Ends a declaration, an assignment or an expression that stands as a statement or as a clause of
    a `for` by the token `t`. -/
def endSimple (stmt : Stmt Extent) (stack : Stack) (t : Token) : Option Stack :=
  match stack, t.terminal with
  | .forOpen start :: rest, .semicolon => some (.forCondition start (some stmt) :: rest)
  | .forUpdate start init condition :: rest, .rightParen =>
    some (.loopHead start (.counting · init condition (some stmt)) :: rest)
  | rest, .semicolon => complete stmt rest
  | _, _ => none

/-- The declaration of a name with a value or without one. -/
def declarationOf (start : Position) (kind : DeclKind) (name : Token) (value : Option Operand) :
    Stmt Extent :=
  let stop := (value.map (·.outer.stop)).getD name.extent.stop
  .declaration ⟨start, stop⟩ name.text kind (value.map (·.expr))

/-- Whether an expression can be assigned to. -/
def isTarget : Expr Extent → Bool
  | .name .. | .index .. => true
  | _ => false

/-- Ends an assignment by the token `t`, noting a target that cannot be assigned to. -/
def endAssignment (s : State) (target value : Operand) (rest : Stack) (t : Token) :
    Option State := do
  let place := ⟨target.outer.start, value.outer.stop⟩
  let stack ← endSimple (.assignment place target.expr value.expr) rest t
  let s := s.withStack stack
  return if isTarget target.expr then s else s.note .target target.expr.mark

/-- Continues after a complete operand, to which no operator is left to apply, by the token `t`
    that ends the expression. -/
def endExpr (s : State) (e : Operand) (stack : Stack) (t : Token) : Option State :=
  match stack, t.terminal with
  | .paren start :: rest, .rightParen =>
    some (s.withStack (.operand ⟨e.expr, ⟨start, t.extent.stop⟩⟩ :: rest))
  | .call func start args :: rest, .comma =>
    some (s.withStack (.call func start (e.expr :: args) :: rest))
  | .call func start args :: rest, .rightParen =>
    let call := .call ⟨start, t.extent.stop⟩ func.expr (e.expr :: args).reverse
    some (s.withStack (.operand ⟨call, ⟨func.outer.start, t.extent.stop⟩⟩ :: rest))
  | .index base start :: rest, .rightBracket =>
    let access := .index ⟨start, t.extent.stop⟩ base.expr e.expr
    some (s.withStack (.operand ⟨access, ⟨base.outer.start, t.extent.stop⟩⟩ :: rest))
  | .array start elements :: rest, .comma =>
    some (s.withStack (.array start (e.expr :: elements) :: rest))
  | .array start elements :: rest, .rightBracket =>
    let array := .array ⟨start, t.extent.stop⟩ (e.expr :: elements).reverse
    some (s.withStack (.operand (.plain array) :: rest))
  | .simple :: rest, .equals => some (s.withStack (.assign e :: rest))
  | .simple :: rest, _ => s.withStack <$> endSimple (.expression e.outer e.expr) rest t
  | .assign target :: rest, _ => endAssignment s target e rest t
  | .declareValue start kind name :: rest, _ =>
    s.withStack <$> endSimple (declarationOf start kind name (some e)) rest t
  | .returnWord place :: rest, .semicolon =>
    s.withStack <$> complete (.ret ⟨place.start, e.outer.stop⟩ (some e.expr)) rest
  | .ifOpen start :: rest, .rightParen => some (s.withStack (.ifCondition start e.expr :: rest))
  | .whileOpen start :: rest, .rightParen =>
    some (s.withStack (.loopHead start (fun _ => .whileTrue e.expr.mark e.expr) :: rest))
  | .forCondition start init :: rest, .semicolon =>
    some (s.withStack (.forUpdate start init (some e.expr) :: rest))
  | .forOf start kind name :: rest, .rightParen =>
    some (s.withStack
      (.loopHead start (fun _ => .forOf name.extent name.text kind e.expr) :: rest))
  | _, _ => none

/-- Continues after a complete operand by the token `t`. -/
def afterOperand (s : State) (e : Operand) (rest : Stack) (t : Token) : Option State :=
  match t.terminal with
  | .leftParen => some (s.withStack (.call e t.extent.start [] :: rest))
  | .leftBracket => some (s.withStack (.index e t.extent.start :: rest))
  | .operator op =>
    let (left, rest) := reduce op.level e rest
    some (s.withStack (.binary left op t.extent :: rest))
  | _ =>
    let (e, rest) := reduceAll e rest
    endExpr s e rest t

/-- Begins a statement with the token `t` in the block or program on top of the stack. -/
def beginStmt (s : State) (stack : Stack) (t : Token) : Option State :=
  let start := t.extent.start
  match t.terminal with
  | .kwVar => some (s.withStack (.declareWord start .var :: stack))
  | .kwLet => some (s.withStack (.declareWord start .letVar :: stack))
  | .kwConst => some (s.withStack (.declareWord start .const :: stack))
  | .kwReturn => some (s.withStack (.returnWord t.extent :: stack))
  | .kwBreak => some (s.withStack (.jump (.brk t.extent) :: stack))
  | .kwContinue => some (s.withStack (.jump (.cont t.extent) :: stack))
  | .kwIf => some (s.withStack (.ifWord start :: stack))
  | .kwWhile => some (s.withStack (.whileWord start :: stack))
  | .kwFor => some (s.withStack (.forWord start :: stack))
  | .leftBrace => some (s.withStack (.block start [] :: stack))
  | _ => beginExpr s (.simple :: stack) t

/-- Continues in the block or program on top of the stack, where a statement may begin, by the
    token `t`. -/
def amongStatements (s : State) (stack : Stack) (t : Token) : Option State :=
  match stack, t.terminal with
  | .block start ss :: rest, .rightBrace =>
    s.withStack <$> closeBlock (.mk ⟨start, t.extent.stop⟩ ss.reverse) rest
  | .program _ _ :: _, .kwFunction =>
    some (s.withStack (.functionWord t.extent.start true :: stack))
  | .program _ _ :: _, _ => beginStmt s stack t
  | .block _ _ :: _, _ => beginStmt s stack t
  | _, _ => none

/-- Continues in the header of a `for`. -/
def inForHeader (s : State) (stack : Stack) (t : Token) : Option State :=
  match stack, t.terminal with
  | .forOpen start :: rest, .semicolon => some (s.withStack (.forCondition start none :: rest))
  | .forOpen start :: rest, .name => some (s.withStack (.forName start t :: rest))
  | .forOpen start :: rest, k =>
    match declKind? k with
    | some kind => some (s.withStack (.forDeclare start t.extent.start kind :: rest))
    | none => beginExpr s (.simple :: .forOpen start :: rest) t
  | .forName start name :: rest, .kwOf => some (s.withStack (.forOf start none name :: rest))
  | .forName start name :: rest, _ =>
    afterOperand s (.plain (.name name.extent name.text)) (.simple :: .forOpen start :: rest) t
  | .forDeclare start word kind :: rest, .name =>
    some (s.withStack (.forDeclareName start word kind t :: rest))
  | .forDeclareName start _ kind name :: rest, .kwOf =>
    some (s.withStack (.forOf start (some kind) name :: rest))
  | .forDeclareName start word kind name :: rest, .equals =>
    some (s.withStack (.declareValue word kind name :: .forOpen start :: rest))
  | .forDeclareName start word kind name :: rest, .semicolon =>
    s.withStack <$> endSimple (declarationOf word kind name none) (.forOpen start :: rest) t
  | .forCondition start init :: rest, .semicolon =>
    some (s.withStack (.forUpdate start init none :: rest))
  | .forCondition .. :: _, _ => beginExpr s stack t
  | .forUpdate start init condition :: rest, .rightParen =>
    some (s.withStack (.loopHead start (.counting · init condition none) :: rest))
  | .forUpdate .. :: _, _ => beginExpr s (.simple :: stack) t
  | _, _ => none

/-- Continues in the head of a function. -/
def inFunctionHead (s : State) (stack : Stack) (t : Token) : Option State :=
  match stack, t.terminal with
  | .functionWord start true :: rest, .name =>
    some (s.withStack (.functionName ⟨start, some t.text⟩ :: rest))
  | .functionWord start top :: rest, .leftParen =>
    let rest := if top then .simple :: rest else rest
    some (s.withStack (.paramsOpen ⟨start, none⟩ :: rest))
  | .functionName head :: rest, .leftParen => some (s.withStack (.paramsOpen head :: rest))
  | .paramsOpen head :: rest, .name => some (s.withStack (.params head [t.text] :: rest))
  | .paramsOpen head :: rest, .rightParen => some (s.withStack (.paramsClosed head [] :: rest))
  | .params head names :: rest, .comma => some (s.withStack (.paramsComma head names :: rest))
  | .params head names :: rest, .rightParen =>
    some (s.withStack (.paramsClosed head names :: rest))
  | .paramsComma head names :: rest, .name =>
    some (s.withStack (.params head (t.text :: names) :: rest))
  | .paramsClosed head names :: rest, .leftBrace =>
    some (s.withStack (.block t.extent.start [] :: .body head names :: rest))
  | _, _ => none

/-- Takes the state over the token `t`, if some program has that token there. -/
def step (s : State) (t : Token) : Option State :=
  match s.stack, t.terminal with
  | .operand e :: rest, _ => afterOperand s e rest t
  | .program .. :: _, _ | .block .. :: _, _ => amongStatements s s.stack t
  | .call func start [] :: rest, .rightParen =>
    let call := .call ⟨start, t.extent.stop⟩ func.expr []
    some (s.withStack (.operand ⟨call, ⟨func.outer.start, t.extent.stop⟩⟩ :: rest))
  | .array start [] :: rest, .rightBracket =>
    some (s.withStack (.operand (.plain (.array ⟨start, t.extent.stop⟩ [])) :: rest))
  | .unary .. :: _, _ | .binary .. :: _, _ | .paren .. :: _, _ | .call .. :: _, _
  | .index .. :: _, _ | .array .. :: _, _ | .simple :: _, _ | .assign .. :: _, _
  | .declareValue .. :: _, _ | .ifOpen .. :: _, _ | .whileOpen .. :: _, _ | .forOf .. :: _, _ =>
    beginExpr s s.stack t
  | .functionWord .. :: _, _ | .functionName .. :: _, _ | .paramsOpen .. :: _, _
  | .params .. :: _, _ | .paramsComma .. :: _, _ | .paramsClosed .. :: _, _ =>
    inFunctionHead s s.stack t
  | .declareWord start kind :: rest, .name =>
    some (s.withStack (.declareName start kind t :: rest))
  | .declareName start kind name :: rest, .equals =>
    some (s.withStack (.declareValue start kind name :: rest))
  | .declareName start kind name :: rest, .semicolon =>
    s.withStack <$> complete (declarationOf start kind name none) rest
  | .returnWord place :: rest, .semicolon => s.withStack <$> complete (.ret place none) rest
  | .returnWord .. :: _, _ => beginExpr s s.stack t
  | .jump j :: rest, .semicolon => s.withStack <$> complete j rest
  | .ifWord start :: rest, .leftParen => some (s.withStack (.ifOpen start :: rest))
  | .ifCondition start condition :: rest, .leftBrace =>
    some (s.withStack (.block t.extent.start [] :: .ifThen start condition :: rest))
  | .ifElse head :: rest, .kwElse => some (s.withStack (.elseWord head :: rest))
  | .ifElse head :: rest, _ => do amongStatements s (← complete (head.build none) rest) t
  | .elseWord head :: rest, .leftBrace =>
    some (s.withStack (.block t.extent.start [] :: .elseBlock head :: rest))
  | .elseWord head :: rest, .kwIf =>
    some (s.withStack (.ifWord t.extent.start :: .elseIf head :: rest))
  | .whileWord start :: rest, .leftParen => some (s.withStack (.whileOpen start :: rest))
  | .forWord start :: rest, .leftParen => some (s.withStack (.forOpen start :: rest))
  | .forOpen .. :: _, _ | .forName .. :: _, _ | .forDeclare .. :: _, _
  | .forDeclareName .. :: _, _ | .forCondition .. :: _, _ | .forUpdate .. :: _, _ =>
    inForHeader s s.stack t
  | .loopHead start header :: rest, .leftBrace =>
    some (s.withStack (.block t.extent.start [] :: .loopBody start header :: rest))
  | _, _ => none

/-- The program that has been read, if it may end here. -/
def finish (s : State) : Option (Program Extent) := do
  let stack ← match s.stack with
    | .ifElse head :: rest => complete (head.build none) rest
    | stack => some stack
  match stack with
  | [.program fs ss] => some ⟨fs.reverse, ss.reverse⟩
  | _ => none

/-! ## Reading a source -/

/-- Why a source is no program. -/
inductive SyntaxError where
  /-- No program has this token here. -/
  | unexpected (t : Token)
  /-- No program ends here; the place is that of the last token. -/
  | unexpectedEnd (place : Position)
  /-- No terminal matches here. -/
  | noTerminal (c : CodePoint) (place : Position)
  /-- The grammar is kept, but something else is wrong. -/
  | fault (fault : Fault) (place : Extent)
  deriving DecidableEq, Repr

/-- Reads the tokens one after the other, up to the first that is refused. -/
def run (s : State) : List Token → Except SyntaxError State
  | [] => .ok s
  | t :: ts =>
    match step s t with
    | some s => run s ts
    | none => .error (.unexpected t)

/-- Where the last of the tokens starts; the start of the source if there are none. -/
def lastStart (tokens : List Token) : Position :=
  (tokens.getLast?.map (·.extent.start)).getD .origin

/-- Reads the tokens of a source. -/
def parseTokens (tokens : List Token) (stop : Token.Stop) :
    Except SyntaxError (Program Extent) := do
  let s ← run .initial tokens
  match stop with
  | .noTerminal c place => throw (.noTerminal c place)
  | .finished =>
    match finish s with
    | none => throw (.unexpectedEnd (lastStart tokens))
    | some program =>
      match s.fault with
      | some (fault, place) => throw (.fault fault place)
      | none => return program

/-- Reads a source. -/
def parse (source : Text) : Except SyntaxError (Program Extent) :=
  let (tokens, stop) := Token.scan source
  parseTokens tokens stop

namespace SyntaxError

/-- The wording of an error that names a token by the name of its terminal and its text. -/
def tokenMessage (label text : Text) (place : Position) : Text :=
  "Unexpected token Token('" ++ label ++ "', " ++ text.quoted ++ ") at line " ++
    Text.ofNat place.line ++ ", column " ++ Text.ofNat place.column ++ "."

/-- The wording of an error: one line, so that a line end that matches no terminal cuts the
    wording short. -/
def message : SyntaxError → Text
  | .unexpected t => Text.firstLine (tokenMessage t.terminal.label t.text t.extent.start)
  | .unexpectedEnd place => tokenMessage "$END" "" place
  | .noTerminal c place =>
    Text.firstLine ("No terminal matches '" ++ [c] ++ "' in the current parser context, at line " ++
      Text.ofNat place.line ++ " col " ++ Text.ofNat place.column)
  | .fault f _ => f.message

end SyntaxError

end FlatScope.Parser
