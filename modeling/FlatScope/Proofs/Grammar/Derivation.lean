import FlatScope.Token.Value

/-!
# Derivations

The grammar of the language as a family of types: for every rule a type, whose elements are the
derivations from that rule, with the tokens at their leaves. A repetition is a list, an option may
be missing, and the six rules for chains of binary operators are one family, `ExprTree p` for the
levels `p` from 1 to 6: an operand of the next level and further operands, each after one of the
`operatorsAt` the level. Level 7 are unary operators, and atoms with suffixes.

Read off a derivation are the tokens in their order (`tokens`), where its text starts and stops, and
the tree that it denotes (`denote`), where parentheses disappear, chains associate to the left,
suffixes apply from left to right, and what follows an `else` without braces is a block of one
statement. On the way the targets of the assignments are met (`targets`); that they are names or
accesses (`Assignable`) is not a matter of the grammar.

Nothing here is shared with the parser but the type of the trees: its levels, the trees that it
builds and the targets that it accepts are compared with these in `Proofs.Grammar.Complete`.
-/

namespace FlatScope

/-- The terminal of the word that declares. -/
def DeclKind.terminal : DeclKind → Terminal
  | .var => .kwVar
  | .letVar => .kwLet
  | .const => .kwConst

namespace Grammar

/-- A token of the given terminal. -/
abbrev Leaf (k : Terminal) := {t : Token // t.terminal = k}

namespace Leaf

variable {k : Terminal}

def start (t : Leaf k) : Position := t.1.extent.start

def stop (t : Leaf k) : Position := t.1.extent.stop

end Leaf

/-! ## The rules -/

/-- A constant: a number, a text or one of the words for constants. -/
inductive Constant where
  | number (t : Leaf .number)
  | string (t : Leaf .string)
  | true (t : Leaf .kwTrue)
  | false (t : Leaf .kwFalse)
  | undefined (t : Leaf .kwUndefined)

/-- A word that declares. -/
structure DeclWord where
  kind : DeclKind
  token : Leaf kind.terminal

/-- A unary operator. -/
inductive Sign where
  | bang (t : Leaf .bang)
  | minus (t : Leaf (.operator .sub))

/-- The operators of each level, of which the higher ones bind more tightly. -/
def operatorsAt : Nat → List BinaryOp
  | 1 => [.or]
  | 2 => [.and]
  | 3 => [.eq, .ne]
  | 4 => [.le, .ge, .lt, .gt]
  | 5 => [.add, .sub]
  | 6 => [.mul, .div, .mod]
  | _ => []

/-- A binary operator of the given level. -/
structure Infix (p : Nat) where
  op : BinaryOp
  mem : op ∈ operatorsAt p
  token : Leaf (.operator op)

/-- The names of parameters, with commas between. -/
structure Params where
  first : Leaf .name
  rest : List (Leaf .comma × Leaf .name)

mutual

/-- An expression of a level: a chain of operands of the next level, or of the last level. -/
inductive ExprTree : Nat → Type
  | chain {p : Nat} (level : 0 < p ∧ p < 7) (first : ExprTree (p + 1)) (tails : Tails p) :
      ExprTree p
  | signed (sign : Sign) (operand : ExprTree 7) : ExprTree 7
  | suffixed (atom : AtomTree) (suffixes : Suffixes) : ExprTree 7

/-- Further operands of a chain, each after its operator. -/
inductive Tails : Nat → Type
  | nil {p : Nat} : Tails p
  | cons {p : Nat} (op : Infix p) (operand : ExprTree (p + 1)) (rest : Tails p) : Tails p

/-- Calls and accesses that apply to what stands before. -/
inductive Suffixes : Type
  | nil
  | call (opening : Leaf .leftParen) (args : Args) (closing : Leaf .rightParen) (rest : Suffixes)
  | index (opening : Leaf .leftBracket) (position : ExprTree 1) (closing : Leaf .rightBracket)
      (rest : Suffixes)

/-- Expressions with commas between, or nothing. -/
inductive Args : Type
  | none
  | some (first : ExprTree 1) (rest : MoreArgs)

inductive MoreArgs : Type
  | nil
  | cons (comma : Leaf .comma) (arg : ExprTree 1) (rest : MoreArgs)

inductive AtomTree : Type
  | constant (c : Constant)
  | name (t : Leaf .name)
  | array (opening : Leaf .leftBracket) (elements : Args) (closing : Leaf .rightBracket)
  | function (word : Leaf .kwFunction) (opening : Leaf .leftParen) (params : Option Params)
      (closing : Leaf .rightParen) (body : BlockTree)
  | paren (opening : Leaf .leftParen) (e : ExprTree 1) (closing : Leaf .rightParen)

inductive BlockTree : Type
  | mk (opening : Leaf .leftBrace) (statements : StmtTrees) (closing : Leaf .rightBrace)

inductive StmtTrees : Type
  | nil
  | cons (first : StmtTree) (rest : StmtTrees)

inductive StmtTree : Type
  | clause (c : ClauseTree) (semicolon : Leaf .semicolon)
  | ret (word : Leaf .kwReturn) (value : MaybeExpr) (semicolon : Leaf .semicolon)
  | brk (word : Leaf .kwBreak) (semicolon : Leaf .semicolon)
  | cont (word : Leaf .kwContinue) (semicolon : Leaf .semicolon)
  | branch (i : IfTree)
  | whileLoop (word : Leaf .kwWhile) (opening : Leaf .leftParen) (condition : ExprTree 1)
      (closing : Leaf .rightParen) (body : BlockTree)
  | forLoop (word : Leaf .kwFor) (opening : Leaf .leftParen) (init : MaybeClause)
      (semicolon : Leaf .semicolon) (condition : MaybeExpr) (second : Leaf .semicolon)
      (update : MaybeSimple) (closing : Leaf .rightParen) (body : BlockTree)
  | forOf (word : Leaf .kwFor) (opening : Leaf .leftParen) (declares : Option DeclWord)
      (name : Leaf .name) (ofWord : Leaf .kwOf) (sequence : ExprTree 1) (closing : Leaf .rightParen)
      (body : BlockTree)
  | block (b : BlockTree)

/-- A declaration, or a simple statement. -/
inductive ClauseTree : Type
  | declaration (word : DeclWord) (name : Leaf .name)
  | initialized (word : DeclWord) (name : Leaf .name) (equals : Leaf .equals) (value : ExprTree 1)
  | simple (s : SimpleTree)

/-- An assignment or an expression. -/
inductive SimpleTree : Type
  | assignment (target : ExprTree 1) (equals : Leaf .equals) (value : ExprTree 1)
  | expression (e : ExprTree 1)

/-- An expression that may be missing. -/
inductive MaybeExpr : Type
  | none
  | some (e : ExprTree 1)

inductive MaybeClause : Type
  | none
  | some (c : ClauseTree)

inductive MaybeSimple : Type
  | none
  | some (s : SimpleTree)

inductive IfTree : Type
  | mk (word : Leaf .kwIf) (opening : Leaf .leftParen) (condition : ExprTree 1)
      (closing : Leaf .rightParen) (body : BlockTree) (otherwise : ElseTree)

inductive ElseTree : Type
  | none
  | block (word : Leaf .kwElse) (b : BlockTree)
  | elseIf (word : Leaf .kwElse) (i : IfTree)

end

/-- A function at the top of a program. -/
structure FunctionTree where
  word : Leaf .kwFunction
  name : Leaf .name
  opening : Leaf .leftParen
  params : Option Params
  closing : Leaf .rightParen
  body : BlockTree

/-- A function or a statement at the top of a program. -/
inductive Item where
  | function (f : FunctionTree)
  | stmt (s : StmtTree)

/-- A program: functions and statements in any order. -/
abbrev ProgramTree := List Item

/-! ## Where derivations start and stop -/

def Constant.token : Constant → Token
  | .number t | .string t | .true t | .false t | .undefined t => t.1

def Sign.token : Sign → Token
  | .bang t | .minus t => t.1

def BlockTree.start : BlockTree → Position
  | .mk lb _ _ => lb.start

def BlockTree.stop : BlockTree → Position
  | .mk _ _ rb => rb.stop

def AtomTree.start : AtomTree → Position
  | .constant c => c.token.extent.start
  | .name t => t.start
  | .array lb _ _ => lb.start
  | .function w _ _ _ _ => w.start
  | .paren lp _ _ => lp.start

def AtomTree.stop : AtomTree → Position
  | .constant c => c.token.extent.stop
  | .name t => t.stop
  | .array _ _ rb => rb.stop
  | .function _ _ _ _ b => b.stop
  | .paren _ _ rp => rp.stop

/-- Where suffixes stop, which are perhaps none after an atom that stops at `q`. -/
def Suffixes.stop : Suffixes → Position → Position
  | .nil, q => q
  | .call _ _ rp rest, _ => rest.stop rp.stop
  | .index _ _ rb rest, _ => rest.stop rb.stop

mutual

def ExprTree.stop : {p : Nat} → ExprTree p → Position
  | _, .chain _ first tails => tails.stop first.stop
  | _, .signed _ e => e.stop
  | _, .suffixed a ss => ss.stop a.stop

/-- Where a chain stops whose first operands stop at `q`. -/
def Tails.stop : {p : Nat} → Tails p → Position → Position
  | _, .nil, q => q
  | _, .cons _ e rest, _ => rest.stop e.stop

end

def ExprTree.start : {p : Nat} → ExprTree p → Position
  | _, .chain _ first _ => first.start
  | _, .signed s _ => s.token.extent.start
  | _, .suffixed a _ => a.start

mutual

def IfTree.stop : IfTree → Position
  | .mk _ _ _ _ b o => o.stop b.stop

/-- Where an `if` stops whose first block stops at `q`. -/
def ElseTree.stop : ElseTree → Position → Position
  | .none, q => q
  | .block _ b, _ => b.stop
  | .elseIf _ i, _ => i.stop

end

/-! ## The trees that derivations denote -/

/-- The value of a constant; one without a value stands for `undefined`. -/
def Constant.value : Constant → Literal
  | .number t => ((Token.numberValue t.1.text).toOption.map Literal.number).getD .undefined
  | .string t => ((Token.stringValue t.1.text).toOption.map Literal.text).getD .undefined
  | .true _ => .bool .true
  | .false _ => .bool .false
  | .undefined _ => .undefined

def Sign.op : Sign → UnaryOp
  | .bang _ => .not
  | .minus _ => .neg

def Params.names (ps : Params) : List Name := ps.first.1.text :: ps.rest.map (·.2.1.text)

/-- The names of parameters, if there are any. -/
def paramNames : Option Params → List Name
  | none => []
  | some ps => ps.names

mutual

/-- The expression that a derivation denotes. -/
def ExprTree.denote : {p : Nat} → ExprTree p → Expr Extent
  | _, .chain _ first tails => tails.denote first.denote
  | _, .signed s e => .unary ⟨s.token.extent.start, e.stop⟩ s.op e.denote
  | _, .suffixed a ss => ss.denote a.denote

/-- The chain that begins with the given operand; it associates to the left. The mark of an
    operation is that of its operator. -/
def Tails.denote : {p : Nat} → Tails p → Expr Extent → Expr Extent
  | _, .nil, l => l
  | _, .cons o e rest, l => rest.denote (.binary o.token.1.extent o.op l e.denote)

/-- What suffixes make of an expression, from left to right. -/
def Suffixes.denote : Suffixes → Expr Extent → Expr Extent
  | .nil, f => f
  | .call lp args rp rest, f => rest.denote (.call ⟨lp.start, rp.stop⟩ f args.denote)
  | .index lb i rb rest, b => rest.denote (.index ⟨lb.start, rb.stop⟩ b i.denote)

def Args.denote : Args → List (Expr Extent)
  | .none => []
  | .some e rest => e.denote :: rest.denote

def MoreArgs.denote : MoreArgs → List (Expr Extent)
  | .nil => []
  | .cons _ e rest => e.denote :: rest.denote

def AtomTree.denote : AtomTree → Expr Extent
  | .constant c => .literal c.token.extent c.value
  | .name t => .name t.1.extent t.1.text
  | .array lb es rb => .array ⟨lb.start, rb.stop⟩ es.denote
  | .function w _ ps _ b => .function ⟨w.start, b.stop⟩ (paramNames ps) b.denote
  | .paren _ e _ => e.denote

def BlockTree.denote : BlockTree → Block Extent
  | .mk lb ss rb => .mk ⟨lb.start, rb.stop⟩ ss.denote

def StmtTrees.denote : StmtTrees → List (Stmt Extent)
  | .nil => []
  | .cons s ss => s.denote :: ss.denote

def StmtTree.denote : StmtTree → Stmt Extent
  | .clause c _ => c.denote
  | .ret w .none _ => .ret w.1.extent none
  | .ret w (.some e) _ => .ret ⟨w.start, e.stop⟩ (some e.denote)
  | .brk w _ => .brk w.1.extent
  | .cont w _ => .cont w.1.extent
  | .branch i => i.denote
  | .whileLoop w _ c _ b =>
    .loop ⟨w.start, b.stop⟩ (.whileTrue c.denote.mark c.denote) b.denote
  | .forLoop w _ i _ c _ u _ b =>
    .loop ⟨w.start, b.stop⟩ (.counting ⟨w.start, b.stop⟩ i.denote c.denote u.denote) b.denote
  | .forOf w _ d n _ e _ b =>
    .loop ⟨w.start, b.stop⟩ (.forOf n.1.extent n.1.text (d.map (·.kind)) e.denote) b.denote
  | .block b => .block b.denote

def ClauseTree.denote : ClauseTree → Stmt Extent
  | .declaration w n => .declaration ⟨w.token.start, n.stop⟩ n.1.text w.kind none
  | .initialized w n _ e =>
    .declaration ⟨w.token.start, e.stop⟩ n.1.text w.kind (some e.denote)
  | .simple s => s.denote

def SimpleTree.denote : SimpleTree → Stmt Extent
  | .assignment t _ v => .assignment ⟨t.start, v.stop⟩ t.denote v.denote
  | .expression e => .expression ⟨e.start, e.stop⟩ e.denote

def MaybeExpr.denote : MaybeExpr → Option (Expr Extent)
  | .none => none
  | .some e => some e.denote

def MaybeClause.denote : MaybeClause → Option (Stmt Extent)
  | .none => none
  | .some c => some c.denote

def MaybeSimple.denote : MaybeSimple → Option (Stmt Extent)
  | .none => none
  | .some s => some s.denote

def IfTree.denote : IfTree → Stmt Extent
  | .mk w _ c _ b o => .branch ⟨w.start, o.stop b.stop⟩ c.denote b.denote o.denote

/-- The block after an `else`: what follows without braces is its only statement, and gives it its
    mark. -/
def ElseTree.denote : ElseTree → Option (Block Extent)
  | .none => none
  | .block _ b => some b.denote
  | .elseIf _ i => some (.mk i.denote.mark [i.denote])

end

def FunctionTree.denote (f : FunctionTree) : FunctionDef Extent :=
  ⟨⟨f.word.start, f.body.stop⟩, f.name.1.text, paramNames f.params, f.body.denote⟩

/-- The function that is derived at the top of a program. -/
def Item.function? : Item → Option (FunctionDef Extent)
  | .function f => some f.denote
  | .stmt _ => none

/-- The statement that is derived at the top of a program. -/
def Item.stmt? : Item → Option (Stmt Extent)
  | .function _ => none
  | .stmt s => some s.denote

/-- The program that a derivation denotes: its functions and its statements, each in their
    order. -/
def ProgramTree.denote (p : ProgramTree) : Program Extent :=
  ⟨p.filterMap Item.function?, p.filterMap Item.stmt?⟩

/-- An expression that can be assigned to: a name or an access. -/
inductive Assignable {α : Type} : Expr α → Prop
  | name (a : α) (n : Name) : Assignable (.name a n)
  | index (a : α) (b i : Expr α) : Assignable (.index a b i)

/-! ## What is met from left to right -/

section Collect

variable {β : Type} (ofToken : Token → List β) (ofTarget : Expr Extent → List β)

def Params.collect (ps : Params) : List β :=
  ofToken ps.first.1 ++ ps.rest.flatMap fun x => ofToken x.1.1 ++ ofToken x.2.1

/-- What is collected of parameters, if there are any. -/
def collectParams : Option Params → List β
  | none => []
  | some ps => ps.collect ofToken

/-- What is collected of a word that declares, if there is one. -/
def collectWord : Option DeclWord → List β
  | none => []
  | some w => ofToken w.token.1

mutual

/-- What the tokens and the targets of assignments contribute, from left to right; the target of an
    assignment comes after its value. -/
def ExprTree.collect : {p : Nat} → ExprTree p → List β
  | _, .chain _ first tails => first.collect ++ tails.collect
  | _, .signed s e => ofToken s.token ++ e.collect
  | _, .suffixed a ss => a.collect ++ ss.collect

def Tails.collect : {p : Nat} → Tails p → List β
  | _, .nil => []
  | _, .cons o e rest => ofToken o.token.1 ++ (e.collect ++ rest.collect)

def Suffixes.collect : Suffixes → List β
  | .nil => []
  | .call lp args rp rest => ofToken lp.1 ++ (args.collect ++ (ofToken rp.1 ++ rest.collect))
  | .index lb i rb rest => ofToken lb.1 ++ (i.collect ++ (ofToken rb.1 ++ rest.collect))

def Args.collect : Args → List β
  | .none => []
  | .some e rest => e.collect ++ rest.collect

def MoreArgs.collect : MoreArgs → List β
  | .nil => []
  | .cons c e rest => ofToken c.1 ++ (e.collect ++ rest.collect)

def AtomTree.collect : AtomTree → List β
  | .constant c => ofToken c.token
  | .name t => ofToken t.1
  | .array lb es rb => ofToken lb.1 ++ (es.collect ++ ofToken rb.1)
  | .function w lp ps rp b =>
    ofToken w.1 ++ (ofToken lp.1 ++ (collectParams ofToken ps ++ (ofToken rp.1 ++ b.collect)))
  | .paren lp e rp => ofToken lp.1 ++ (e.collect ++ ofToken rp.1)

def BlockTree.collect : BlockTree → List β
  | .mk lb ss rb => ofToken lb.1 ++ (ss.collect ++ ofToken rb.1)

def StmtTrees.collect : StmtTrees → List β
  | .nil => []
  | .cons s ss => s.collect ++ ss.collect

def StmtTree.collect : StmtTree → List β
  | .clause c sc => c.collect ++ ofToken sc.1
  | .ret w e sc => ofToken w.1 ++ (e.collect ++ ofToken sc.1)
  | .brk w sc => ofToken w.1 ++ ofToken sc.1
  | .cont w sc => ofToken w.1 ++ ofToken sc.1
  | .branch i => i.collect
  | .whileLoop w lp c rp b =>
    ofToken w.1 ++ (ofToken lp.1 ++ (c.collect ++ (ofToken rp.1 ++ b.collect)))
  | .forLoop w lp i sc c sc' u rp b =>
    ofToken w.1 ++ (ofToken lp.1 ++ (i.collect ++ (ofToken sc.1 ++ (c.collect ++
      (ofToken sc'.1 ++ (u.collect ++ (ofToken rp.1 ++ b.collect)))))))
  | .forOf w lp d n o e rp b =>
    ofToken w.1 ++ (ofToken lp.1 ++ (collectWord ofToken d ++ (ofToken n.1 ++ (ofToken o.1 ++
      (e.collect ++ (ofToken rp.1 ++ b.collect))))))
  | .block b => b.collect

def ClauseTree.collect : ClauseTree → List β
  | .declaration w n => ofToken w.token.1 ++ ofToken n.1
  | .initialized w n eq e => ofToken w.token.1 ++ (ofToken n.1 ++ (ofToken eq.1 ++ e.collect))
  | .simple s => s.collect

def SimpleTree.collect : SimpleTree → List β
  | .assignment t eq v => t.collect ++ (ofToken eq.1 ++ (v.collect ++ ofTarget t.denote))
  | .expression e => e.collect

def MaybeExpr.collect : MaybeExpr → List β
  | .none => []
  | .some e => e.collect

def MaybeClause.collect : MaybeClause → List β
  | .none => []
  | .some c => c.collect

def MaybeSimple.collect : MaybeSimple → List β
  | .none => []
  | .some s => s.collect

def IfTree.collect : IfTree → List β
  | .mk w lp c rp b o =>
    ofToken w.1 ++ (ofToken lp.1 ++ (c.collect ++ (ofToken rp.1 ++ (b.collect ++ o.collect))))

def ElseTree.collect : ElseTree → List β
  | .none => []
  | .block w b => ofToken w.1 ++ b.collect
  | .elseIf w i => ofToken w.1 ++ i.collect

end

def FunctionTree.collect (f : FunctionTree) : List β :=
  ofToken f.word.1 ++ (ofToken f.name.1 ++
    (ofToken f.opening.1 ++ (collectParams ofToken f.params ++
    (ofToken f.closing.1 ++ f.body.collect ofToken ofTarget))))

def Item.collect : Item → List β
  | .function f => f.collect ofToken ofTarget
  | .stmt s => s.collect ofToken ofTarget

def ProgramTree.collect (p : ProgramTree) : List β := p.flatMap (Item.collect ofToken ofTarget)

end Collect

/-- The tokens of a program. -/
def ProgramTree.tokens (p : ProgramTree) : List Token := p.collect (fun t => [t]) fun _ => []

/-- The targets of the assignments in a program, without parentheses. -/
def ProgramTree.targets (p : ProgramTree) : List (Expr Extent) :=
  p.collect (fun _ => []) fun e => [e]

end Grammar

end FlatScope
