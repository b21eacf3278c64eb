import FlatScope.Rejection
import FlatScope.Scope
import FlatScope.Syntax.Declared

/-!
# Resolving names

`FunctionDef.resolve` finds the scopes, bindings and references of a function, or the first reason
to reject it, in the order in which the function is read. The names of a scope are all declared
before anything in the scope is resolved:

* a function declares its parameters, every `var` in it, and the `let`s and `const`s of its body;
* a block declares its `let`s and `const`s, and opens a scope only if it has any;
* a loop opens a scope around its body, and around the clauses of its header, if the header
  declares a `let` or `const`.

A name may be declared twice in a scope only by `var`s and parameters, and a `var` may not reach
its function across a scope that declares the same name.
-/

namespace FlatScope

/-- A step of the resolution: it extends what is known, or rejects the function. -/
abbrev Resolve (α : Type) := StateT Scoping (Except Rejection) α

namespace Resolve

/-- Rejects the function. -/
def reject {α : Type} (cause : Cause) (span : Span) : Resolve α := throw ⟨cause, span⟩

/-- Opens a scope. -/
def openScope (id : ScopeId) (kind : ScopeKind) (parent : Option ScopeId) : Resolve Unit :=
  modify (·.addScope id kind parent)

/-- Whether a declaration may repeat one that is there. -/
def mayRepeat (previous new : Origin) : Bool :=
  previous.isFunctionScoped && new.kind? = some .var

/-- Declares a name in a scope. -/
def declare (scope : ScopeId) (name : Name) (origin : Origin) (span : Span)
    (node : Option NodeId) : Resolve Unit := do
  let a ← get
  match a.ownBinding? scope name with
  | some previous =>
    if mayRepeat previous.origin origin then set (a.addDeclaration node previous.id)
    else reject (.duplicate name previous.span) span
  | none => set ((a.addBinding scope name origin span).addDeclaration node a.nextBinding)

/-- Refuses a `var` between which and its function a scope declares the same name. -/
def checkVarPath (scope : ScopeId) (name : Name) (span : Span) : Resolve Unit := do
  match (← get).bindingBelowFunction? scope name with
  | some b => reject (.duplicate name b.span) span
  | none => pure ()

/-- Resolves a name at a node. -/
def reference (globals : List Name) (scope : ScopeId) (name : Name) (mark : Mark)
    (isWrite : Bool) : Resolve Unit := do
  let a ← get
  let binding := a.lookup? scope name
  if binding.isNone && !globals.contains name then reject (.unresolved name) mark.span
  else set (a.addReference ⟨mark.id, name, binding.map (·.id), scope, isWrite, mark.span⟩)

/-- Declares the parameters of a function. -/
def declareParams (scope : ScopeId) (params : List Name) (span : Span) : Resolve Unit :=
  params.forM fun p => declare scope p .param span none

/-- Declares the `var`s of a function. -/
def declareVars (scope : ScopeId) (vars : List (Name × Mark)) : Resolve Unit :=
  vars.forM fun (n, m) => declare scope n (.declared .var) m.span (some m.id)

/-- Declares the `let`s and `const`s of a block. -/
def declareLexicals (scope : ScopeId) (lexicals : List (Lexical Mark)) : Resolve Unit :=
  lexicals.forM fun l => declare scope l.name (.declared l.kind) l.mark.span (some l.mark.id)

/-- Opens the scope of a function. -/
def openFunction (mark : Mark) (params : List Name) (body : Block Mark)
    (parent : Option ScopeId) : Resolve Unit := do
  openScope mark.id .function parent
  declareParams mark.id params mark.span
  declareVars mark.id body.vars
  declareLexicals mark.id body.lexicals

/-- Opens the scope of a block, if it has any, and returns it. -/
def openBlock (b : Block Mark) (scope : ScopeId) : Resolve (Option ScopeId) :=
  match b.lexicals with
  | [] => pure none
  | ls => do
    let id := b.mark.id
    openScope id .block (some scope)
    modify (·.addBlockScope id)
    declareLexicals id ls
    return some id

/-- Opens the scope of a loop whose header declares a `let` or `const`. -/
def openLoop (loop : NodeId) (name : Name) (kind : DeclKind) (mark : Mark) (scope : ScopeId) :
    Resolve Unit := do
  openScope loop .loop (some scope)
  declare loop name (.header kind) mark.span (some mark.id)

/-- The declaration in the first clause of a `for` that opens a scope. -/
def headerLexical? : Header Mark → Option (Lexical Mark)
  | .counting _ (some init) _ _ => init.lexical?
  | .forOf a n (some k) _ => if k.isBlockScoped then some ⟨a, n, k⟩ else none
  | _ => none

/-- Refuses a jump outside of a loop. -/
def checkJump (inLoop : Bool) (jump : Exit) (span : Span) : Resolve Unit :=
  if inLoop then pure () else reject (.jumpOutsideLoop jump) span

mutual

def expr (globals : List Name) (scope : ScopeId) : Expr Mark → Resolve Unit
  | .literal .. => pure ()
  | .name a n => reference globals scope n a false
  | .unary _ _ e | .signalIs _ e _ | .signalValue _ e => expr globals scope e
  | .binary _ _ l r => do
    expr globals scope l
    expr globals scope r
  | .call _ f args => do
    expr globals scope f
    exprs globals scope args
  | .array _ es => exprs globals scope es
  | .index _ b i => do
    expr globals scope b
    expr globals scope i
  | .function a ps (.mk b ss) => do
    openFunction a ps (.mk b ss) (some scope)
    stmts globals a.id false ss
  | .signal _ _ none => pure ()
  | .signal _ _ (some e) => expr globals scope e
  | .unknown a n => reject (.unknownExpr n) a.span

def exprs (globals : List Name) (scope : ScopeId) : List (Expr Mark) → Resolve Unit
  | [] => pure ()
  | e :: es => do
    expr globals scope e
    exprs globals scope es

/-- Resolves a nested block, and returns its scope if it has one. -/
def block (globals : List Name) (scope : ScopeId) (inLoop : Bool) :
    Block Mark → Resolve (Option ScopeId)
  | .mk a ss => do
    let own ← openBlock (.mk a ss) scope
    stmts globals (own.getD scope) inLoop ss
    return own

def stmts (globals : List Name) (scope : ScopeId) (inLoop : Bool) :
    List (Stmt Mark) → Resolve Unit
  | [] => pure ()
  | s :: ss => do
    stmt globals scope inLoop s
    stmts globals scope inLoop ss

/-- Resolves a statement; `inLoop` says whether a loop of the same function is around it. -/
def stmt (globals : List Name) (scope : ScopeId) (inLoop : Bool) : Stmt Mark → Resolve Unit
  | .declaration a n k v => do
    match k, v with
    | .var, _ => checkVarPath scope n a.span
    | .const, none => reject (.missingInitializer n) a.span
    | _, _ => pure ()
    match v with
    | none => pure ()
    | some e => expr globals scope e
  | .assignment a t v => do
    match t with
    | .name b n => reference globals scope n b true
    | .index _ b i => do
      expr globals scope b
      expr globals scope i
    | t => reject (.assignmentTarget t.className) a.span
    expr globals scope v
  | .expression _ e => expr globals scope e
  | .block b => do
    let _ ← block globals scope inLoop b
  | .branch _ c t e => do
    expr globals scope c
    let _ ← block globals scope inLoop t
    match e with
    | none => pure ()
    | some b => do
      let _ ← block globals scope inLoop b
  | .loop a h b => do
    let inner ← header globals scope inLoop a h
    let body ← block globals (inner.getD scope) true b
    modify (·.addLoop ⟨a.id, inner, body, scope⟩)
  | .ret _ none => pure ()
  | .ret _ (some e) => expr globals scope e
  | .brk a => checkJump inLoop .brk a.span
  | .cont a => checkJump inLoop .cont a.span
  | .unknown a n => reject (.unknownStmt n) a.span

/-- Resolves the header of a loop, and returns the scope of the loop if it has one. -/
def header (globals : List Name) (scope : ScopeId) (inLoop : Bool) (loop : Mark) :
    Header Mark → Resolve (Option ScopeId)
  | .whileTrue _ c => do
    expr globals scope c
    return none
  | .counting a i c u => do
    let own ← match headerLexical? (.counting a i c u) with
      | none => pure none
      | some l => do
        openLoop loop.id l.name l.kind l.mark scope
        pure (some loop.id)
    let inner := own.getD scope
    match i with
    | none => pure ()
    | some s => stmt globals inner inLoop s
    match c with
    | none => pure ()
    | some e => expr globals inner e
    match u with
    | none => pure ()
    | some s => stmt globals inner inLoop s
    return own
  | .forOf a n k e => do
    expr globals scope e
    match k with
    | some .letVar | some .const => do
      openLoop loop.id n (k.getD .letVar) a scope
      return some loop.id
    | some .var => do
      checkVarPath scope n a.span
      reference globals scope n a true
      return none
    | none => do
      reference globals scope n a true
      return none
  | .unknown _ n => reject (.unknownHeader n) loop.span

end

end Resolve

/-- The scopes, bindings and references of a function, given the names that mean something outside
    of it. -/
def FunctionDef.resolve (fn : FunctionDef Mark) (globals : List Name) :
    Except Rejection Scoping := do
  let work : Resolve Unit := do
    Resolve.openFunction fn.mark fn.params fn.body none
    Resolve.stmts globals fn.mark.id false fn.body.statements
  let (_, scoping) ← work.run (.empty fn.mark.id)
  return scoping

end FlatScope
