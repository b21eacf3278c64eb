import FlatScope.Naming
import FlatScope.Signal

/-!
# Lowering

A lowered function declares only `var`s. Its code is that of the function with every block and loop
that has a wrapper replaced by calls of the wrapper, and every use of a name by the new name of what
it means.

Code is lowered into a *region*: a real function or a wrapper. A wrapper is a function of its own,
so what belongs to the function around it needs care there:

* the early exits become signals (see `FlatScope.Signal`), except for a `break` or `continue` of a
  loop within the wrapper;
* a `var` is declared at the top of the innermost real function, and its declaration in the wrapper
  becomes an assignment, if it has a value.

A loop whose wrapper has parameters runs with variables of its own, the drivers, which take the
place of the parameters in its header and are the arguments of every call.
-/

namespace FlatScope

/-- Why a lowering stops. -/
inductive Failure where
  | rejected (r : Rejection)
  /-- A loop declares a variable where nobody looks for declarations. -/
  | strayVariable (name : Name)
  deriving DecidableEq, Repr

/-- What a lowering goes by. -/
structure LoweringPlan where
  analysis : Analysis
  naming : Naming

/-- Where code is lowered to. -/
structure Region where
  inWrapper : Bool
  /-- Whether a loop of the same function or wrapper is around the code. -/
  inLoop : Bool
  /-- What is done before the wrapper is left. -/
  writeBacks : WriteBacks
  /-- The variables that stand for bindings in the headers of loops around the code. -/
  drivers : List (BindingId × Name)

namespace Region

/-- The code of a function that is not nested in another one. -/
def outermost : Region := ⟨false, false, [], []⟩

/-- The code of a function within the region. -/
def function (r : Region) : Region := ⟨false, false, [], r.drivers⟩

/-- The code of a wrapper within the region. -/
def wrapper (r : Region) (ws : WriteBacks) : Region := ⟨true, false, ws, r.drivers⟩

/-- The body of a loop within the region. -/
def loopBody (r : Region) : Region := { r with inLoop := true }

/-- The header of a loop within the region. -/
def loopHeader (r : Region) (drivers : List (BindingId × Name)) : Region :=
  { r with drivers := drivers ++ r.drivers }

/-- A call within the region. -/
def site (r : Region) : CallSite := ⟨r.inWrapper, r.inLoop⟩

end Region

/-- What changes in the course of a lowering: the supply of names, and the `var`s of the innermost
    function whose declarations stand in wrappers. -/
structure LoweringState where
  supply : NameSupply
  hoisted : List BindingId

/-- A step of a lowering. -/
abbrev Lower (α : Type) := StateT LoweringState (Except Failure) α

namespace LoweringPlan

/-- The name of a binding in a region. -/
def nameOf (p : LoweringPlan) (r : Region) (b : BindingId) : Name :=
  (r.drivers.lookup b).getD (p.naming.nameOf b)

/-- What a name used at a node becomes. -/
def refName (p : LoweringPlan) (r : Region) (node : NodeId) (ident : Name) : Name :=
  match (p.analysis.scoping.referenceAt? node).bind (·.binding) with
  | none => ident
  | some b => p.nameOf r b

/-- The `var`s of a function that are declared at its top. -/
def hoistedDeclarations (p : LoweringPlan) (bs : List BindingId) : List (Stmt Span) :=
  bs.map fun b => .declaration .unknown (p.naming.nameOf b) .var none

/-- The plan of a loop. A loop that nothing is known about has none. -/
def loopPlan (p : LoweringPlan) (loop : NodeId) : LoopPlan :=
  (p.analysis.loopPlan? loop).getD ⟨loop, [], [], [], none, false⟩

end LoweringPlan

namespace Lower

/-- Rejects the function. -/
def reject {α : Type} (cause : Cause) (span : Span) : Lower α := throw (.rejected ⟨cause, span⟩)

/-- A result, or the rejection of the function. -/
def ofExcept {α : Type} : Except Rejection α → Lower α
  | .ok a => pure a
  | .error r => throw (.rejected r)

/-- A name that is not used yet. -/
def fresh (stem : Name) : Lower Name :=
  modifyGet fun s =>
    let (name, supply) := s.supply.fresh stem
    (name, { s with supply })

/-- Moves the declaration of a `var` to the top of the innermost function. -/
def hoist (b : BindingId) : Lower Unit :=
  modify fun s => if s.hoisted.contains b then s else { s with hoisted := s.hoisted ++ [b] }

/-- Lowers the code of a function; the `var`s that it hoists are declared in front of it. -/
def withHoisted (p : LoweringPlan) (code : Lower (List (Stmt Span))) :
    Lower (List (Stmt Span)) := do
  let outer := (← get).hoisted
  modify ({ · with hoisted := [] })
  let stmts ← code
  let own := (← get).hoisted
  modify ({ · with hoisted := outer })
  return p.hoistedDeclarations own ++ stmts

/-! ## Wrappers -/

/-- Calls a wrapper with the given exits and goes on with its signals. -/
def callWrapper (call : Expr Span) (exits : List Exit) (site : CallSite) (ws : WriteBacks)
    (span : Span) : Lower (List (Stmt Span)) :=
  if exits.isEmpty then pure (plainCall call span)
  else do ofExcept (signalCall call (← fresh "$sig") exits site ws span)

/-- The code of a wrapper with its end. -/
def wrapperCode (w : Wrapper) (ws : WriteBacks) (stmts : List (Stmt Span)) : List (Stmt Span) :=
  stmts ++ if w.exits.isEmpty then writeBackStmts ws else epilogue ws

/-- A block with a wrapper: the wrapper is called where it is made. -/
def wrappedBlock (r : Region) (w : Wrapper) (span : Span) (stmts : List (Stmt Span)) :
    Lower (List (Stmt Span)) :=
  let wrapper : Expr Span := .function span [] (.mk span (wrapperCode w [] stmts))
  callWrapper (.call span wrapper []) w.exits r.site r.writeBacks span

/-- A driver for each parameter of the wrapper of a loop. -/
def makeDrivers (p : LoweringPlan) (plan : LoopPlan) : Lower (List (BindingId × Name)) :=
  plan.fresh.mapM fun b => do return (b, ← fresh (Naming.stem (p.naming.nameOf b)))

/-- The drivers that are written back, with their parameters. -/
def loopWriteBacks (p : LoweringPlan) (plan : LoopPlan) (drivers : List (BindingId × Name)) :
    WriteBacks :=
  plan.writeBack.map fun b => ((drivers.lookup b).getD [], p.naming.nameOf b)

/-- A loop with a wrapper: its body only calls the wrapper, with the drivers as arguments. -/
def wrappedLoop (p : LoweringPlan) (r : Region) (plan : LoopPlan) (w : Wrapper)
    (drivers : List (BindingId × Name)) (span : Span) (header : Header Span)
    (body : Block Span) : Lower (List (Stmt Span)) := do
  let code := wrapperCode w (loopWriteBacks p plan drivers) body.statements
  let wrapper : Expr Span := .function span (plan.fresh.map p.naming.nameOf) (.mk body.mark code)
  let args : List (Expr Span) := drivers.map fun (_, d) => .name span d
  if plan.hoist then do
    let name ← fresh "$loop"
    let call ← callWrapper (.call span (.name span name) args) w.exits ⟨r.inWrapper, true⟩
      r.writeBacks span
    return [.declaration span name .var (some wrapper), .loop span header (.mk span call)]
  else do
    let call ← callWrapper (.call span wrapper args) w.exits ⟨r.inWrapper, true⟩ r.writeBacks span
    return [.loop span header (.mk span call)]

/-! ## Statements that need no code lowered -/

/-- The declaration of a variable with its value. -/
def declaration (p : LoweringPlan) (r : Region) (m : Mark) (b : Binding)
    (value : Option (Expr Span)) : Lower (List (Stmt Span)) := do
  let name := p.nameOf r b.id
  if !b.origin.isFunctionScoped then
    return [.declaration m.span name .var (some (value.getD (.literal m.span .undefined)))]
  else if r.inWrapper then do
    hoist b.id
    return value.toList.map fun v => .assignment m.span (.name m.span name) v
  else return [.declaration m.span name .var value]

/-- The binding that a declaration among statements declares. -/
def declaredBy (p : LoweringPlan) (m : Mark) (name : Name) : Lower Binding :=
  match p.analysis.scoping.declared? m.id with
  | some b => pure b
  | none => reject (.misplacedDeclaration name) m.span

/-- An early exit of the region. -/
def leave (r : Region) (e : Exit) (value : Option (Expr Span)) (span : Span)
    (plain : Stmt Span) : List (Stmt Span) :=
  if r.inWrapper then exitStmts (some e) value r.writeBacks span else [plain]

/-- A `break` or `continue`. -/
def jump (r : Region) (e : Exit) (span : Span) (plain : Stmt Span) : Lower (List (Stmt Span)) :=
  if r.inLoop then pure [plain]
  else if r.inWrapper then pure (leave r e none span plain)
  else reject (.jumpOutsideLoop e) span

/-- The one statement that a clause of a `for` may become. -/
def single (span : Span) : List (Stmt Span) → Lower (Option (Stmt Span))
  | [] => pure none
  | [s] => pure (some s)
  | _ => reject .headerClause span

/-- The name and kind of the variable of a loop over a sequence. -/
def elementVariable (p : LoweringPlan) (r : Region) (m : Mark) (name : Name) :
    Option DeclKind → Lower (Name × Option DeclKind)
  | none => pure (p.refName r m.id name, none)
  | some _ =>
    match p.analysis.scoping.declared? m.id with
    | none => throw (.strayVariable name)
    | some b =>
      if b.origin.isFunctionScoped && r.inWrapper then do
        hoist b.id
        return (p.nameOf r b.id, none)
      else return (p.nameOf r b.id, some .var)

/-! ## Code -/

mutual

def expr (p : LoweringPlan) (r : Region) : Expr Mark → Lower (Expr Span)
  | .literal m v => pure (.literal m.span v)
  | .name m n => pure (.name m.span (p.refName r m.id n))
  | .unary m op e => do return .unary m.span op (← expr p r e)
  | .binary m op e f => do
    let e ← expr p r e
    let f ← expr p r f
    return .binary m.span op e f
  | .call m f args => do
    let f ← expr p r f
    let args ← exprs p r args
    return .call m.span f args
  | .array m es => do return .array m.span (← exprs p r es)
  | .index m b i => do
    let b ← expr p r b
    let i ← expr p r i
    return .index m.span b i
  | .function m ps (.mk b ss) => do
    return .function m.span ps (.mk b.span (← withHoisted p (stmts p r.function ss)))
  | .signal m k none => pure (.signal m.span k none)
  | .signal m k (some e) => do return .signal m.span k (some (← expr p r e))
  | .signalIs m e k => do return .signalIs m.span (← expr p r e) k
  | .signalValue m e => do return .signalValue m.span (← expr p r e)
  | .unknown m n => reject (.unknownExpr n) m.span

def exprs (p : LoweringPlan) (r : Region) : List (Expr Mark) → Lower (List (Expr Span))
  | [] => pure []
  | e :: es => do
    let e ← expr p r e
    let es ← exprs p r es
    return e :: es

def stmts (p : LoweringPlan) (r : Region) : List (Stmt Mark) → Lower (List (Stmt Span))
  | [] => pure []
  | s :: ss => do
    let s ← stmt p r s
    let ss ← stmts p r ss
    return s ++ ss

/-- Lowers a block. One with a wrapper becomes a block that calls the wrapper. -/
def block (p : LoweringPlan) (r : Region) : Block Mark → Lower (Block Span)
  | .mk m ss =>
    match p.analysis.wrapper? m.id with
    | none => do return .mk m.span (← stmts p r ss)
    | some w => do
      let ss ← stmts p (r.wrapper []) ss
      return .mk m.span (← wrappedBlock r w m.span ss)

/-- Lowers a statement to any number of statements. -/
def stmt (p : LoweringPlan) (r : Region) : Stmt Mark → Lower (List (Stmt Span))
  | .declaration m n _ none => do declaration p r m (← declaredBy p m n) none
  | .declaration m n _ (some e) => do
    let b ← declaredBy p m n
    let e ← expr p r e
    declaration p r m b (some e)
  | .assignment m t v => do
    let t ← expr p r t
    let v ← expr p r v
    return [.assignment m.span t v]
  | .expression m e => do return [.expression m.span (← expr p r e)]
  | .block b => do
    let c ← block p r b
    return if (p.analysis.wrapper? b.mark.id).isSome then c.statements else [.block c]
  | .branch m c t none => do
    let c ← expr p r c
    let t ← block p r t
    return [.branch m.span c t none]
  | .branch m c t (some e) => do
    let c ← expr p r c
    let t ← block p r t
    let e ← block p r e
    return [.branch m.span c t (some e)]
  | .loop m h (.mk b ss) =>
    let plan := p.loopPlan m.id
    match plan.wrapper with
    | none => do
      let h ← header p r h
      let ss ← stmts p r.loopBody ss
      return [.loop m.span h (.mk b.span ss)]
    | some w => do
      let drivers ← makeDrivers p plan
      let h ← header p (r.loopHeader drivers) h
      let ss ← stmts p (r.wrapper (loopWriteBacks p plan drivers)) ss
      wrappedLoop p r plan w drivers m.span h (.mk b.span ss)
  | .ret m none => pure (leave r .ret none m.span (.ret m.span none))
  | .ret m (some e) => do
    let e ← expr p r e
    return leave r .ret (some e) m.span (.ret m.span (some e))
  | .brk m => jump r .brk m.span (.brk m.span)
  | .cont m => jump r .cont m.span (.cont m.span)
  | .unknown m n => reject (.unknownStmt n) m.span

/-- Lowers the header of a loop. -/
def header (p : LoweringPlan) (r : Region) : Header Mark → Lower (Header Span)
  | .whileTrue m c => do return .whileTrue m.span (← expr p r c)
  | .counting m i c u => do
    let i ← match i with
      | none => pure none
      | some s => do single m.span (← stmt p r s)
    let c ← match c with
      | none => pure none
      | some e => do pure (some (← expr p r e))
    let u ← match u with
      | none => pure none
      | some s => do single m.span (← stmt p r s)
    return .counting m.span i c u
  | .forOf m n k e => do
    let e ← expr p r e
    let (n, k) ← elementVariable p r m n k
    return .forOf m.span n k e
  | .unknown m n => reject (.unknownHeader n) m.span

end

end Lower

/-- Lowers an analysed function. -/
def FunctionDef.lower (fn : FunctionDef Mark) (a : Analysis) :
    Except Failure (FunctionDef Span) := do
  let plan : LoweringPlan := ⟨a, .ofAnalysis a⟩
  let code := Lower.withHoisted plan (Lower.stmts plan .outermost fn.body.statements)
  let (body, _) ← code.run ⟨plan.naming.supply, []⟩
  return ⟨fn.mark.span, fn.name, fn.params, .mk fn.body.mark.span body⟩

end FlatScope
