import FlatScope.Lowering
import FlatScope.Proofs.Scope.Resolved

/-!
# What a lowering makes of a function

`LowersExpr` and its companions relate a piece of code to what it is lowered to, by recursion over
the piece. Of the supply of names they only say what the lowered code shows: every variable that it
declares has a *role*, which is to hold a binding, to be the driver of one, to take the signal of a
call or to hold the wrapper of a loop (`Role`).

The variables of a function or wrapper *host* its code (`LoweringPlan.Hosts`) if no variable has two
roles, if the bindings that live there have their variables, and if nothing else that the code means
is called like one of these: not what lives further out, and not what is from outside of the
function.
-/

namespace FlatScope

/-- What holds the value of a binding: a variable of its own, or the driver of its loop. -/
inductive Slot where
  | binding (b : BindingId)
  | driver (b : BindingId)
  deriving DecidableEq, Repr

/-- What a variable of the lowered code is for. -/
inductive Role where
  | holds (slot : Slot)
  | signal
  /-- The wrapper of a loop, with its parameters and its code. -/
  | wrapper (params : List Name) (code : Block Span)

/-- What the variables for signals and wrappers are called, but for a number. -/
def Role.stem? : Role → Option Name
  | .holds _ => none
  | .signal => some "$sig"
  | .wrapper .. => some "$loop"

/-- The variables of a piece of lowered code. -/
abbrev Roles := List (Name × Role)

namespace Roles

/-- The names of the variables. -/
def names (rs : Roles) : List Name := rs.map (·.1)

@[simp] theorem names_append (rs ss : Roles) : names (rs ++ ss) = rs.names ++ ss.names :=
  List.map_append ..

@[simp] theorem names_cons (x : Name × Role) (rs : Roles) : names (x :: rs) = x.1 :: rs.names := rfl

@[simp] theorem names_nil : names [] = [] := rfl

/-- A variable that does not hold a binding. One for a signal or a wrapper is called so. -/
def Synthesized (ρ : Name × Role) : Prop :=
  (∀ b, ρ.2 ≠ .holds (.binding b)) ∧
    ∀ stem, ρ.2.stem? = some stem → ∃ k, ρ.1 = NameSupply.numbered stem k

theorem mem_names {rs : Roles} {x : Name} {ρ : Role} (h : (x, ρ) ∈ rs) : x ∈ rs.names :=
  List.mem_map_of_mem (f := (·.1)) h

theorem exists_of_mem_names {rs : Roles} {x : Name} (h : x ∈ rs.names) : ∃ ρ, (x, ρ) ∈ rs := by
  obtain ⟨⟨y, ρ⟩, hy, rfl⟩ := List.mem_map.1 h
  exact ⟨ρ, hy⟩

end Roles

/-- The variable for a binding in a region. -/
def Region.slot (r : Region) (b : BindingId) : Slot :=
  if (r.drivers.lookup b).isSome then .driver b else .binding b

/-- The call of a wrapper with the given exits, and what is done about its signals. -/
def Region.Calls (r : Region) (exits : List Exit) (site : CallSite) (span : Span) (call : Expr Span)
    (out : List (Stmt Span)) (roles : Roles) : Prop :=
  if exits.isEmpty then out = plainCall call span ∧ roles = []
  else ∃ sig, signalCall call sig exits site r.writeBacks span = .ok out ∧
    roles = [(sig, .signal)]

namespace LoweringPlan

variable (p : LoweringPlan)

/-- A binding and its variable. -/
def role (r : Region) (b : BindingId) : Name × Role := (p.nameOf r b, .holds (r.slot b))

/-- A binding and its variable where it is no driver's. -/
def ownRole (b : BindingId) : Name × Role := (p.naming.nameOf b, .holds (.binding b))

/-- The parameters of a function. -/
def paramRoles (id : ScopeId) (params : List Name) : Roles :=
  params.map fun n =>
    (n, .holds (.binding (((p.analysis.scoping.lookup? id n).map (·.id)).getD 0)))

/-- The variables of a function or wrapper host its code. -/
structure Hosts (r : Region) (sc : ScopeId) (own : List BindingId) (roles : Roles) : Prop where
  /-- A variable has one role. -/
  coherent : ∀ {x σ τ}, (x, σ) ∈ roles → (x, τ) ∈ roles → σ = τ
  /-- A slot is that of one variable. -/
  injective : ∀ {x y s}, (x, .holds s) ∈ roles → (y, .holds s) ∈ roles → x = y
  /-- What lives here has a variable. -/
  here : ∀ {n b}, p.analysis.scoping.lookup? sc n = some b → b.id ∈ own →
    r.slot b.id = .binding b.id ∧ p.role r b.id ∈ roles
  /-- What lives further out is not called like a variable. -/
  outer : ∀ {n b}, p.analysis.scoping.lookup? sc n = some b → b.id ∉ own →
    p.nameOf r b.id ∉ roles.names
  /-- What is from outside of the function is not called like a variable. -/
  global : ∀ {n}, p.analysis.scoping.lookup? sc n = none → n ∈ p.analysis.scoping.globalsUsed →
    n ∉ roles.names
  /-- A variable that does not hold a binding has a name of its own. -/
  made : ∀ {x σ}, (x, σ) ∈ roles → (∀ b, σ ≠ .holds (.binding b)) →
    x ∉ p.naming.supply.taken ∧ Roles.Synthesized (x, σ)

/-- The variables of a function host its code: its parameters, the variables declared at its top,
    which hold bindings of the function, and those of the code. -/
structure HostsFunction (r : Region) (id : ScopeId) (params : List Name) (hoisted : List BindingId)
    (roles : Roles) : Prop extends p.Hosts r id (p.analysis.scoping.bindingIdsOf id)
      (p.paramRoles id params ++ hoisted.map p.ownRole ++ roles) where
  hoisted : ∀ b ∈ hoisted, ∃ d ∈ p.analysis.scoping.bindings, d.id = b ∧ d.scope = id

/-- The declaration of a binding among statements. -/
def LowersDeclaration (r : Region) (m : Mark) (b : Binding) (value : Option (Expr Span))
    (out : List (Stmt Span)) (roles : Roles) : Prop :=
  if b.origin.isFunctionScoped = false then
    out = [.declaration m.span (p.nameOf r b.id) .var
      (some (value.getD (.literal m.span .undefined)))] ∧ roles = [p.role r b.id]
  else if r.inWrapper then
    out = (value.toList.map fun v => .assignment m.span (.name m.span (p.nameOf r b.id)) v) ∧
      roles = []
  else out = [.declaration m.span (p.nameOf r b.id) .var value] ∧ roles = [p.role r b.id]

/-- The variable of a loop over a sequence. -/
def LowersElement (r : Region) (m : Mark) (n : Name) (k : Option DeclKind) (n' : Name)
    (k' : Option DeclKind) (roles : Roles) : Prop :=
  match k with
  | none => n' = p.refName r m.id n ∧ k' = none ∧ roles = []
  | some _ => ∃ b, p.analysis.scoping.declared? m.id = some b ∧ n' = p.nameOf r b.id ∧
    if b.origin.isFunctionScoped && r.inWrapper then k' = none ∧ roles = []
    else k' = some .var ∧ roles = [p.role r b.id]

/-- The region of the wrapper of a loop. -/
def loopRegion (r : Region) (m : Mark) (drivers : List (BindingId × Name)) : Region :=
  r.wrapper (Lower.loopWriteBacks p (p.loopPlan m.id) drivers)

/-- The parameters of the wrapper of a loop. -/
def loopParams (m : Mark) : List Name := (p.loopPlan m.id).fresh.map p.naming.nameOf

/-- The code of the wrapper of a loop. -/
def loopCode (m b : Mark) (w : Wrapper) (drivers : List (BindingId × Name))
    (body : List (Stmt Span)) : Block Span :=
  .mk b.span (Lower.wrapperCode w (Lower.loopWriteBacks p (p.loopPlan m.id) drivers) body)

/-- The arguments of the wrapper of a loop. -/
def loopArgs (m : Mark) (drivers : List (BindingId × Name)) : List (Expr Span) :=
  drivers.map fun d => .name m.span d.2

/-- A loop whose body calls its wrapper, which is made before the loop or in the call. -/
def CallsLoop (r : Region) (m b : Mark) (w : Wrapper) (drivers : List (BindingId × Name))
    (h' : Header Span) (body : List (Stmt Span)) (ρh : Roles) (out : List (Stmt Span))
    (roles : Roles) : Prop :=
  let wrapper : Expr Span := .function m.span (p.loopParams m) (p.loopCode m b w drivers body)
  if (p.loopPlan m.id).hoist then ∃ name call ρc,
    r.Calls w.exits ⟨r.inWrapper, true⟩ m.span (.call m.span (.name m.span name)
      (loopArgs m drivers)) call ρc ∧
    out = [.declaration m.span name .var (some wrapper), .loop m.span h' (.mk m.span call)] ∧
    roles = ρh ++ (name, .wrapper (p.loopParams m) (p.loopCode m b w drivers body)) :: ρc
  else ∃ call ρc,
    r.Calls w.exits ⟨r.inWrapper, true⟩ m.span (.call m.span wrapper (loopArgs m drivers)) call
      ρc ∧
    out = [.loop m.span h' (.mk m.span call)] ∧ roles = ρh ++ ρc

mutual

/-- What an expression is lowered to. -/
def LowersExpr (r : Region) : Expr Mark → Expr Span → Prop
  | .literal m v, x => x = .literal m.span v
  | .name m n, x => x = .name m.span (p.refName r m.id n)
  | .unary m op e, x => ∃ e', LowersExpr r e e' ∧ x = .unary m.span op e'
  | .binary m op e f, x =>
    ∃ e' f', LowersExpr r e e' ∧ LowersExpr r f f' ∧ x = .binary m.span op e' f'
  | .call m f args, x =>
    ∃ f' args', LowersExpr r f f' ∧ LowersExprs r args args' ∧ x = .call m.span f' args'
  | .array m es, x => ∃ es', LowersExprs r es es' ∧ x = .array m.span es'
  | .index m b i, x =>
    ∃ b' i', LowersExpr r b b' ∧ LowersExpr r i i' ∧ x = .index m.span b' i'
  | .function m ps (.mk b ss), x =>
    ∃ hoisted out roles, LowersStmts r.function m.id ss out roles ∧
      p.HostsFunction r.function m.id ps hoisted roles ∧
      x = .function m.span ps (.mk b.span (p.hoistedDeclarations hoisted ++ out))
  | .signal .., _ | .signalIs .., _ | .signalValue .., _ | .unknown .., _ => False

def LowersExprs (r : Region) : List (Expr Mark) → List (Expr Span) → Prop
  | [], xs => xs = []
  | e :: es, xs => ∃ e' es', LowersExpr r e e' ∧ LowersExprs r es es' ∧ xs = e' :: es'

def LowersStmts (r : Region) (sc : ScopeId) :
    List (Stmt Mark) → List (Stmt Span) → Roles → Prop
  | [], out, roles => out = [] ∧ roles = []
  | s :: ss, out, roles => ∃ o os ρ ρs, LowersStmt r sc s o ρ ∧ LowersStmts r sc ss os ρs ∧
    out = o ++ os ∧ roles = ρ ++ ρs

/-- What a block in a scope is lowered to. -/
def LowersBlock (r : Region) (sc : ScopeId) : Block Mark → Block Span → Roles → Prop
  | .mk m ss, x, roles =>
    match p.analysis.wrapper? m.id with
    | none => ∃ out, LowersStmts r ((Block.mk m ss).scopeIn sc) ss out roles ∧ x = .mk m.span out
    | some w => ∃ out inner call, LowersStmts (r.wrapper []) m.id ss out inner ∧
      p.Hosts (r.wrapper []) m.id w.locals inner ∧
      r.Calls w.exits r.site m.span
        (.call m.span (.function m.span [] (.mk m.span (Lower.wrapperCode w [] out))) []) call
        roles ∧
      x = .mk m.span call

/-- What a statement in a scope is lowered to. -/
def LowersStmt (r : Region) (sc : ScopeId) : Stmt Mark → List (Stmt Span) → Roles → Prop
  | .declaration m _ _ none, out, roles => ∃ b, p.analysis.scoping.declared? m.id = some b ∧
    p.LowersDeclaration r m b none out roles
  | .declaration m _ _ (some e), out, roles => ∃ b e', p.analysis.scoping.declared? m.id = some b ∧
    LowersExpr r e e' ∧ p.LowersDeclaration r m b (some e') out roles
  | .assignment m t v, out, roles => ∃ t' v', LowersExpr r t t' ∧ LowersExpr r v v' ∧
    out = [.assignment m.span t' v'] ∧ roles = []
  | .expression m e, out, roles => ∃ e', LowersExpr r e e' ∧ out = [.expression m.span e'] ∧
    roles = []
  | .block b, out, roles => ∃ c, LowersBlock r sc b c roles ∧
    out = if (p.analysis.wrapper? b.mark.id).isSome then c.statements else [.block c]
  | .branch m c t none, out, roles => ∃ c' t', LowersExpr r c c' ∧ LowersBlock r sc t t' roles ∧
    out = [.branch m.span c' t' none]
  | .branch m c t (some e), out, roles => ∃ c' t' e' ρt ρe, LowersExpr r c c' ∧
    LowersBlock r sc t t' ρt ∧ LowersBlock r sc e e' ρe ∧
    out = [.branch m.span c' t' (some e')] ∧ roles = ρt ++ ρe
  | .loop m h (.mk b ss), out, roles =>
    let inner := (Block.mk b ss).scopeIn (h.scopeIn m.id sc)
    let plan := p.loopPlan m.id
    match plan.wrapper with
    | none => ∃ h' body ρh ρb, LowersHeader r (h.scopeIn m.id sc) h h' ρh ∧
      LowersStmts r.loopBody inner ss body ρb ∧ out = [.loop m.span h' (.mk b.span body)] ∧
      roles = ρh ++ ρb
    | some w => ∃ drivers h' body ρh ρb, drivers.map (·.1) = plan.fresh ∧
      LowersHeader (r.loopHeader drivers) (h.scopeIn m.id sc) h h' ρh ∧
      LowersStmts (p.loopRegion r m drivers) inner ss body ρb ∧
      p.Hosts (p.loopRegion r m drivers) inner (w.locals ++ w.params)
        (plan.fresh.map p.ownRole ++ ρb) ∧
      (∀ d ∈ drivers, (d.2, Role.holds (.driver d.1)) ∈ ρh ∧
        d.2 ∉ Roles.names (plan.fresh.map p.ownRole ++ ρb) ∧ r.drivers.lookup d.1 = none) ∧
      p.CallsLoop r m b w drivers h' body ρh out roles
  | .ret m none, out, roles => out = Lower.leave r .ret none m.span (.ret m.span none) ∧ roles = []
  | .ret m (some e), out, roles => ∃ e', LowersExpr r e e' ∧
    out = Lower.leave r .ret (some e') m.span (.ret m.span (some e')) ∧ roles = []
  | .brk m, out, roles => roles = [] ∧
    out = if r.inLoop then [.brk m.span] else Lower.leave r .brk none m.span (.brk m.span)
  | .cont m, out, roles => roles = [] ∧
    out = if r.inLoop then [.cont m.span] else Lower.leave r .cont none m.span (.cont m.span)
  | .unknown .., _, _ => False

/-- What the header of a loop is lowered to, whose clauses run in a scope. -/
def LowersHeader (r : Region) (sc : ScopeId) : Header Mark → Header Span → Roles → Prop
  | .whileTrue m c, x, roles => ∃ c', LowersExpr r c c' ∧ x = .whileTrue m.span c' ∧ roles = []
  | .counting m i c u, x, roles => ∃ i' c' u' ρi ρu,
    (match i with
      | none => i' = none ∧ ρi = []
      | some s => LowersStmt r sc s i'.toList ρi) ∧
    (match c with
      | none => c' = none
      | some e => ∃ e', LowersExpr r e e' ∧ c' = some e') ∧
    (match u with
      | none => u' = none ∧ ρu = []
      | some s => LowersStmt r sc s u'.toList ρu) ∧
    x = .counting m.span i' c' u' ∧ roles = ρi ++ ρu
  | .forOf m n k e, x, roles => ∃ e' n' k', LowersExpr r e e' ∧
    p.LowersElement r m n k n' k' roles ∧ x = .forOf m.span n' k' e'
  | .unknown .., _, _ => False

end

section Cases

variable {p} {r : Region} {sc : ScopeId}

/-- What a block without a wrapper is lowered to. -/
theorem lowersBlock_plain {m : Mark} {ss : List (Stmt Mark)} {x : Block Span} {roles : Roles}
    (hw : p.analysis.wrapper? m.id = none) : p.LowersBlock r sc (.mk m ss) x roles ↔
      ∃ out, p.LowersStmts r ((Block.mk m ss).scopeIn sc) ss out roles ∧ x = .mk m.span out := by
  rw [LowersBlock, hw]

/-- What a block with a wrapper is lowered to. -/
theorem lowersBlock_wrapped {m : Mark} {ss : List (Stmt Mark)} {x : Block Span} {roles : Roles}
    {w : Wrapper} (hw : p.analysis.wrapper? m.id = some w) :
    p.LowersBlock r sc (.mk m ss) x roles ↔
      ∃ out inner call, p.LowersStmts (r.wrapper []) m.id ss out inner ∧
        p.Hosts (r.wrapper []) m.id w.locals inner ∧
        r.Calls w.exits r.site m.span
          (.call m.span (.function m.span [] (.mk m.span (Lower.wrapperCode w [] out))) []) call
          roles ∧
        x = .mk m.span call := by
  rw [LowersBlock, hw]

/-- What a loop without a wrapper is lowered to. -/
theorem lowersStmt_plainLoop {m b : Mark} {h : Header Mark} {ss : List (Stmt Mark)}
    {out : List (Stmt Span)} {roles : Roles} (hw : (p.loopPlan m.id).wrapper = none) :
    p.LowersStmt r sc (.loop m h (.mk b ss)) out roles ↔
      ∃ h' body ρh ρb, p.LowersHeader r (h.scopeIn m.id sc) h h' ρh ∧
        p.LowersStmts r.loopBody ((Block.mk b ss).scopeIn (h.scopeIn m.id sc)) ss body ρb ∧
        out = [.loop m.span h' (.mk b.span body)] ∧ roles = ρh ++ ρb := by
  rw [LowersStmt, hw]

/-- What a loop with a wrapper is lowered to. -/
theorem lowersStmt_wrappedLoop {m b : Mark} {h : Header Mark} {ss : List (Stmt Mark)}
    {out : List (Stmt Span)} {roles : Roles} {w : Wrapper}
    (hw : (p.loopPlan m.id).wrapper = some w) :
    p.LowersStmt r sc (.loop m h (.mk b ss)) out roles ↔ ∃ drivers h' body ρh ρb,
      drivers.map (·.1) = (p.loopPlan m.id).fresh ∧
      p.LowersHeader (r.loopHeader drivers) (h.scopeIn m.id sc) h h' ρh ∧
      p.LowersStmts (p.loopRegion r m drivers) ((Block.mk b ss).scopeIn (h.scopeIn m.id sc)) ss body
        ρb ∧
      p.Hosts (p.loopRegion r m drivers) ((Block.mk b ss).scopeIn (h.scopeIn m.id sc))
        (w.locals ++ w.params) ((p.loopPlan m.id).fresh.map p.ownRole ++ ρb) ∧
      (∀ d ∈ drivers, (d.2, Role.holds (.driver d.1)) ∈ ρh ∧
        d.2 ∉ Roles.names ((p.loopPlan m.id).fresh.map p.ownRole ++ ρb) ∧
        r.drivers.lookup d.1 = none) ∧
      p.CallsLoop r m b w drivers h' body ρh out roles := by
  rw [LowersStmt, hw]

end Cases

/-- What the header of a `for` is lowered to, by its clauses. -/
theorem lowersHeader_counting {p : LoweringPlan} {r : Region} {sc : ScopeId} {m : Mark}
    {i : Option (Stmt Mark)} {c : Option (Expr Mark)} {u : Option (Stmt Mark)} {x : Header Span}
    {roles : Roles} : p.LowersHeader r sc (.counting m i c u) x roles ↔ ∃ i' c' u' ρi ρu,
      ((i = none → i' = none ∧ ρi = []) ∧ ∀ s, i = some s → p.LowersStmt r sc s i'.toList ρi) ∧
      ((c = none → c' = none) ∧ ∀ e, c = some e → ∃ e', p.LowersExpr r e e' ∧ c' = some e') ∧
      ((u = none → u' = none ∧ ρu = []) ∧ ∀ s, u = some s → p.LowersStmt r sc s u'.toList ρu) ∧
      x = .counting m.span i' c' u' ∧ roles = ρi ++ ρu := by
  cases i <;> cases c <;> cases u <;> simp [LowersHeader]

/-- What a function is lowered to. -/
def LowersFunction (fn : FunctionDef Mark) (out : FunctionDef Span) : Prop :=
  ∃ hoisted body roles, p.LowersStmts .outermost fn.mark.id fn.body.statements body roles ∧
    p.HostsFunction .outermost fn.mark.id fn.params hoisted roles ∧
    out = ⟨fn.mark.span, fn.name, fn.params,
      .mk fn.body.mark.span (p.hoistedDeclarations hoisted ++ body)⟩

end LoweringPlan

end FlatScope
