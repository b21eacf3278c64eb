import FlatScope.Proofs.Lowering.WriteBack

/-!
# The wrappers of lowered code

Lowered code stands for source code piece by piece: the statements stand for those of the source in
order, and where a block or a loop of the source has a wrapper, the lowered block or the body of the
lowered loop calls a function with the lowered code (`WrapsStmts` and its companions). Each of these
calls is described by a `WrapperCall`, so that a property can be stated of all of them at once.

What an analysed function is lowered to wraps its code, and a property holds of all calls of
wrappers in it if it does at every block and every loop, whatever code is around
(`LoweringPlan.HoldsOfCalls`).
-/

namespace FlatScope

open Node

/-- The code of a function or wrapper, with its parameters. -/
structure Routine where
  params : List Name
  code : Block Span

/-- A function with the code. -/
def Routine.expr (f : Routine) (s : Span) : Expr Span := .function s f.params f.code

/-- A call of a wrapper in lowered code. -/
structure WrapperCall where
  /-- The block or loop of the source that has the wrapper. -/
  source : NodeId
  /-- The innermost function or wrapper around the call. -/
  around : Routine
  /-- The header of the loop whose body makes the call. -/
  header? : Option (Header Span)
  wrapper : Routine
  call : Expr Span

/-- The statements make the call, and maybe do something about its signals. -/
inductive Stmt.Calls (call : Expr Span) : List (Stmt Span) → Prop
  | plain {s : Span} : Calls call [.expression s call]
  | signal {s : Span} {sig : Name} {handlers : List (Stmt Span)} :
    Calls call (.declaration s sig .var (some call) :: handlers)

/-- The statements that call a wrapper. -/
theorem Region.Calls.stmts {r : Region} {exits : List Exit} {site : CallSite} {s : Span}
    {call : Expr Span} {out : List (Stmt Span)} {roles : Roles}
    (h : r.Calls exits site s call out roles) :
    Stmt.Calls call out := by
  rw [Region.Calls] at h
  split at h
  · rw [h.1]
    exact .plain
  · obtain ⟨sig, h, -⟩ := h
    rw [(signalCall_ok h).2]
    exact .signal

namespace LoweringPlan

variable (p : LoweringPlan) (P : WrapperCall → Prop)

mutual

/-- The lowered expression stands for the expression, and `P` holds of all calls of wrappers in
    it. -/
def WrapsExpr : Expr Mark → Expr Span → Prop
  | .literal m v, x => x = .literal m.span v
  | .name m _, x => ∃ n, x = .name m.span n
  | .unary m op e, x => ∃ e', WrapsExpr e e' ∧ x = .unary m.span op e'
  | .binary m op e f, x => ∃ e' f', WrapsExpr e e' ∧ WrapsExpr f f' ∧ x = .binary m.span op e' f'
  | .call m f args, x =>
    ∃ f' args', WrapsExpr f f' ∧ WrapsExprs args args' ∧ x = .call m.span f' args'
  | .array m es, x => ∃ es', WrapsExprs es es' ∧ x = .array m.span es'
  | .index m b i, x => ∃ b' i', WrapsExpr b b' ∧ WrapsExpr i i' ∧ x = .index m.span b' i'
  | .function m ps (.mk b ss), x => ∃ (hoisted : List BindingId) (out : List (Stmt Span)),
    let f : Routine := ⟨ps, .mk b.span (p.hoistedDeclarations hoisted ++ out)⟩
    WrapsStmts f ss out ∧ x = f.expr m.span
  | .signal .., _ | .signalIs .., _ | .signalValue .., _ | .unknown .., _ => False

def WrapsExprs : List (Expr Mark) → List (Expr Span) → Prop
  | [], xs => xs = []
  | e :: es, xs => ∃ e' es', WrapsExpr e e' ∧ WrapsExprs es es' ∧ xs = e' :: es'

/-- The lowered statements stand for the statements in the code of a function or wrapper. -/
def WrapsStmts (f : Routine) : List (Stmt Mark) → List (Stmt Span) → Prop
  | [], out => out = []
  | s :: ss, out => ∃ o os, WrapsStmt f s o ∧ WrapsStmts f ss os ∧ out = o ++ os

/-- The lowered block has statements for those of the block, or calls its wrapper. -/
def WrapsBlock (f : Routine) : Block Mark → Block Span → Prop
  | .mk m ss, x =>
    match p.analysis.wrapper? m.id with
    | none => ∃ out, WrapsStmts f ss out ∧ x = .mk m.span out
    | some w => ∃ body inner,
      let wrapper : Routine := ⟨[], .mk m.span (Lower.wrapperCode w [] body)⟩
      let call : Expr Span := .call m.span (wrapper.expr m.span) []
      WrapsStmts wrapper ss body ∧ Stmt.Calls call inner ∧ P ⟨m.id, f, none, wrapper, call⟩ ∧
        x = .mk m.span inner

/-- The lowered statements stand for the statement. The body of a loop with a wrapper calls it, and
    the wrapper is made in the call or before the loop. -/
def WrapsStmt (f : Routine) : Stmt Mark → List (Stmt Span) → Prop
  | .declaration _ _ _ none, out => out = [] ∨ ∃ s n v, out = [.declaration s n .var v] ∧
    ∀ e, v = some e → ∃ t, e = .literal t .undefined
  | .declaration _ _ _ (some e), out => ∃ e' s t n, WrapsExpr e e' ∧
    (out = [.declaration s n .var (some e')] ∨ out = [.assignment s (.name t n) e'])
  | .assignment m t v, out =>
    ∃ t' v', WrapsExpr t t' ∧ WrapsExpr v v' ∧ out = [.assignment m.span t' v']
  | .expression m e, out => ∃ e', WrapsExpr e e' ∧ out = [.expression m.span e']
  | .block b, out => ∃ b', WrapsBlock f b b' ∧ (out = [.block b'] ∨ out = b'.statements)
  | .branch m c t none, out =>
    ∃ c' t', WrapsExpr c c' ∧ WrapsBlock f t t' ∧ out = [.branch m.span c' t' none]
  | .branch m c t (some e), out => ∃ c' t' e', WrapsExpr c c' ∧ WrapsBlock f t t' ∧
    WrapsBlock f e e' ∧ out = [.branch m.span c' t' (some e')]
  | .loop m h (.mk b ss), out =>
    match (p.loopPlan m.id).wrapper with
    | none => ∃ h' body, (p.loopPlan m.id).fresh = [] ∧ WrapsHeader f h h' ∧ WrapsStmts f ss body ∧
      out = [.loop m.span h' (.mk b.span body)]
    | some w => ∃ (drivers : List (BindingId × Name)) (h' : Header Span)
        (body inner : List (Stmt Span)) (callee : Expr Span),
      let wrapper : Routine := ⟨p.loopParams m, p.loopCode m b w drivers body⟩
      let call : Expr Span := .call m.span callee (loopArgs m drivers)
      drivers.map (·.1) = (p.loopPlan m.id).fresh ∧ WrapsHeader f h h' ∧
      WrapsStmts wrapper ss body ∧ Stmt.Calls call inner ∧ P ⟨m.id, f, some h', wrapper, call⟩ ∧
      (callee = wrapper.expr m.span ∧ out = [.loop m.span h' (.mk m.span inner)] ∨
        ∃ n, callee = .name m.span n ∧
          out = [.declaration m.span n .var (some (wrapper.expr m.span)),
            .loop m.span h' (.mk m.span inner)])
  | .ret m none, out => ∃ r, out = Lower.leave r .ret none m.span (.ret m.span none)
  | .ret m (some e), out => ∃ r e', WrapsExpr e e' ∧
    out = Lower.leave r .ret (some e') m.span (.ret m.span (some e'))
  | .brk m, out => ∃ r, out = Lower.leave r .brk none m.span (.brk m.span)
  | .cont m, out => ∃ r, out = Lower.leave r .cont none m.span (.cont m.span)
  | .unknown .., _ => False

/-- The lowered header stands for the header of a loop. -/
def WrapsHeader (f : Routine) : Header Mark → Header Span → Prop
  | .whileTrue m c, x => ∃ c', WrapsExpr c c' ∧ x = .whileTrue m.span c'
  | .counting m i c u, x => ∃ i' c' u',
    (match i with
      | none => i' = none
      | some s => WrapsStmt f s i'.toList) ∧
    (match c with
      | none => c' = none
      | some e => ∃ e', WrapsExpr e e' ∧ c' = some e') ∧
    (match u with
      | none => u' = none
      | some s => WrapsStmt f s u'.toList) ∧
    x = .counting m.span i' c' u'
  | .forOf m _ _ e, x => ∃ e' n k, WrapsExpr e e' ∧ x = .forOf m.span n k e'
  | .unknown .., _ => False

end

/-- The lowered function stands for the function. -/
def WrapsFunction (fn : FunctionDef Mark) (out : FunctionDef Span) : Prop :=
  ∃ (hoisted : List BindingId) (body : List (Stmt Span)),
    let f : Routine := ⟨fn.params, .mk fn.body.mark.span (p.hoistedDeclarations hoisted ++ body)⟩
    p.WrapsStmts P f fn.body.statements body ∧ out = ⟨fn.mark.span, fn.name, f.params, f.code⟩

variable {p P} {fn : FunctionDef Mark} {globals : List Name}

/-- The lowered header of a `for`, by its clauses. -/
theorem wrapsHeader_counting {f : Routine} {m : Mark} {i : Option (Stmt Mark)}
    {c : Option (Expr Mark)} {u : Option (Stmt Mark)} {x : Header Span} :
    p.WrapsHeader P f (.counting m i c u) x ↔ ∃ i' c' u',
      ((i = none → i' = none) ∧ ∀ s, i = some s → p.WrapsStmt P f s i'.toList) ∧
      ((c = none → c' = none) ∧ ∀ e, c = some e → ∃ e', p.WrapsExpr P e e' ∧ c' = some e') ∧
      ((u = none → u' = none) ∧ ∀ s, u = some s → p.WrapsStmt P f s u'.toList) ∧
      x = .counting m.span i' c' u' := by
  cases i <;> cases c <;> cases u <;> simp [WrapsHeader]

/-! ## Blocks and loops with wrappers -/

/-- A loop with a wrapper, in a region and scope, and what it is lowered to. -/
structure LowersWrappedLoop (p : LoweringPlan) (fn : FunctionDef Mark) (globals : List Name)
    (r : Region) (fs sc : ScopeId) (m b : Mark) (hd : Header Mark) (ss : List (Stmt Mark))
    (w : Wrapper) (drivers : List (BindingId × Name)) (h' : Header Span) (body : List (Stmt Span))
    (ρh ρb : Roles) : Prop where
  node : .stmt (.loop m hd (.mk b ss)) ∈ fn.nodes
  wrapper : (p.loopPlan m.id).wrapper = some w
  source : Stmt.AreSource ss
  openedHeader : p.analysis.scoping.OpensLoop m.id hd sc
  openedBody : p.analysis.scoping.OpensBlock (.mk b ss) (hd.scopeIn m.id sc)
  resolved : p.analysis.scoping.ResolvedStmts globals fs
    ((Block.mk b ss).scopeIn (hd.scopeIn m.id sc)) true ss
  keys : drivers.map (·.1) = (p.loopPlan m.id).fresh
  header : p.LowersHeader (r.loopHeader drivers) (hd.scopeIn m.id sc) hd h' ρh
  stmts : p.LowersStmts (p.loopRegion r m drivers)
    ((Block.mk b ss).scopeIn (hd.scopeIn m.id sc)) ss body ρb
  hosts : p.Hosts (p.loopRegion r m drivers) ((Block.mk b ss).scopeIn (hd.scopeIn m.id sc))
    (w.locals ++ w.params) ((p.loopPlan m.id).fresh.map p.ownRole ++ ρb)
  drivers : ∀ d ∈ drivers, (d.2, Role.holds (.driver d.1)) ∈ ρh ∧
    d.2 ∉ Roles.names ((p.loopPlan m.id).fresh.map p.ownRole ++ ρb) ∧ r.drivers.lookup d.1 = none

/-- A property holds of the calls of wrappers that lowered code makes, whatever code is around. -/
structure HoldsOfCalls (p : LoweringPlan) (fn : FunctionDef Mark) (globals : List Name)
    (P : WrapperCall → Prop) : Prop where
  block : ∀ {f m ss w body}, .block (.mk m ss) ∈ fn.nodes → p.analysis.wrapper? m.id = some w →
    P ⟨m.id, f, none, ⟨[], .mk m.span (Lower.wrapperCode w [] body)⟩,
      .call m.span (.function m.span [] (.mk m.span (Lower.wrapperCode w [] body))) []⟩
  loop : ∀ {f r R fs sc m b hd ss w drivers h' body ρh ρb callee},
    p.Code fn f.params f.code r.drivers R → (∀ z ∈ ρh, z ∈ R) →
    p.LowersWrappedLoop fn globals r fs sc m b hd ss w drivers h' body ρh ρb →
    (callee = .function m.span (p.loopParams m) (p.loopCode m b w drivers body) ∨
      ∃ n, callee = .name m.span n ∧
        (n, .wrapper (p.loopParams m) (p.loopCode m b w drivers body)) ∈ R) →
    P ⟨m.id, f, some h', ⟨p.loopParams m, p.loopCode m b w drivers body⟩,
      .call m.span callee (loopArgs m drivers)⟩

/-- The code of the wrapper of a loop. -/
theorem LowersWrappedLoop.code (hp : p.Sound fn globals) {r : Region} {fs sc : ScopeId} {m b : Mark}
    {hd : Header Mark} {ss : List (Stmt Mark)} {w : Wrapper} {drivers : List (BindingId × Name)}
    {h' : Header Span} {body : List (Stmt Span)} {ρh ρb : Roles}
    (h : p.LowersWrappedLoop fn globals r fs sc m b hd ss w drivers h' body ρh ρb) :
    p.Code fn (p.loopParams m) (p.loopCode m b w drivers body) r.drivers
      ((p.loopPlan m.id).fresh.map p.ownRole ++ ρb) :=
  .of_loop hp h.node h.keys (fun d hd => (h.drivers d hd).2.1) h.hosts h.source h.resolved
    (fun _ hy => (nodes_sublist (x := .function fn) h.node).subset (Stmt.mem_nodes_body hy)) h.stmts

/-! ## Lowered code wraps the code of the source -/

mutual

theorem LowersExpr.wraps (hp : p.Sound fn globals) (hP : p.HoldsOfCalls fn globals P) :
    ∀ {e : Expr Mark} {r : Region} {sc : ScopeId} {e' : Expr Span}, e.IsSource →
    p.analysis.scoping.ResolvedExpr globals sc e → (∀ y ∈ e.nodes, y ∈ fn.nodes) →
    p.LowersExpr r e e' → p.WrapsExpr P e e'
  | .literal .., _, _, _, _, _, _, h => h
  | .name .., _, _, _, _, _, _, h => ⟨_, h⟩
  | .unary _ _ e, _, _, _, hsrc, hres, hin, h => by
    obtain ⟨e', he, rfl⟩ := h
    exact ⟨e', LowersExpr.wraps hp hP (e := e) hsrc hres
      (fun y hy => hin y (List.mem_cons_of_mem _ hy)) he, rfl⟩
  | .binary _ _ e f, _, _, _, hsrc, hres, hin, h => by
    obtain ⟨e', f', he, hf, rfl⟩ := h
    exact ⟨e', f', LowersExpr.wraps hp hP hsrc.1 hres.1
        (fun y hy => hin y (List.mem_cons_of_mem _ (List.mem_append_left _ hy))) he,
      LowersExpr.wraps hp hP hsrc.2 hres.2
        (fun y hy => hin y (List.mem_cons_of_mem _ (List.mem_append_right _ hy))) hf, rfl⟩
  | .call _ f args, _, _, _, hsrc, hres, hin, h => by
    obtain ⟨f', args', hf, hargs, rfl⟩ := h
    exact ⟨f', args', LowersExpr.wraps hp hP hsrc.1 hres.1
        (fun y hy => hin y (List.mem_cons_of_mem _ (List.mem_append_left _ hy))) hf,
      LowersExprs.wraps hp hP hsrc.2 hres.2
        (fun y hy => hin y (List.mem_cons_of_mem _ (List.mem_append_right _ hy))) hargs, rfl⟩
  | .array _ es, _, _, _, hsrc, hres, hin, h => by
    obtain ⟨es', hes, rfl⟩ := h
    have hin' : ∀ y ∈ Expr.nodesOfList es, y ∈ fn.nodes :=
      fun y hy => hin y (List.mem_cons_of_mem _ hy)
    exact ⟨es', LowersExprs.wraps hp hP hsrc hres hin' hes, rfl⟩
  | .index _ b i, _, _, _, hsrc, hres, hin, h => by
    obtain ⟨b', i', hb, hi, rfl⟩ := h
    exact ⟨b', i', LowersExpr.wraps hp hP hsrc.1 hres.1
        (fun y hy => hin y (List.mem_cons_of_mem _ (List.mem_append_left _ hy))) hb,
      LowersExpr.wraps hp hP hsrc.2 hres.2
        (fun y hy => hin y (List.mem_cons_of_mem _ (List.mem_append_right _ hy))) hi, rfl⟩
  | .function m ps (.mk b ss), r, _, _, hsrc, hres, hin, h => by
    obtain ⟨hoisted, out, roles, hss, hhosts, rfl⟩ := h
    have hin' : ∀ y ∈ Stmt.nodesOfList ss, y ∈ fn.nodes :=
      fun y hy => hin y (List.mem_cons_of_mem _ (List.mem_cons_of_mem _ hy))
    exact ⟨hoisted, out, LowersStmts.wraps (r := r.function) hp hP hsrc hres.2 hin'
      (.of_function (r := r) hp hhosts.toHosts hsrc hres.2 hin' hss b.span)
      (fun z hz => List.mem_append_right _ hz) hss, rfl⟩
  | .signal .., _, _, _, _, _, _, h | .signalIs .., _, _, _, _, _, _, h
  | .signalValue .., _, _, _, _, _, _, h | .unknown .., _, _, _, _, _, _, h => by
    simp only [LowersExpr] at h

theorem LowersExprs.wraps (hp : p.Sound fn globals) (hP : p.HoldsOfCalls fn globals P) :
    ∀ {es : List (Expr Mark)} {r : Region} {sc : ScopeId} {es' : List (Expr Span)},
    Expr.AreSource es → p.analysis.scoping.ResolvedExprs globals sc es →
    (∀ y ∈ Expr.nodesOfList es, y ∈ fn.nodes) → p.LowersExprs r es es' → p.WrapsExprs P es es'
  | [], _, _, _, _, _, _, h => h
  | e :: es, _, _, _, hsrc, hres, hin, h => by
    obtain ⟨e', es', he, hes, rfl⟩ := h
    exact ⟨e', es', LowersExpr.wraps hp hP hsrc.1 hres.1
        (fun y hy => hin y (List.mem_append_left _ hy)) he,
      LowersExprs.wraps hp hP hsrc.2 hres.2 (fun y hy => hin y (List.mem_append_right _ hy))
      hes, rfl⟩

theorem LowersStmts.wraps (hp : p.Sound fn globals) (hP : p.HoldsOfCalls fn globals P) :
    ∀ {ss : List (Stmt Mark)} {f : Routine} {r : Region} {R : Roles} {fs sc : ScopeId}
    {inLoop : Bool} {out : List (Stmt Span)} {ρ : Roles}, Stmt.AreSource ss →
    p.analysis.scoping.ResolvedStmts globals fs sc inLoop ss →
    (∀ y ∈ Stmt.nodesOfList ss, y ∈ fn.nodes) → p.Code fn f.params f.code r.drivers R →
    (∀ z ∈ ρ, z ∈ R) → p.LowersStmts r sc ss out ρ → p.WrapsStmts P f ss out
  | [], _, _, _, _, _, _, _, _, _, _, _, _, _, h => h.1
  | s :: ss, _, _, _, _, _, _, _, _, hsrc, hres, hin, hc, hR, h => by
    obtain ⟨o, os, ρ, ρs, ho, hos, rfl, rfl⟩ := h
    exact ⟨o, os, LowersStmt.wraps hp hP hsrc.1 hres.1
      (fun y hy => hin y (List.mem_append_left _ hy))
        hc (fun z hz => hR z (List.mem_append_left _ hz)) ho,
      LowersStmts.wraps hp hP hsrc.2 hres.2 (fun y hy => hin y (List.mem_append_right _ hy)) hc
        (fun z hz => hR z (List.mem_append_right _ hz)) hos, rfl⟩

theorem LowersBlock.wraps (hp : p.Sound fn globals) (hP : p.HoldsOfCalls fn globals P) :
    ∀ {b : Block Mark} {f : Routine} {r : Region} {R : Roles} {fs sc : ScopeId} {inLoop : Bool}
    {b' : Block Span} {ρ : Roles}, b.IsSource →
    p.analysis.scoping.ResolvedBlock globals fs sc inLoop b → (∀ y ∈ b.nodes, y ∈ fn.nodes) →
    p.Code fn f.params f.code r.drivers R → (∀ z ∈ ρ, z ∈ R) → p.LowersBlock r sc b b' ρ →
    p.WrapsBlock P f b b'
  | .mk m ss, f, r, R, fs, sc, inLoop, b', ρ, hsrc, hres, hin, hc, hR, h => by
    obtain ⟨hopens, hres⟩ := hres
    have hin' : ∀ y ∈ Stmt.nodesOfList ss, y ∈ fn.nodes :=
      fun y hy => hin y (List.mem_cons_of_mem _ hy)
    have hx : .block (.mk m ss) ∈ fn.nodes := hin _ List.mem_cons_self
    rw [WrapsBlock]
    cases hw : p.analysis.wrapper? m.id with
    | none =>
      obtain ⟨out, hss, rfl⟩ := (lowersBlock_plain hw).1 h
      exact ⟨out, LowersStmts.wraps hp hP hsrc hres hin' hc hR hss, rfl⟩
    | some w =>
      obtain ⟨body, inner, call, hss, hhosts, hcalls, rfl⟩ := (lowersBlock_wrapped hw).1 h
      have hwr : p.analysis.scoping.blockWrapper? (.mk m ss) = some w :=
        (hp.analysed.wrapper? hx).symm.trans hw
      obtain ⟨hne, -⟩ := hp.analysed.of_wrappedBlock hx hopens hwr
      rw [show (Block.mk m ss).scopeIn sc = m.id from Block.scopeIn_of_ne_nil hne] at hres
      exact ⟨body, call, LowersStmts.wraps (r := r.wrapper []) hp hP hsrc hres hin'
        (.of_block hp hhosts hsrc hres hin' hss w m.span) (fun z hz => hz) hss, hcalls.stmts,
        hP.block hx hw, rfl⟩

theorem LowersStmt.wraps (hp : p.Sound fn globals) (hP : p.HoldsOfCalls fn globals P) :
    ∀ {s : Stmt Mark} {f : Routine} {r : Region} {R : Roles} {fs sc : ScopeId} {inLoop : Bool}
    {out : List (Stmt Span)} {ρ : Roles}, s.IsSource →
    p.analysis.scoping.ResolvedStmt globals fs sc inLoop s → (∀ y ∈ s.nodes, y ∈ fn.nodes) →
    p.Code fn f.params f.code r.drivers R → (∀ z ∈ ρ, z ∈ R) → p.LowersStmt r sc s out ρ →
    p.WrapsStmt P f s out
  | .declaration _ _ _ none, _, _, _, _, _, _, _, _, _, _, _, _, _, h => by
    obtain ⟨b, -, h⟩ := h
    rcases h.cases with ⟨s, n, v, rfl, rfl | ⟨-, t, rfl⟩⟩ | ⟨-, rfl⟩ | ⟨_, _, _, _, hv, -⟩
    · exact .inr ⟨s, n, none, rfl, nofun⟩
    · exact .inr ⟨s, n, _, rfl, fun e he => ⟨t, (Option.some.inj he).symm⟩⟩
    · exact .inl rfl
    · cases hv
  | .declaration _ _ _ (some e), _, _, _, _, _, _, _, _, hsrc, hres, hin, _, _, h => by
    obtain ⟨b, e', -, he, h⟩ := h
    have he' := LowersExpr.wraps hp hP (e := e) hsrc hres.2
      (fun y hy => hin y (List.mem_cons_of_mem _ hy)) he
    rcases h.cases with ⟨s, n, v, rfl, rfl | ⟨hv, -⟩⟩ | ⟨hv, -⟩ | ⟨s, t, n, v, hv, rfl⟩
    · exact ⟨e', s, s, n, he', .inl rfl⟩
    · cases hv
    · cases hv
    · cases hv
      exact ⟨e', s, t, n, he', .inr rfl⟩
  | .assignment m t v, _, _, _, _, sc, _, _, _, hsrc, hres, hin, _, _, h => by
    obtain ⟨t', v', ht, hv, rfl, -⟩ := h
    have htin : ∀ y ∈ t.nodes, y ∈ fn.nodes :=
      fun y hy => hin y (List.mem_cons_of_mem _ (List.mem_append_left _ hy))
    have hres' : p.analysis.scoping.ResolvedExpr globals sc v := by
      cases t with
      | name => exact hres.2
      | index => exact hres.2.2
      | _ => exact hres.elim
    have ht' : p.WrapsExpr P t t' := by
      cases t with
      | name => exact ⟨_, ht⟩
      | index k b i =>
        have hresi : p.analysis.scoping.ResolvedExpr globals sc (.index k b i) := ⟨hres.1, hres.2.1⟩
        exact LowersExpr.wraps hp hP hsrc.1 hresi htin ht
      | _ => exact hres.elim
    exact ⟨t', v', ht', LowersExpr.wraps hp hP hsrc.2 hres'
      (fun y hy => hin y (List.mem_cons_of_mem _ (List.mem_append_right _ hy))) hv, rfl⟩
  | .expression _ e, _, _, _, _, _, _, _, _, hsrc, hres, hin, _, _, h => by
    obtain ⟨e', he, rfl, -⟩ := h
    exact ⟨e', LowersExpr.wraps hp hP (e := e) hsrc hres
      (fun y hy => hin y (List.mem_cons_of_mem _ hy)) he, rfl⟩
  | .block b, _, _, _, _, _, _, _, _, hsrc, hres, hin, hc, hR, h => by
    obtain ⟨b', hb, rfl⟩ := h
    refine ⟨b', LowersBlock.wraps hp hP (b := b) hsrc hres.2 hin hc hR hb, ?_⟩
    split
    · exact .inr rfl
    · exact .inl rfl
  | .branch _ e t none, _, _, _, _, _, _, _, _, hsrc, hres, hin, hc, hR, h => by
    obtain ⟨e', t', he, ht, rfl⟩ := h
    exact ⟨e', t', LowersExpr.wraps hp hP hsrc.1 hres.1
        (fun y hy => hin y (List.mem_cons_of_mem _ (List.mem_append_left _ hy))) he,
      LowersBlock.wraps hp hP hsrc.2 hres.2.2 (fun y hy => hin y (List.mem_cons_of_mem _
        (List.mem_append_right _ (List.mem_append_left _ hy)))) hc hR ht, rfl⟩
  | .branch _ e t (some g), _, _, _, _, _, _, _, _, hsrc, hres, hin, hc, hR, h => by
    obtain ⟨e', t', g', ρt, ρg, he, ht, hg, rfl, rfl⟩ := h
    exact ⟨e', t', g', LowersExpr.wraps hp hP hsrc.1 hres.1
        (fun y hy => hin y (List.mem_cons_of_mem _ (List.mem_append_left _ hy))) he,
      LowersBlock.wraps hp hP hsrc.2.1 hres.2.2.1 (fun y hy => hin y (List.mem_cons_of_mem _
        (List.mem_append_right _ (List.mem_append_left _ hy)))) hc
        (fun z hz => hR z (List.mem_append_left _ hz)) ht,
      LowersBlock.wraps hp hP hsrc.2.2 hres.2.2.2.2 (fun y hy => hin y (List.mem_cons_of_mem _
        (List.mem_append_right _ (List.mem_append_right _ hy)))) hc
        (fun z hz => hR z (List.mem_append_right _ hz)) hg, rfl⟩
  | .loop m hd (.mk b ss), f, r, R, fs, sc, inLoop, out, ρ, hsrc, hres, hin, hc, hR, h => by
    obtain ⟨-, hopens, hrh, hopensB, hrb⟩ := hres
    have hx : .stmt (.loop m hd (.mk b ss)) ∈ fn.nodes := hin _ List.mem_cons_self
    have hhin : ∀ y ∈ hd.nodes, y ∈ fn.nodes :=
      fun y hy => hin y (List.mem_cons_of_mem _ (List.mem_append_left _ hy))
    have hbin : ∀ y ∈ Stmt.nodesOfList ss, y ∈ fn.nodes := fun y hy =>
      hin y (Stmt.mem_nodes_body hy)
    rw [WrapsStmt]
    cases hw : (p.loopPlan m.id).wrapper with
    | none =>
      obtain ⟨h', body, ρh, ρb, hh, hb, rfl, rfl⟩ := (lowersStmt_plainLoop hw).1 h
      have hfresh : (p.loopPlan m.id).fresh = [] := List.eq_nil_iff_forall_not_mem.2 fun i hi => by
        obtain ⟨⟨w, hw'⟩, -⟩ := hp.of_fresh hx hi
        cases hw.symm.trans hw'
      exact ⟨h', body, hfresh, LowersHeader.wraps hp hP hsrc.1 hrh hhin hc
          (fun z hz => hR z (List.mem_append_left _ hz)) hh,
        LowersStmts.wraps (r := r.loopBody) hp hP hsrc.2 hrb hbin hc
          (fun z hz => hR z (List.mem_append_right _ hz)) hb, rfl⟩
    | some w =>
      obtain ⟨drivers, h', body, ρh, ρb, hkeys, hh, hb, hhosts, hdrivers, hcalls⟩ :=
        (lowersStmt_wrappedLoop hw).1 h
      have hl : p.LowersWrappedLoop fn globals r fs sc m b hd ss w drivers h' body ρh ρb :=
        ⟨hx, hw, hsrc.2, hopens, hopensB, hrb, hkeys, hh, hb, hhosts, hdrivers⟩
      have hbody := LowersStmts.wraps (f := ⟨p.loopParams m, p.loopCode m b w drivers body⟩)
        (r := p.loopRegion r m drivers) hp hP hsrc.2 hrb hbin (hl.code hp)
        (fun z hz => List.mem_append_right _ hz) hb
      -- the clauses of the header stand for those of the source under the drivers
      have hhead : (∀ z ∈ ρh, z ∈ ρ) → p.WrapsHeader P f hd h' := fun hsub =>
        LowersHeader.wraps (r := r.loopHeader drivers) hp hP hsrc.1 hrh hhin
          (hc.more fun i hi => (Option.or_eq_none_iff.1 (List.lookup_append.symm.trans hi)).2)
          (fun z hz => hR z (hsub z hz)) hh
      rw [CallsLoop] at hcalls
      split at hcalls
      · obtain ⟨name, call, ρc, hcalls, rfl, rfl⟩ := hcalls
        have hsub : ∀ z ∈ ρh, z ∈ R := fun z hz => hR z (List.mem_append_left _ hz)
        have hname := hR _ (List.mem_append_right _ (List.mem_cons_self ..))
        exact ⟨drivers, h', body, call, _, hkeys, hhead fun z hz =>
          List.mem_append_left _ hz, hbody, hcalls.stmts,
          hP.loop hc hsub hl (.inr ⟨name, rfl, hname⟩), .inr ⟨name, rfl, rfl⟩⟩
      · obtain ⟨call, ρc, hcalls, rfl, rfl⟩ := hcalls
        have hsub : ∀ z ∈ ρh, z ∈ R := fun z hz => hR z (List.mem_append_left _ hz)
        exact ⟨drivers, h', body, call, _, hkeys, hhead fun z hz =>
          List.mem_append_left _ hz, hbody, hcalls.stmts, hP.loop hc hsub hl (.inl rfl),
          .inl ⟨rfl, rfl⟩⟩
  | .ret m none, _, r, _, _, _, _, _, _, _, _, _, _, _, h => ⟨r, h.1⟩
  | .ret m (some e), _, r, _, _, _, _, _, _, hsrc, hres, hin, _, _, h => by
    obtain ⟨e', he, rfl, -⟩ := h
    exact ⟨r, e', LowersExpr.wraps hp hP (e := e) hsrc hres
      (fun y hy => hin y (List.mem_cons_of_mem _ hy)) he, rfl⟩
  | .brk m, _, r, _, _, _, _, _, _, _, _, _, _, _, h
  | .cont m, _, r, _, _, _, _, _, _, _, _, _, _, _, h => by
    obtain ⟨-, rfl⟩ := h
    split
    · exact ⟨.outermost, rfl⟩
    · exact ⟨r, rfl⟩
  | .unknown .., _, _, _, _, _, _, _, _, _, _, _, _, _, h => by
    simp only [LowersStmt] at h

theorem LowersHeader.wraps (hp : p.Sound fn globals) (hP : p.HoldsOfCalls fn globals P) :
    ∀ {h : Header Mark} {f : Routine} {r : Region} {R : Roles} {fs sc : ScopeId} {loop : NodeId}
    {h' : Header Span} {ρ : Roles}, h.IsSource →
    p.analysis.scoping.ResolvedHeader globals fs sc loop h → (∀ y ∈ h.nodes, y ∈ fn.nodes) →
    p.Code fn f.params f.code r.drivers R → (∀ z ∈ ρ, z ∈ R) →
    p.LowersHeader r (h.scopeIn loop sc) h h' ρ → p.WrapsHeader P f h h'
  | .whileTrue _ c, _, _, _, _, _, _, _, _, hsrc, hres, hin, _, _, h => by
    obtain ⟨c', hc, rfl, -⟩ := h
    exact ⟨c', LowersExpr.wraps hp hP (e := c) hsrc hres
      (fun y hy => hin y (List.mem_cons_of_mem _ hy)) hc, rfl⟩
  | .counting m i c u, f, r, R, fs, sc, loop, h', ρ, hsrc, hres, hin, hcode, hR, h => by
    obtain ⟨hsi, hsc, hsu⟩ := Header.shaped_counting.1 hsrc
    obtain ⟨hri, hrc, hru⟩ := Scoping.resolvedHeader_counting.1 hres
    obtain ⟨i', c', u', ρi, ρu, hi, hc, hu, rfl, rfl⟩ := lowersHeader_counting.1 h
    rw [Header.nodes_counting] at hin
    refine wrapsHeader_counting.2 ⟨i', c', u', ⟨fun h => (hi.1 h).1, ?_⟩, ⟨hc.1, ?_⟩,
      ⟨fun h => (hu.1 h).1, ?_⟩, rfl⟩
    · cases i with
      | none => exact nofun
      | some s =>
        rintro _ ⟨⟩
        exact LowersStmt.wraps hp hP (hsi s rfl).2 (hri s rfl)
          (fun y hy => hin y (List.mem_cons_of_mem _ (List.mem_append_left _ hy))) hcode
          (fun z hz => hR z (List.mem_append_left _ hz)) (hi.2 s rfl)
    · cases c with
      | none => exact nofun
      | some e =>
        rintro _ ⟨⟩
        obtain ⟨e', he, rfl⟩ := hc.2 e rfl
        exact ⟨e', LowersExpr.wraps hp hP (hsc e rfl) (hrc e rfl) (fun y hy => hin y
          (List.mem_cons_of_mem _ (List.mem_append_right _ (List.mem_append_left _ hy)))) he, rfl⟩
    · cases u with
      | none => exact nofun
      | some s =>
        rintro _ ⟨⟩
        exact LowersStmt.wraps hp hP (hsu s rfl).2 (hru s rfl) (fun y hy => hin y
          (List.mem_cons_of_mem _ (List.mem_append_right _ (List.mem_append_right _ hy)))) hcode
          (fun z hz => hR z (List.mem_append_right _ hz)) (hu.2 s rfl)
  | .forOf _ _ _ e, _, _, _, _, _, _, _, _, hsrc, hres, hin, _, _, h => by
    obtain ⟨e', n', k', he, -, rfl⟩ := h
    exact ⟨e', n', k', LowersExpr.wraps hp hP (e := e) hsrc hres.1
      (fun y hy => hin y (List.mem_cons_of_mem _ hy)) he, rfl⟩
  | .unknown .., _, _, _, _, _, _, _, _, _, _, _, _, _, h => by
    simp only [LowersHeader] at h

end

end LoweringPlan

end FlatScope
