import FlatScope.Proofs.Lowering.Lower
import FlatScope.Proofs.Scope.Flat

/-!
# Flat functions are lowered to themselves

In a flat function every scope is that of a function. So no block and no loop has a wrapper, and
every binding keeps its name (`LoweringPlan.Keeps`); what is left for the lowering to do is nothing
(`Lower.stmts_self` and its companions), whatever signals the function holds.
-/

namespace FlatScope

open Node

/-- There are no wrappers, and every binding keeps its name. -/
structure LoweringPlan.Keeps (p : LoweringPlan) : Prop where
  consistent : p.analysis.scoping.Consistent
  wrappers : p.analysis.wrappers = []
  plans : ∀ loop, (p.loopPlan loop).wrapper = none
  names : ∀ b ∈ p.analysis.scoping.bindings, p.naming.nameOf b.id = b.name

/-- A region of a real function, without loops around it that have drivers. -/
structure Region.IsPlain (r : Region) : Prop where
  inWrapper : r.inWrapper = false
  drivers : r.drivers = []

/-- A flat block runs in the scope that it stands in. -/
theorem Block.IsFlat.scopeIn {b : Block Mark} (h : b.IsFlat) (sc : ScopeId) :
    b.scopeIn sc = sc := by
  rw [Block.scopeIn, h.lexicals]
  rfl

/-- The clauses of a flat header run in the scope that the loop stands in. -/
theorem Header.IsFlat.scopeIn {h : Header Mark} (hh : h.IsFlat) (loop : NodeId) (sc : ScopeId) :
    h.scopeIn loop sc = sc := by
  rw [Header.scopeIn, Resolve.headerLexical?_flat hh]
  rfl

/-! ## The plan for a flat function -/

namespace Scoping.Flat

variable {a : Scoping}

theorem wrapper? (h : a.Flat) (x : Node Mark) : a.wrapper? x = none := by
  cases x with
  | block b => simp [Scoping.wrapper?, blockWrapper?, h.blocks]
  | stmt s =>
    cases s with
    | loop m hd b =>
      rw [Scoping.wrapper?, loopWrapper?]
      cases hl : a.loop? m.id with
      | none => rfl
      | some l =>
        obtain ⟨hh, hb⟩ := h.loops l (List.mem_of_find?_eq_some hl)
        simp [hh, hb]
    | _ => rfl
  | _ => rfl

end Scoping.Flat

/-- What the analysis of a flat function finds out, and that there is nothing to do. -/
theorem FunctionDef.analyse_flat {fn : FunctionDef Mark} {globals : List Name} {hoisting : Bool}
    {a : Analysis} {m : Nat} (hflat : fn.IsFlat) (hn : Consecutive fn.mark.id fn.nodes m)
    (h : fn.analyse globals hoisting = .ok a) :
    a.wrappers = [] ∧ LoweringPlan.Keeps ⟨a, .ofAnalysis a⟩ ∧
      a.scoping.ResolvedStmts globals fn.mark.id fn.mark.id false fn.body.statements := by
  obtain ⟨s, hs, -, rfl⟩ := FunctionDef.analyse_eq_ok.1 h
  obtain ⟨hf, hshape⟩ := FunctionDef.resolve_flat hflat hs
  obtain ⟨hcons, -, hres⟩ := FunctionDef.resolve_resolved hshape hn hs
  have hwrappers : fn.wrappers s = [] := List.filterMap_eq_nil_iff.2 fun x _ => hf.wrapper? x
  refine ⟨hwrappers, ⟨hcons, hwrappers, fun loop => ?_, fun b hb => ?_⟩, hres⟩
  · -- a loop is planned without a wrapper, since there is none to be found
    rw [LoweringPlan.loopPlan, Analysis.loopPlan?]
    cases hp : List.find? _ (fn.loopPlans s (fn.wrappers s) hoisting) with
    | none => rfl
    | some plan =>
      obtain ⟨x, -, hx⟩ := List.mem_filterMap.1 (List.mem_of_find?_eq_some hp)
      rw [hwrappers] at hx
      split at hx
      · cases hx
        rfl
      · cases hx
  · have hnodup : (s.bindings.map (·.id)).Nodup := by
      rw [hcons.numbered]
      exact List.nodup_range'
    have hkeeps : Naming.keepsName ⟨s, fn.wrappers s, fn.loopPlans s (fn.wrappers s) hoisting⟩
        b := by
      obtain ⟨t, ht, hid, -⟩ := hcons.listed b hb
      have hscope := hcons.scope?_of_mem ht
      rw [hid] at hscope
      simp [Naming.keepsName, hscope, hf.functions t ht]
    exact (Naming.ofAnalysis_separates hnodup fun w hw => by
      rw [show _ = [] from hwrappers] at hw
      cases hw).2.2 b hb hkeeps fun w hw => by
        rw [show _ = [] from hwrappers] at hw
        cases hw

/-! ## Code -/

namespace Lower

open LoweringPlan

variable {p : LoweringPlan} {globals : List Name}

/-- A name stays. -/
theorem refName_self (hp : p.Keeps) {r : Region} (hr : r.IsPlain) {sc : ScopeId}
    {node : NodeId} {n : Name} {w : Bool} (h : p.analysis.scoping.Refers globals sc node n w) :
    p.refName r node n = n := by
  obtain ⟨x, hx, -, -, -, hb, -⟩ := h
  rw [refName, hx, Option.bind_some, hb]
  cases hl : p.analysis.scoping.lookup? sc n with
  | none => rfl
  | some b =>
    obtain ⟨hbm, hbn, -⟩ := hp.consistent.of_lookup? hl
    change p.nameOf r b.id = n
    rw [nameOf, hr.drivers]
    exact (hp.names b hbm).trans hbn

/-- The variable of a declaration keeps its name. -/
theorem declaredBy_self (hp : p.Keeps) {r : Region} (hr : r.IsPlain) {fs sc : ScopeId}
    {node : NodeId} {n : Name} (h : p.analysis.scoping.Declares fs sc node n .var) :
    ∃ b, p.analysis.scoping.declared? node = some b ∧ p.nameOf r b.id = n ∧
      b.origin.isFunctionScoped := by
  obtain ⟨b, hb, hl, -, ho⟩ := h
  obtain ⟨hbm, hbn, -⟩ := hp.consistent.of_lookup? hl
  refine ⟨b, hb, ?_, ho⟩
  rw [nameOf, hr.drivers]
  exact (hp.names b hbm).trans hbn

/-- A `var` stays where it is. -/
theorem declaration_self {r : Region} (hr : r.IsPlain) {b : Binding} {m : Mark} {n : Name}
    (hn : p.nameOf r b.id = n) (ho : b.origin.isFunctionScoped) (v : Option (Expr Span))
    (st : LoweringState) :
    declaration p r m b v st = .ok ([.declaration m.span n .var v], st) := by
  rw [declaration]
  simp only [hn, ho, hr.inWrapper]
  rfl

mutual

theorem expr_self (hp : p.Keeps) :
    ∀ (e : Expr Mark) {r : Region} {sc : ScopeId} {st : LoweringState}, e.IsFlat →
    p.analysis.scoping.ResolvedExpr globals sc e → r.IsPlain →
    expr p r e st = .ok (e.map Mark.span, st)
  | .literal .., r, sc, st, _, _, _ | .signal _ _ none, r, sc, st, _, _, _ => by
    rw [expr]
    rfl
  | .name m n, r, sc, st, _, hres, hr => by
    rw [Scoping.ResolvedExpr] at hres
    rw [expr, refName_self hp hr hres]
    rfl
  | .unary _ _ e, r, sc, st, h, hres, hr | .signal _ _ (some e), r, sc, st, h, hres, hr
  | .signalIs _ e _, r, sc, st, h, hres, hr | .signalValue _ e, r, sc, st, h, hres, hr => by
    rw [Expr.IsFlat] at h
    rw [Scoping.ResolvedExpr] at hres
    rw [expr, bind_eq (expr_self hp e h hres hr)]
    rfl
  | .binary _ _ e f, r, sc, st, h, hres, hr | .index _ e f, r, sc, st, h, hres, hr => by
    rw [Expr.IsFlat] at h
    rw [Scoping.ResolvedExpr] at hres
    rw [expr, bind_eq (expr_self hp e h.1 hres.1 hr), bind_eq (expr_self hp f h.2 hres.2 hr)]
    rfl
  | .call _ f args, r, sc, st, h, hres, hr => by
    rw [Expr.IsFlat] at h
    rw [Scoping.ResolvedExpr] at hres
    rw [expr, bind_eq (expr_self hp f h.1 hres.1 hr), bind_eq (exprs_self hp args h.2 hres.2 hr)]
    rfl
  | .array _ es, r, sc, st, h, hres, hr => by
    rw [Expr.IsFlat] at h
    rw [Scoping.ResolvedExpr] at hres
    rw [expr, bind_eq (exprs_self hp es h hres hr)]
    rfl
  | .function m ps (.mk b ss), r, sc, st, h, hres, hr => by
    rw [Expr.IsFlat] at h
    rw [Scoping.ResolvedExpr] at hres
    have hss : stmts p r.function ss ⟨st.supply, []⟩ = .ok (_, ⟨st.supply, []⟩) :=
      stmts_self hp ss h hres.2 ⟨rfl, hr.drivers⟩ fun hf => absurd hf Bool.false_ne_true
    rw [expr, bind_eq (withHoisted_eq hss)]
    rfl
  | .unknown .., _, _, _, _, hres, _ => by
    rw [Scoping.ResolvedExpr] at hres
    exact hres.elim

theorem exprs_self (hp : p.Keeps) :
    ∀ (es : List (Expr Mark)) {r : Region} {sc : ScopeId} {st : LoweringState}, Expr.AreFlat es →
    p.analysis.scoping.ResolvedExprs globals sc es → r.IsPlain →
    exprs p r es st = .ok (Expr.mapList Mark.span es, st)
  | [], r, sc, st, _, _, _ => by
    rw [exprs]
    rfl
  | e :: es, r, sc, st, h, hres, hr => by
    rw [Expr.AreFlat] at h
    rw [Scoping.ResolvedExprs] at hres
    rw [exprs, bind_eq (expr_self hp e h.1 hres.1 hr), bind_eq (exprs_self hp es h.2 hres.2 hr)]
    rfl

theorem stmts_self (hp : p.Keeps) :
    ∀ (ss : List (Stmt Mark)) {r : Region} {fs sc : ScopeId} {inLoop : Bool} {st : LoweringState},
    Stmt.AreFlat ss → p.analysis.scoping.ResolvedStmts globals fs sc inLoop ss → r.IsPlain →
    (inLoop → r.inLoop) → stmts p r ss st = .ok (Stmt.mapList Mark.span ss, st)
  | [], r, fs, sc, inLoop, st, _, _, _, _ => by
    rw [stmts]
    rfl
  | s :: ss, r, fs, sc, inLoop, st, h, hres, hr, hin => by
    rw [Stmt.AreFlat] at h
    rw [Scoping.ResolvedStmts] at hres
    rw [stmts, bind_eq (stmt_self hp s h.1 hres.1 hr hin),
      bind_eq (stmts_self hp ss h.2 hres.2 hr hin)]
    rfl

theorem block_self (hp : p.Keeps) :
    ∀ (b : Block Mark) {r : Region} {fs sc : ScopeId} {inLoop : Bool} {st : LoweringState},
    b.IsFlat → p.analysis.scoping.ResolvedBlock globals fs sc inLoop b → r.IsPlain →
    (inLoop → r.inLoop) → block p r b st = .ok (b.map Mark.span, st)
  | .mk m ss, r, fs, sc, inLoop, st, h, hres, hr, hin => by
    have hb := h
    rw [Block.IsFlat] at h
    rw [Scoping.ResolvedBlock] at hres
    have hw : p.analysis.wrapper? m.id = none := by
      rw [Analysis.wrapper?, hp.wrappers]
      rfl
    rw [block, hw]
    dsimp only
    rw [bind_eq (stmts_self hp ss h hres.2 hr hin)]
    rfl

theorem stmt_self (hp : p.Keeps) : ∀ (s : Stmt Mark) {r : Region} {fs sc : ScopeId} {inLoop : Bool}
    {st : LoweringState}, s.IsFlat → p.analysis.scoping.ResolvedStmt globals fs sc inLoop s →
    r.IsPlain → (inLoop → r.inLoop) → stmt p r s st = .ok ([s.map Mark.span], st)
  | .declaration m n k none, r, fs, sc, inLoop, st, h, hres, hr, hin => by
    rw [Stmt.IsFlat] at h
    subst h
    rw [Scoping.ResolvedStmt] at hres
    obtain ⟨b, hb, hbn, ho⟩ := declaredBy_self hp hr hres.1
    rw [stmt, declaredBy, hb]
    exact declaration_self hr hbn ho none st
  | .declaration m n k (some e), r, fs, sc, inLoop, st, h, hres, hr, hin => by
    rw [Stmt.IsFlat] at h
    obtain ⟨rfl, he⟩ := h
    rw [Scoping.ResolvedStmt] at hres
    obtain ⟨b, hb, hbn, ho⟩ := declaredBy_self hp hr hres.1
    rw [stmt, declaredBy, hb]
    dsimp only
    rw [pure_bind, bind_eq (expr_self hp e he hres.2 hr)]
    exact declaration_self hr hbn ho _ st
  | .assignment m t v, r, fs, sc, inLoop, st, h, hres, hr, hin => by
    rw [Stmt.IsFlat] at h
    have hres : p.analysis.scoping.ResolvedExpr globals sc v ∧
        expr p r t st = .ok (t.map Mark.span, st) := by
      cases t with
      | name k n =>
        rw [Scoping.ResolvedStmt] at hres
        refine ⟨hres.2, ?_⟩
        rw [expr, refName_self hp hr hres.1]
        rfl
      | index k b i =>
        rw [Scoping.ResolvedStmt] at hres
        have hindex : p.analysis.scoping.ResolvedExpr globals sc (.index k b i) := by
          rw [Scoping.ResolvedExpr]
          exact ⟨hres.1, hres.2.1⟩
        exact ⟨hres.2.2, expr_self hp (.index k b i) h.1 hindex hr⟩
      | _ => simp only [Scoping.ResolvedStmt] at hres
    rw [stmt, bind_eq hres.2, bind_eq (expr_self hp v h.2 hres.1 hr)]
    rfl
  | .expression _ e, r, fs, sc, inLoop, st, h, hres, hr, hin => by
    rw [Stmt.IsFlat] at h
    rw [Scoping.ResolvedStmt] at hres
    rw [stmt, bind_eq (expr_self hp e h hres hr)]
    rfl
  | .block b, r, fs, sc, inLoop, st, h, hres, hr, hin => by
    rw [Stmt.IsFlat] at h
    rw [Scoping.ResolvedStmt] at hres
    have hw : p.analysis.wrapper? b.mark.id = none := by
      rw [Analysis.wrapper?, hp.wrappers]
      rfl
    rw [stmt, bind_eq (block_self hp b h hres.2 hr hin), hw]
    rfl
  | .branch _ c t none, r, fs, sc, inLoop, st, h, hres, hr, hin => by
    rw [Stmt.IsFlat] at h
    rw [Scoping.ResolvedStmt] at hres
    rw [stmt, bind_eq (expr_self hp c h.1 hres.1 hr), bind_eq (block_self hp t h.2 hres.2.2 hr hin)]
    rfl
  | .branch _ c t (some e), r, fs, sc, inLoop, st, h, hres, hr, hin => by
    rw [Stmt.IsFlat] at h
    rw [Scoping.ResolvedStmt] at hres
    obtain ⟨hc, -, ht, -, he⟩ := hres
    rw [stmt, bind_eq (expr_self hp c h.1 hc hr), bind_eq (block_self hp t h.2.1 ht hr hin),
      bind_eq (block_self hp e h.2.2 he hr hin)]
    rfl
  | .loop m hd (.mk b ss), r, fs, sc, inLoop, st, h, hres, hr, hin => by
    rw [Stmt.IsFlat] at h
    rw [Scoping.ResolvedStmt, Scoping.ResolvedBlock] at hres
    obtain ⟨-, -, hhd, -, hss⟩ := hres
    rw [stmt, hp.plans m.id]
    dsimp only
    rw [bind_eq (header_self hp hd h.1 hhd hr), bind_eq (stmts_self hp ss (r := r.loopBody) h.2 hss
      ⟨hr.inWrapper, hr.drivers⟩ fun _ => rfl)]
    rfl
  | .ret _ none, r, fs, sc, inLoop, st, _, _, hr, _ => by
    rw [stmt, leave, hr.inWrapper]
    rfl
  | .ret _ (some e), r, fs, sc, inLoop, st, h, hres, hr, _ => by
    rw [Stmt.IsFlat] at h
    rw [Scoping.ResolvedStmt] at hres
    rw [stmt, bind_eq (expr_self hp e h hres hr), leave, hr.inWrapper]
    rfl
  | .brk _, r, fs, sc, inLoop, st, _, hres, _, hin
  | .cont _, r, fs, sc, inLoop, st, _, hres, _, hin => by
    rw [Scoping.ResolvedStmt] at hres
    rw [stmt, jump, hin hres]
    rfl
  | .unknown .., _, _, _, _, _, _, hres, _, _ => by
    rw [Scoping.ResolvedStmt] at hres
    exact hres.elim

theorem header_self (hp : p.Keeps) :
    ∀ (h : Header Mark) {r : Region} {fs sc : ScopeId} {loop : NodeId} {st : LoweringState},
    h.IsFlat → p.analysis.scoping.ResolvedHeader globals fs sc loop h → r.IsPlain →
    header p r h st = .ok (h.map Mark.span, st)
  | .whileTrue _ c, r, fs, sc, loop, st, h, hres, hr => by
    rw [Header.IsFlat] at h
    rw [Scoping.ResolvedHeader] at hres
    rw [header, bind_eq (expr_self hp c h hres hr)]
    rfl
  | .counting m i c u, r, fs, sc, loop, st, h, hres, hr => by
    obtain ⟨hi, hc, hu⟩ := Header.isFlat_counting.1 h
    obtain ⟨hri, hrc, hru⟩ := Scoping.resolvedHeader_counting.1 hres
    have hinit : clauseStmt m.span (stmt p r) i st = .ok (i.map (Stmt.map Mark.span), st) := by
      cases i with
      | none => rfl
      | some s =>
        rw [clauseStmt, bind_eq (stmt_self hp s (hi s rfl).2 (hri s rfl) hr fun hf =>
          absurd hf Bool.false_ne_true)]
        rfl
    have hcond : clause (expr p r) c st = .ok (c.map (Expr.map Mark.span), st) := by
      cases c with
      | none => rfl
      | some e =>
        rw [clause, bind_eq (expr_self hp e (hc e rfl) (hrc e rfl) hr)]
        rfl
    have hupdate : clauseStmt m.span (stmt p r) u st = .ok (u.map (Stmt.map Mark.span), st) := by
      cases u with
      | none => rfl
      | some s =>
        rw [clauseStmt, bind_eq (stmt_self hp s (hu s rfl).2 (hru s rfl) hr fun hf =>
          absurd hf Bool.false_ne_true)]
        rfl
    rw [header_counting, bind_eq hinit, bind_eq hcond, bind_eq hupdate]
    cases i <;> cases c <;> cases u <;> rfl
  | .forOf m n k e, r, fs, sc, loop, st, h, hres, hr => by
    rw [Header.IsFlat] at h
    obtain ⟨rfl | rfl, he⟩ := h
    · rw [Scoping.ResolvedHeader] at hres
      rw [header, bind_eq (expr_self hp e he hres.1 hr), elementVariable, refName_self hp hr hres.2]
      rfl
    · rw [Scoping.ResolvedHeader] at hres
      obtain ⟨b, hb, hbn, ho⟩ := declaredBy_self hp hr hres.2.1
      rw [header, bind_eq (expr_self hp e he hres.1 hr), elementVariable, hb]
      simp only [hbn, ho, hr.inWrapper]
      rfl
  | .unknown .., _, _, _, _, _, _, hres, _ => by
    rw [Scoping.ResolvedHeader] at hres
    exact hres.elim

end

end Lower

/-- A flat function is lowered to itself. -/
theorem FunctionDef.lower_self {fn : FunctionDef Mark} {globals : List Name} {a : Analysis}
    (hflat : fn.IsFlat) (hkeeps : LoweringPlan.Keeps ⟨a, .ofAnalysis a⟩)
    (hres : a.scoping.ResolvedStmts globals fn.mark.id fn.mark.id false fn.body.statements) :
    fn.lower a = .ok (fn.map Mark.span) := by
  obtain ⟨mark, name, params, b, ss⟩ := fn
  have hss : Lower.stmts ⟨a, .ofAnalysis a⟩ .outermost ss ⟨(Naming.ofAnalysis a).supply, []⟩ =
      .ok (_, ⟨(Naming.ofAnalysis a).supply, []⟩) :=
    Lower.stmts_self hkeeps ss hflat hres ⟨rfl, rfl⟩ fun hf => absurd hf Bool.false_ne_true
  have hcode : Lower.withHoisted ⟨a, .ofAnalysis a⟩ _ ⟨(Naming.ofAnalysis a).supply, []⟩ = _ :=
    Lower.withHoisted_eq hss
  rw [FunctionDef.lower]
  dsimp only
  change (StateT.run (Lower.withHoisted ⟨a, .ofAnalysis a⟩
    (Lower.stmts ⟨a, .ofAnalysis a⟩ .outermost ss)) _ >>= _) = _
  rw [StateT.run, hcode]
  rfl

/-- A flat function that passes the checks has no wrappers and is lowered to itself. -/
theorem FunctionDef.lower_flat {fn : FunctionDef Span} (hflat : fn.IsFlat) {globals : List Name}
    {hoisting : Bool} {a : Analysis} (h : fn.number.analyse globals hoisting = .ok a) :
    a.wrappers = [] ∧ fn.number.lower a = .ok fn := by
  obtain ⟨hw, hkeeps, hres⟩ := FunctionDef.analyse_flat (fn.isFlat_number.2 hflat)
    (fn.numberFrom_consecutive 1) h
  rw [FunctionDef.lower_self (fn.isFlat_number.2 hflat) hkeeps hres, fn.number_map]
  exact ⟨hw, rfl⟩

end FlatScope
