import FlatScope.Proofs.Lowering.Covered
import FlatScope.Proofs.Lowering.Wrapped
import FlatScope.Proofs.Run.Handed
import FlatScope.Proofs.Run.Sessions

/-!
# Parameters that are handed back

The wrapper of a `for` that counts has a parameter if the binding of the header is a new one in
every iteration. Then the header declares a variable of its own, the driver, from which every call
of the wrapper gets its argument. The wrapper copies its parameter back into the driver on every way
out, if its body assigns to the binding; otherwise nothing in it assigns the parameter. So when a
call of the wrapper comes back to the loop, the driver holds what the parameter holds
(`LoweringPlan.HandsBack`).

* `FunctionDef.lower_handsBack`: all wrappers of such loops in a lowered function hand back.
-/

namespace FlatScope

open Node

/-- The variable that the header of a `for` declares. -/
def Header.variable? {α : Type} : Header α → Option Name
  | .counting _ (some (.declaration _ n _ _)) _ _ => some n
  | _ => none

/-- Wherever a flat program makes the call of the wrapper in the code around it, and the call comes
    back without a signal to return from the function, the variable `d` around it and the parameter
    `q` of the call hold one value. -/
def WrapperCall.Hands (c : WrapperCall) (d q : Name) : Prop :=
  ∀ {prog : Program Span} {n : Nat} {k : Closure} {env : FrameId} {s t : Store} {v : Value},
    prog.IsFlat → prog.Visits ⟨n, k, .expr c.call env, s⟩ → k.params = c.around.params →
    k.body = c.around.code → Eval.expr n c.call env s = .done v t → (∀ w, v ≠ .signal .ret w) →
    s.Hands t env d q

namespace LoweringPlan

/-- The wrapper of a loop with the header `hd` and the body `b` hands the binding `i` of the header
    back to the driver `d`. -/
structure HandsBack (p : LoweringPlan) (hd : Header Mark) (b : Block Mark)
    (i : BindingId) (d : Name) (c : WrapperCall) : Prop where
  driver : ∃ h', c.header? = some h' ∧ h'.variable? = some d
  params : c.wrapper.params = [p.naming.nameOf i]
  args : ∃ s callee k, c.call = .call s callee [.name k d]
  /-- If the body assigns to the binding, every way out stands behind a copy. -/
  copies : p.analysis.scoping.WrittenIn i b.nodes → c.wrapper.code.Covers d (p.naming.nameOf i)
  /-- Otherwise nothing in the wrapper assigns the parameter. -/
  keeps : ¬ p.analysis.scoping.WrittenIn i b.nodes → ¬ c.wrapper.code.Assigns (p.naming.nameOf i)
  hands : ¬ p.analysis.scoping.ClosesOver hd.nodes i → c.Hands d (p.naming.nameOf i)

/-- A call of the wrapper of a `for` that counts hands back the binding of the header, if it is a
    new one in every iteration. -/
def HandsBackFresh (p : LoweringPlan) (fn : FunctionDef Mark) (c : WrapperCall) : Prop :=
  ∀ m hd b i, .stmt (.loop m hd b) ∈ fn.nodes → m.id = c.source → Scoping.isCounting hd →
    i ∈ (p.loopPlan m.id).fresh → ∃ d, p.HandsBack hd b i d c

variable {p : LoweringPlan} {fn : FunctionDef Mark} {globals : List Name}

/-- The header of a lowered `for` declares the driver. -/
theorem Sound.header_variable (hp : p.Sound fn globals) {m : Mark} {hd : Header Mark}
    {b : Block Mark} {i : BindingId} {sc sc' : ScopeId} (hx : .stmt (.loop m hd b) ∈ fn.nodes)
    (ho : p.analysis.scoping.OpensLoop m.id hd sc) (hc : Scoping.isCounting hd)
    (hi : i ∈ (p.loopPlan m.id).fresh) {r : Region} {d : Name} {h' : Header Span} {ρ : Roles}
    (h : p.LowersHeader (r.loopHeader [(i, d)]) sc' hd h' ρ) : h'.variable? = some d := by
  obtain ⟨sc₀, hl, -⟩ := hp.analysed.noted _ hx
  obtain ⟨⟨w, hw⟩, -, -, e, he, rfl, hes, hno⟩ := hp.of_fresh hx hi
  obtain ⟨-, hfresh, -⟩ := hp.plan_wrapped hx hl hw
  cases hd with
  | counting k init c u =>
    rw [hfresh, Scoping.freshOf] at hi
    cases hlex : Resolve.headerLexical? (.counting k init c u) with
    | none =>
      rw [hlex] at hi
      cases hi
    | some l =>
      -- the binding is the one that the first clause declares
      obtain ⟨g, hg, hdecl, -, hgs, -, hids⟩ := hp.analysed.of_header ho hlex
      rw [hlex, Option.isSome_some, if_pos rfl, hids] at hi
      obtain rfl : g = e :=
        hp.analysed.eq_of_id hg he (List.mem_singleton.1 (List.mem_filter.1 hi).1).symm
      obtain ⟨i', c', u', ρi, ρu, hlow, -, -, rfl, -⟩ := lowersHeader_counting.1 h
      cases init with
      | none => cases hlex
      | some init =>
        cases init with
        | declaration k' n kind v =>
          obtain rfl : l.mark = k' := by
            rw [Resolve.headerLexical?, Stmt.lexical?] at hlex
            split at hlex <;> cases hlex
            rfl
          have hname : p.nameOf (r.loopHeader [(g.id, d)]) g.id = d := by
            rw [nameOf, Region.loopHeader, Table.lookup_append_of_some (y := d) (by simp)]
            rfl
          have hout : ∀ {value out ρ}, p.LowersDeclaration (r.loopHeader [(g.id, d)]) l.mark g value
              out ρ → ∃ s v, out = [.declaration s d .var v] := fun hd => by
            rw [LowersDeclaration, if_pos hno, hname] at hd
            exact ⟨_, _, hd.1⟩
          obtain ⟨s, v', hi'⟩ : ∃ s v', i'.toList = [.declaration s d .var v'] := by
            have := hlow.2 _ rfl
            cases v with
            | none =>
              obtain ⟨g', hg', hd'⟩ := this
              obtain rfl := Option.some.inj (hg'.symm.trans hdecl)
              exact hout hd'
            | some v =>
              obtain ⟨g', v', hg', -, hd'⟩ := this
              obtain rfl := Option.some.inj (hg'.symm.trans hdecl)
              exact hout hd'
          cases i' with
          | none => cases hi'
          | some o =>
            obtain rfl := (List.cons.inj hi').1
            rfl
        | _ => cases hlex
  | _ => cases hc

namespace LowersWrappedLoop

variable {r : Region} {fs sc : ScopeId} {m b : Mark} {hd : Header Mark} {ss : List (Stmt Mark)}
  {w : Wrapper} {i : BindingId} {d : Name} {h' : Header Span} {body : List (Stmt Span)}
  {ρh ρb : Roles}

/-- A wrapper that writes the binding back covers every way out. -/
theorem covers (hp : p.Sound fn globals)
    (h : p.LowersWrappedLoop fn globals r fs sc m b hd ss w [(i, d)] h' body ρh ρb)
    (hi : i ∈ (p.loopPlan m.id).writeBack) :
    (p.loopCode m b w [(i, d)] body).Covers d (p.naming.nameOf i) := by
  obtain ⟨sc₀, hl, -⟩ := hp.analysed.noted _ h.node
  obtain ⟨-, hfresh, hback⟩ := hp.plan_wrapped h.node hl h.wrapper
  have hone : (p.loopPlan m.id).writeBack = [i] := by
    rw [hback, Scoping.writeBackOf] at hi ⊢
    split at hi
    · rw [if_pos ‹_›, ← hfresh, ← h.keys] at *
      obtain ⟨-, hany⟩ := List.mem_filter.1 hi
      simp [hany]
    · cases hi
  have hws : Lower.loopWriteBacks p (p.loopPlan m.id) [(i, d)] = [(d, p.naming.nameOf i)] := by
    simp [Lower.loopWriteBacks, hone]
  rw [loopCode, hws]
  exact wrapperCode_covers (LowersStmts.covered (r := p.loopRegion r m [(i, d)])
    ⟨rfl, hws⟩ h.stmts) w _

/-- The wrapper of a `for` that counts hands the binding of the header back. -/
theorem handsBack (hp : p.Sound fn globals)
    (h : p.LowersWrappedLoop fn globals r fs sc m b hd ss w [(i, d)] h' body ρh ρb)
    (hcount : Scoping.isCounting hd) (hi : i ∈ (p.loopPlan m.id).fresh) {f : Routine} {R : Roles}
    (hc : p.Code fn f.params f.code r.drivers R) (hR : ∀ z ∈ ρh, z ∈ R) {callee : Expr Span}
    (hcallee : callee = .function m.span (p.loopParams m) (p.loopCode m b w [(i, d)] body) ∨
      ∃ n, callee = .name m.span n ∧
        (n, .wrapper (p.loopParams m) (p.loopCode m b w [(i, d)] body)) ∈ R) :
    p.HandsBack hd (.mk b ss) i d ⟨m.id, f, some h',
      ⟨p.loopParams m, p.loopCode m b w [(i, d)] body⟩,
      .call m.span callee (loopArgs m [(i, d)])⟩ := by
  obtain ⟨hrole, hfree, hlookup⟩ := h.drivers _ List.mem_cons_self
  -- the loop has one fresh binding, which is the only parameter
  have hparams : p.loopParams m = [p.naming.nameOf i] := by
    rw [loopParams, ← h.keys]
    rfl
  have hkeeps : ¬ p.analysis.scoping.WrittenIn i (Block.mk b ss).nodes →
      ¬ (p.loopCode m b w [(i, d)] body).Assigns (p.naming.nameOf i) := fun hno =>
    code_not_assigns hp h.node hi h.openedBody h.resolved h.source h.keys
      (fun d hd => (h.drivers d hd).2.1) h.stmts h.hosts hno w
  refine ⟨⟨h', rfl, hp.header_variable h.node h.openedHeader hcount hi h.header⟩, hparams,
    ⟨_, _, _, rfl⟩, fun hw => h.covers hp (hp.mem_writeBack h.node hcount hi hw), hkeeps, ?_⟩
  rintro hno prog n ⟨ps, c, frame, name⟩ env s t v hflat hvisits rfl rfl hrun hv
  have hreg := hvisits.regular hflat
  have hactive : Eval.Activation ⟨f.params, f.code, frame, name⟩ env s := hreg.active env rfl
  have hcode := (h.code hp).flat
  have hdecl : d ∈ f.params ∨ d ∈ f.code.vars.map (·.1) :=
    hc.declared (Roles.mem_names (hR _ hrole))
  have hnames : Eval.Names ⟨f.params, f.code, frame, name⟩ (p.naming.nameOf i)
      (p.loopCode m b w [(i, d)] body) callee := by
    rw [hparams] at hcallee
    rcases hcallee with rfl | ⟨x, rfl, hx⟩
    · exact .literal
    · obtain ⟨hps, hl, hset⟩ := hc.wraps hx
      exact .made ((hc.declared (Roles.mem_names hx)).resolve_left hps) hps hl hset
  have hown := (Expr.FlatAmong.call hreg.fits).1
  by_cases hw : i ∈ (p.loopPlan m.id).writeBack
  · -- the driver is none of the wrapper's own variables
    have hne : d ≠ p.naming.nameOf i := fun he => hfree (by
      rw [Roles.names_append, ← h.keys]
      exact List.mem_append_left _ (he ▸ List.mem_cons_self))
    have hvars : d ∉ (p.loopCode m b w [(i, d)] body).vars.map (·.1) := fun hin => hfree (by
      have hdeclares := (wrapperCode_flat (LowersStmts.flat h.source h.stmts) w
        (Lower.loopWriteBacks p (p.loopPlan m.id) [(i, d)])).declares
      rw [Roles.names_append]
      exact List.mem_append_right _ ((hdeclares.mem_iff d).1 hin))
    exact Eval.hands_of_covers hnames hactive hown hcode hdecl hrun (h.covers hp hw) hne hvars hv
  · -- nothing in the header and nothing in the body sets the variables
    have hdriver : ∀ y ∈ f.code.own, ¬ y.Lends d := fun y hy hl =>
      ((hp.lendsDriver h.node hi (hc.drives (hR _ hrole) hlookup hy hl)).elim hw hno)
    exact Eval.hands_of_not_assigns hnames hactive hown hcode hdecl hrun
      (hkeeps fun hw' => hw (hp.mem_writeBack h.node hcount hi hw')) hdriver

end LowersWrappedLoop

/-- All calls of wrappers in lowered code hand back. -/
theorem Sound.holdsOfCalls (hp : p.Sound fn globals) :
    p.HoldsOfCalls fn globals (p.HandsBackFresh fn) where
  block {f m ss w body} hx _ k hd b i hx' hid _ _ := by
    cases node_unique hp.analysed.nodup hx' hx hid
  loop {f r R fs sc m b hd ss w drivers h' body ρh ρb callee} hc hR hl hcallee k hd' b' i hx hid
      hcount hi := by
    cases node_unique hp.analysed.nodup hx hl.node hid
    have hfresh := (hp.of_fresh hl.node hi).2.1
    obtain ⟨d, rfl⟩ : ∃ d, drivers = [(i, d)] := by
      have hkeys := hl.keys.trans hfresh
      match drivers, hkeys with
      | [(_, d)], hkeys =>
        obtain rfl := (List.cons.inj hkeys).1
        exact ⟨d, rfl⟩
    exact ⟨d, hl.handsBack hp hcount hi hc hR hcallee⟩

end LoweringPlan

/-- In what an analysed function is lowered to, every wrapper of a `for` that counts hands the
    binding of the header back to the driver of the loop, if it is a new one in every iteration: the
    wrapper copies the parameter on every way out if the body assigns to the binding, and assigns it
    nowhere otherwise, and unless a function in the header uses the binding, both hold the same
    value after every call that comes back to the loop. -/
theorem FunctionDef.lower_handsBack {fn : FunctionDef Span} (hsrc : fn.IsSource)
    {globals : List Name} {hoisting : Bool} {a : Analysis}
    (h : fn.number.analyse globals hoisting = .ok a) : ∃ out, fn.number.lower a = .ok out ∧
    LoweringPlan.WrapsFunction ⟨a, .ofAnalysis a⟩
      (LoweringPlan.HandsBackFresh ⟨a, .ofAnalysis a⟩ fn.number) fn.number out := by
  have ha := FunctionDef.analyse_analysed (fn.shaped_number.2 hsrc) (fn.numberFrom_consecutive 1) h
  have hp : LoweringPlan.Sound ⟨a, .ofAnalysis a⟩ fn.number globals := ⟨ha, rfl⟩
  obtain ⟨out, hout, hoisted, body, roles, hlow, hhosts, rfl⟩ := ha.lower_lowers
  refine ⟨_, hout, hoisted, body, ?_, rfl⟩
  generalize fn.number = fn at *
  obtain ⟨k, name, params, b, ss⟩ := fn
  have hin : ∀ y ∈ Stmt.nodesOfList ss, y ∈ (FunctionDef.mk k name params (.mk b ss)).nodes :=
    fun y hy => List.mem_cons_of_mem _ (List.mem_cons_of_mem _ hy)
  exact LoweringPlan.LowersStmts.wraps (r := .outermost) hp hp.holdsOfCalls ha.source
    ha.resolved hin
    (.of_function (r := .outermost) hp hhosts.toHosts ha.source ha.resolved hin hlow b.span)
    (fun z hz => List.mem_append_right _ hz) hlow

/-- The function `function f() { for (let i = 0; i < 3; i = i + 1) { g(function () { return i; });
    i = i + 1; break; } }`, whose loop has a wrapper that assigns its parameter. -/
def writingLoop : FunctionDef Span :=
  let u := Span.unknown
  let i := Expr.name u "i"
  let next := Stmt.assignment u i (.binary u .add i (.literal u (.number (.int 1))))
  ⟨u, "f", [], .mk u [.loop u
    (.counting u (some (.declaration u "i" .letVar (some (.literal u (.number (.int 0))))))
      (some (.binary u .lt i (.literal u (.number (.int 3))))) (some next))
    (.mk u [.expression u (.call u (.name u "g") [.function u [] (.mk u [.ret u (some i)])]), next,
      .brk u])]⟩

/-- The theorem for the function in `writingLoop`, the binding of whose loop is written back. -/
theorem FunctionDef.lower_handsBack_writingLoop : ∃ a out,
    writingLoop.number.analyse ["g"] true = .ok a ∧
      a.loops.map (fun plan => (plan.fresh, plan.writeBack)) = [([1], [1])] ∧
      writingLoop.number.lower a = .ok out ∧ LoweringPlan.WrapsFunction ⟨a, .ofAnalysis a⟩
        (LoweringPlan.HandsBackFresh ⟨a, .ofAnalysis a⟩ writingLoop.number)
        writingLoop.number out := by
  have hsrc : writingLoop.IsSource := by
    simp [writingLoop, FunctionDef.Shaped, Block.Shaped, Stmt.ShapedList, Stmt.Shaped,
      Header.Shaped, Expr.Shaped, Expr.ShapedList, Stmt.isInit, Stmt.isUpdate]
  have hloops : (writingLoop.number.analyse ["g"] true).map
      (·.loops.map fun plan => (plan.fresh, plan.writeBack)) = .ok [([1], [1])] := by rfl
  cases ha : writingLoop.number.analyse ["g"] true with
  | error e =>
    rw [ha] at hloops
    cases hloops
  | ok a =>
    rw [ha] at hloops
    obtain ⟨out, hout, hwraps⟩ := FunctionDef.lower_handsBack hsrc ha
    exact ⟨a, out, rfl, Except.ok.inj hloops, hout, hwraps⟩

end FlatScope
