import FlatScope.Proofs.Regional.Clauses
import FlatScope.Proofs.Regional.Wrappers

/-!
# Statements of lowered programs

Lowered statements do what the machine does for the statements that they are made of, wherever the
names in these stand for the locations of their bindings (`World.stmts_sim`). A block or loop
without a wrapper runs in the frame around it, and a wrapper runs in a frame of its own, so both
meet the same invariant again: the names of their scope stand for locations, and the code stays in a
frame.
-/

namespace FlatScope

open Process

namespace Correspondence.Sim

variable {σ τ α β : Type} {C : Correspondence σ τ} {i : Nat} {w : C.World}
  {R : C.World → Except Interrupt α → Except Interrupt β → Prop} {x x' : Nat → Process σ α}
  {y : Nat → Process τ β}

/-- The left piece does what another one does from every state on. -/
theorem leading (hx : ∀ s, Process.Leads x s x' s) (h : C.Sim i w R x' y) : C.Sim i w R x y :=
  .leads fun w' s t hle hm => ⟨w', s, t, x', y, C.refl w', hm, hx s, .refl y t, h.later hle⟩

end Correspondence.Sim

namespace LoweringPlan

variable {p : LoweringPlan} {fn : FunctionDef Mark} {globals : List Name} {r r' : Region}
  {sc : ScopeId} {x : Node Mark}

/-- Only the drivers of a region count. -/
theorem Within.of_drivers (h : p.Within fn r sc x) (hd : r'.drivers = r.drivers) :
    p.Within fn r' sc x :=
  ⟨h.node, h.scope, fun hl => h.drivers (hd ▸ hl)⟩

/-- What stands in a block is in the scope of its statements. -/
theorem Within.statements (hp : p.Sound fn globals) {m : Mark} {ss : List (Stmt Mark)}
    (h : ∀ y ∈ (Block.mk m ss).nodes, p.Within fn r sc y) :
    ∀ y ∈ Stmt.nodesOfList ss, p.Within fn r ((Block.mk m ss).scopeIn sc) y := by
  intro y hy
  have hy' := h y (List.mem_cons_of_mem _ hy)
  rw [Block.scopeIn]
  split
  · exact hy'
  · exact hy'.below hp (h _ List.mem_cons_self).node hy

/-- What stands in a loop is in the scope of its header. -/
theorem Within.loop (hp : p.Sound fn globals) {m : Mark} {hd : Header Mark} {b : Block Mark}
    (h : ∀ y ∈ (Stmt.loop m hd b).nodes, p.Within fn r sc y) :
    ∀ y ∈ hd.nodes ++ b.nodes, p.Within fn r (hd.scopeIn m.id sc) y := by
  intro y hy
  have hy' := h y (List.mem_cons_of_mem _ hy)
  rw [Header.scopeIn]
  split
  · exact hy'.below hp (h _ List.mem_cons_self).node hy
  · exact hy'

/-- What stands in the header of a loop comes after the loop, whose bindings have drivers there. -/
theorem Within.loopHeader (h : p.Within fn r sc x) (hp : p.Sound fn globals) {loop : NodeId}
    {drivers : List (BindingId × Name)}
    (hkeys : ∀ j ∈ drivers.map (·.1), j ∈ p.analysis.scoping.bindingIdsOf loop)
    (hlt : loop < x.mark.id) : p.Within fn (r.loopHeader drivers) sc x := by
  refine ⟨h.node, h.scope, fun {j y} hl => ?_⟩
  rw [Region.loopHeader] at hl
  cases hj : drivers.lookup j with
  | none =>
    rw [Table.lookup_append_of_none hj] at hl
    exact h.drivers hl
  | some z =>
    have hmem := hkeys j (Table.exists_lookup.1 ⟨z, hj⟩)
    obtain ⟨d, hd, hid, hs⟩ := hp.analysed.consistent.mem_bindingIdsOf.1 hmem
    exact ⟨d, hd, hid, hs ▸ hlt⟩

/-- A loop without a wrapper has none by its scopes. -/
theorem Sound.plan_plain (hp : p.Sound fn globals) {m : Mark} {hd : Header Mark} {b : Block Mark}
    (hx : .stmt (.loop m hd b) ∈ fn.nodes) (hl : p.analysis.scoping.HasLoop m.id hd b sc)
    (hw : (p.loopPlan m.id).wrapper = none) : p.analysis.scoping.loopWrapper? m.id b = none := by
  cases hw' : p.analysis.scoping.loopWrapper? m.id b with
  | none => rfl
  | some w =>
    obtain ⟨plan, hplan, hwr, -⟩ := hp.analysed.loopPlan?_wrapped hx hl hw'
    rw [loopPlan, hplan] at hw
    cases hwr.symm.trans hw

/-- The wrapper of a loop has at most one parameter. -/
theorem Sound.loopParams_nodup (hp : p.Sound fn globals) {m : Mark} {hd : Header Mark}
    {b : Block Mark} (hx : .stmt (.loop m hd b) ∈ fn.nodes)
    (hl : p.analysis.scoping.HasLoop m.id hd b sc) (ho : p.analysis.scoping.OpensLoop m.id hd sc)
    {w : Wrapper} (hw : (p.loopPlan m.id).wrapper = some w) : (p.loopParams m).Nodup := by
  rw [loopParams, (hp.of_wrappedLoop hx hl hw).1, Scoping.freshOf]
  split
  · obtain ⟨l, hlex⟩ := Option.isSome_iff_exists.1 ‹_›
    obtain ⟨d, -, -, -, -, -, hids⟩ := hp.analysed.of_header ho hlex
    rw [hids]
    by_cases hper : p.analysis.scoping.isPerIteration d.id = true <;> simp [hper]
  · simp

end LoweringPlan

namespace Regional

/-- A wrapper is left by what its code is left by. -/
theorem dispatch_wrapper (pl : Place) (inLoop : Bool) (q : FrameId → List (Location × Location))
    (z : FrameId → Run Unit) : (do
      let g ← activate
      copyAll (q g)
      dispatch pl inLoop (z g) : Run Unit) = dispatch pl inLoop (do
        let g ← activate
        copyAll (q g)
        z g) := by
  funext m
  rfl

namespace World

variable {w w' : World} {p : LoweringPlan} {fn : FunctionDef Mark} {globals : List Name} {i : Nat}
  {r : Region} {fs sc : ScopeId} {f : FrameId} {env : Env} {may : Exit → Prop} {inLoop : Bool}
  {pl : Place} {roles : Roles}

/-- Wherever the names of a scope stand for the locations of their bindings, `x` does in a frame
    what `y` does in a place. -/
def Simulates (i : Nat) (p : LoweringPlan) (r : Region) (sc : ScopeId) (may : Exit → Prop)
    (roles : Roles) (x : FrameId → Nat → FlatScope.Run Unit) (y : Place → Env → Nat → Run Unit) :
    Prop :=
  ∀ ⦃w : World⦄ ⦃f : FrameId⦄ ⦃env : Env⦄ ⦃pl : Place⦄, w.Stands p r sc f env → w.Stays r f pl →
    (∀ ρ ∈ roles, ρ ∈ w.host f) → lowering.Sim i w (Runs r may) (x f) (y pl env)

/-- Flat statements in a block. -/
theorem block_runs {m : Span} {ss : List (Stmt Span)} (hflat : Stmt.AreFlat ss)
    {y : Nat → Run Unit} (h : lowering.Sim i w (Runs r may) (fun n => Eval.stmts n ss f) y) :
    lowering.Sim i w (Runs r may) (fun n => Eval.block n (.mk m ss) f) y :=
  h.leading fun s => Eval.leads_block hflat s f m

/-- A single statement. -/
theorem single_runs {x : Stmt Span} {y : Nat → Run Unit}
    (h : lowering.Sim i w (Runs r may) (fun n => Eval.stmt n x f) y) :
    lowering.Sim i w (Runs r may) (fun n => Eval.stmts n [x] f) y :=
  h.leading fun s => Eval.stmts_singleton x s f

/-- The code of a wrapper stays in the frame of its call. -/
theorem Stays.wrapper {ws : WriteBacks} {ls : List (Location × Location)} (hpos : 0 < w.frames)
    (h : List.Forall₂ (fun v l => (w.enter roles f).At w.frames v.1 l.1 ∧
      (w.enter roles f).At w.frames v.2 l.2) ws ls) :
    (w.enter roles f).Stays (r.wrapper ws) w.frames ⟨w.frames, false, ls⟩ :=
  ⟨rfl, hpos, Nat.lt_succ_self _, rfl, nofun, h⟩

/-! ## Wrapped blocks -/

/-- A block with a wrapper. -/
theorem wrappedBlock_sim (hp : p.Sound fn globals) {m : Mark} {ss : List (Stmt Mark)}
    (ho : p.analysis.scoping.OpensBlock (.mk m ss) sc) {wr : Wrapper}
    (hwr : p.analysis.scoping.blockWrapper? (.mk m ss) = some wr)
    (hx : .block (.mk m ss) ∈ fn.nodes) {out call : List (Stmt Span)} {inner : Roles}
    (hflat : Stmt.FlatWith out inner)
    (hss : Simulates i p (r.wrapper []) m.id (· ∈ wr.exits) inner (fun f n => Eval.stmts n out f)
      fun pl env k => stmts k p.analysis.scoping ss pl env)
    (hhosts : p.Hosts (r.wrapper []) m.id wr.locals inner) (hcalls : r.Calls wr.exits r.site m.span
      (.call m.span (.function m.span [] (.mk m.span (Lower.wrapperCode wr [] out))) []) call roles)
    (hmay : ∀ e ∈ wr.exits, may e) :
    Simulates i p r sc may roles (fun f n => Eval.stmts n call f)
      fun pl env k => block k p.analysis.scoping (.mk m ss) pl env := by
  intro w f env pl hs hst hroles
  obtain ⟨hne, -, hlocals, -⟩ := hp.analysed.of_wrappedBlock hx ho hwr
  rw [hlocals] at hhosts
  have hcall := wrapper_sim (i := i) (r := r) p [] m.span wr []
    (fun g k => stmts k p.analysis.scoping ss ⟨g, false, []⟩ (env.enter p.analysis.scoping m.id g))
    (fun _ => []) hst.positive hst.known
    (makes_function m.span [] (.mk m.span (Lower.wrapperCode wr [] out))) (by simp) (by simp)
    hhosts.distinct hflat fun w' hle => ?_
  · refine .right rfl (fun k => ?_) (calls_sim hst hcalls hroles hmay hcall)
    have hend (x : Run Unit) : (do x; copyAll []) = x := bind_pure' x
    simp only [hend]
    rw [block, hwr, ← hst.inLoop]
    exact dispatch_wrapper pl pl.inLoop (fun _ => []) _
  · have hpos : 0 < w'.frames := Nat.lt_of_lt_of_le hst.positive
      (Nat.le_trans (Nat.le_of_lt hst.known) hle.frames)
    refine ⟨⟨w'.frames, false, []⟩, rfl, .wrapper hpos .nil,
      hss ((hs.mono hle).wrappedBlock hp ho hne hhosts hpos) (.wrapper hpos .nil) fun ρ hρ => ?_⟩
    rw [enter_host]
    exact hρ

/-! ## Loops -/

section Loop

variable {m b : Mark} {hd : Header Mark} {ss : List (Stmt Mark)} {hd' : Header Span}
  {body : List (Stmt Span)} {ρh ρb : Roles}

/-- The place in the body of a loop. -/
theorem Stays.loopBody (h : w.Stays r f pl) : w.Stays r.loopBody f { pl with inLoop := true } :=
  ⟨h.activation, h.positive, h.known, rfl, h.plain, h.writeBacks⟩

/-- The exits of the body of a loop are its own ones, but for a `return`. -/
abbrev InBody (may : Exit → Prop) (e : Exit) : Prop := e ≠ .ret ∨ may .ret

/-- A loop without a wrapper. -/
theorem plainLoop_sim (hp : p.Sound fn globals) (hc : Calls i)
    (hsrc : (Stmt.loop m hd (.mk b ss)).IsSource)
    (hres : p.analysis.scoping.ResolvedStmt globals fs sc inLoop (.loop m hd (.mk b ss)))
    (hin : ∀ y ∈ (Stmt.loop m hd (.mk b ss)).nodes, p.Within fn r sc y)
    (hw : (p.loopPlan m.id).wrapper = none)
    (hh : p.LowersHeader r (hd.scopeIn m.id sc) hd hd' ρh)
    (hb : p.LowersStmts r.loopBody ((Block.mk b ss).scopeIn (hd.scopeIn m.id sc)) ss body ρb)
    (hss : Simulates i p r.loopBody ((Block.mk b ss).scopeIn (hd.scopeIn m.id sc)) (InBody may) ρb
      (fun f n => Eval.stmts n body f) fun pl env k => stmts k p.analysis.scoping ss pl env) :
    Simulates i p r sc may (ρh ++ ρb)
      (fun f n => Eval.stmts n [.loop m.span hd' (.mk b.span body)] f)
      fun pl env k => stmt k p.analysis.scoping (.loop m hd (.mk b ss)) pl env := by
  intro w f env pl hs hst hroles
  obtain rfl := hst.activation
  obtain ⟨hloop, ho, hrh, hob, hrb⟩ := hres
  have hx := (hin _ List.mem_cons_self).node
  have hinner := LoweringPlan.Within.loop hp hin
  have hplain := hp.plan_plain hx hloop hw
  have hheader : w.Stands p r (hd.scopeIn m.id sc) pl.activation
      (Loop.headerEnv ⟨m, hd, .mk b ss⟩ p.analysis.scoping pl env) := by
    rw [Loop.headerEnv, show Loop.fresh ⟨m, hd, .mk b ss⟩ p.analysis.scoping = [] by
      rw [Loop.fresh, hplain]]
    exact hs.header hp ho (hin _ List.mem_cons_self) rfl (List.map_nil (f := Prod.fst)) (by simp) hh
      hst.positive hst.known fun ρ hρ => hroles ρ (List.mem_append_left _ hρ)
  have hbody : lowering.Sim i w (Runs r.loopBody (InBody may))
      (fun n => Eval.block n (.mk b.span body) pl.activation)
      (fun k => Regional.body k p.analysis.scoping ⟨m, hd, .mk b ss⟩ pl env) := by
    have hblock := Stands.block (r := r.loopBody) ⟨hheader.known, hheader.global⟩ hp hob
      ((hinner _ (List.mem_append_right _ List.mem_cons_self)).of_drivers rfl) hb hst.positive
      hst.known fun ρ hρ => hroles ρ (List.mem_append_right _ hρ)
    refine block_runs (LoweringPlan.LowersStmts.flat hsrc.2 hb).flat (.right rfl (fun k => ?_)
      (hss hblock hst.loopBody fun ρ hρ => hroles ρ (List.mem_append_right _ hρ)))
    rw [Regional.body, hplain]
    rfl
  exact single_runs (.left rfl (fun _ => rfl) (.right rfl (fun _ => rfl) (loop_sim hp hc rfl hsrc.1
    hrh (fun y hy => ⟨hin y (List.mem_cons_of_mem _ (List.mem_append_left _ hy)),
      hinner y (List.mem_append_left _ hy)⟩) hs hheader hst.known hh
      (goesOn_sim hbody fun he => he.resolve_left (· rfl)))))

/-! ## Wrapped loops -/

section Wrapped

variable {wr : Wrapper} {drivers : List (BindingId × Name)}

/-- The drivers and the parameters that the wrapper of a loop copies are where the machine
    copies. -/
theorem writeBacks_at (hp : p.Sound fn globals) (hx : .stmt (.loop m hd (.mk b ss)) ∈ fn.nodes)
    (hloop : p.analysis.scoping.HasLoop m.id hd (.mk b ss) sc)
    (hw : (p.loopPlan m.id).wrapper = some wr)
    (hkeys : drivers.map (·.1) = (p.loopPlan m.id).fresh)
    (hdrivers : ∀ d ∈ drivers, (d.2, Role.holds (.driver d.1)) ∈ w.host pl.activation ∧
      d.2 ∉ Roles.names ((p.loopPlan m.id).fresh.map p.ownRole ++ ρb))
    (hf : 0 < pl.activation) (hlt : pl.activation < w.frames) (hpos : 0 < w.frames) :
    List.Forall₂ (fun v l =>
      (w.enter ((p.loopPlan m.id).fresh.map p.ownRole ++ ρb) pl.activation).At w.frames v.1 l.1 ∧
      (w.enter ((p.loopPlan m.id).fresh.map p.ownRole ++ ρb) pl.activation).At w.frames v.2 l.2)
      (Lower.loopWriteBacks p (p.loopPlan m.id) drivers)
      (Loop.writeBacks ⟨m, hd, .mk b ss⟩ p.analysis.scoping pl w.frames) := by
  obtain ⟨-, -, -, hback⟩ := hp.of_wrappedLoop hx hloop hw
  have hle := w.le_enter ((p.loopPlan m.id).fresh.map p.ownRole ++ ρb) pl.activation
  have hnew : w.frames < (w.enter ((p.loopPlan m.id).fresh.map p.ownRole ++ ρb)
    pl.activation).frames := Nat.lt_succ_self _
  rw [Loop.writeBacks, ← (hp.plan_wrapped hx hloop hw).2.2, Lower.loopWriteBacks,
    List.forall₂_map_left_iff, List.forall₂_map_right_iff, List.forall₂_same]
  intro i hi
  have hin := hback i hi
  obtain ⟨x, hlook⟩ := Table.exists_lookup.2 (hkeys ▸ hin : i ∈ drivers.map (·.1))
  obtain ⟨hrole, hnot⟩ := hdrivers _ (Table.mem_of_lookup hlook)
  rw [hlook, Option.getD_some]
  refine ⟨.up hpos hnew ?_ ?_, .here hpos hnew ?_⟩
  · rwa [enter_host]
  · rw [enter_parent]
    exact (At.here hf hlt hrole).mono hle
  · rw [enter_host]
    exact List.mem_append_left _ (List.mem_map_of_mem hin)

/-- The body of a loop that calls its wrapper. -/
theorem wrappedBody_sim (hp : p.Sound fn globals)
    (hx : .stmt (.loop m hd (.mk b ss)) ∈ fn.nodes)
    (hloop : p.analysis.scoping.HasLoop m.id hd (.mk b ss) sc)
    (ho : p.analysis.scoping.OpensLoop m.id hd sc)
    (hob : p.analysis.scoping.OpensBlock (.mk b ss) (hd.scopeIn m.id sc))
    (hw : (p.loopPlan m.id).wrapper = some wr)
    (hkeys : drivers.map (·.1) = (p.loopPlan m.id).fresh)
    (hhosts : p.Hosts (p.loopRegion r m drivers) ((Block.mk b ss).scopeIn (hd.scopeIn m.id sc))
      (wr.locals ++ wr.params) ((p.loopPlan m.id).fresh.map p.ownRole ++ ρb))
    (hdrivers : ∀ d ∈ drivers, (d.2, Role.holds (.driver d.1)) ∈ w.host f ∧
      d.2 ∉ Roles.names ((p.loopPlan m.id).fresh.map p.ownRole ++ ρb))
    (hflat : Stmt.FlatWith body ρb)
    (hss : Simulates i p (p.loopRegion r m drivers)
      ((Block.mk b ss).scopeIn (hd.scopeIn m.id sc)) (· ∈ wr.exits) ρb
      (fun f n => Eval.stmts n body f) fun pl env k => stmts k p.analysis.scoping ss pl env)
    (hs : w.Stands p (r.loopHeader drivers) (hd.scopeIn m.id sc) f
      (Loop.headerEnv ⟨m, hd, .mk b ss⟩ p.analysis.scoping pl env))
    (hst : w.Stays r f pl) {callee : Expr Span}
    (hmakes : w.Makes f callee ⟨p.loopParams m, p.loopCode m b wr drivers body, f, none⟩)
    {call : List (Stmt Span)} (hcalls : r.Calls wr.exits ⟨r.inWrapper, true⟩ m.span
      (.call m.span callee (LoweringPlan.loopArgs m drivers)) call roles)
    (hroles : ∀ ρ ∈ roles, ρ ∈ w.host f) (hret : .ret ∈ wr.exits → may .ret) :
    lowering.Sim i w (Runs r.loopBody (InBody may)) (fun n => Eval.stmts n call f)
      (fun k => Regional.body k p.analysis.scoping ⟨m, hd, .mk b ss⟩ pl env) := by
  obtain rfl := hst.activation
  obtain ⟨hwr, hfresh, -⟩ := hp.plan_wrapped hx hloop hw
  obtain ⟨-, hparams, hlocals, -⟩ := hp.of_wrappedLoop hx hloop hw
  have hlfresh : Loop.fresh ⟨m, hd, .mk b ss⟩ p.analysis.scoping = drivers.map (·.1) := by
    rw [Loop.fresh, hwr, hkeys, hfresh]
  have hnames := hp.loopParams_nodup hx hloop ho hw
  rw [LoweringPlan.loopParams, ← hkeys] at hmakes hnames
  rw [← hkeys, hparams.trans (hkeys.trans hfresh).symm] at hhosts
  have hcall := wrapper_sim (i := i) (r := r) p drivers m.span wr
    (Lower.loopWriteBacks p (p.loopPlan m.id) drivers)
    (fun g k => stmts k p.analysis.scoping ss
      ⟨g, false, Loop.writeBacks ⟨m, hd, .mk b ss⟩ p.analysis.scoping pl g⟩
      (((Loop.headerEnv ⟨m, hd, .mk b ss⟩ p.analysis.scoping pl env).params (drivers.map (·.1))
        g).block p.analysis.scoping (.mk b ss) g))
    (fun g => Loop.writeBacks ⟨m, hd, .mk b ss⟩ p.analysis.scoping pl g) hst.positive hst.known
    hmakes (fun d hd => (hdrivers d hd).1) hnames hhosts.distinct hflat fun w' hle => ?_
  · refine .right rfl (fun k => ?_) (calls_sim hst.loopBody hcalls hroles
      (fun e he => or_iff_not_imp_left.2 fun hne => ?_) hcall)
    · rw [Regional.body, hwr]
      simp only [Loop.parameters, hlfresh]
      exact dispatch_wrapper { pl with inLoop := true } true
        (fun g => (drivers.map (·.1)).map fun b =>
        (⟨g, .binding b⟩, ⟨pl.activation, .driver b⟩)) _
    · obtain rfl := not_not.1 hne
      exact hret he
  · have hle₁ : pl.activation < w'.frames := Nat.lt_of_lt_of_le hst.known hle.frames
    have hpos : 0 < w'.frames := Nat.lt_trans hst.positive hle₁
    have hback := writeBacks_at (w := w') hp hx hloop hw hkeys (fun d hd => by
      rw [hle.host _ hst.known]
      exact hdrivers d hd) hst.positive hle₁ hpos
    rw [← hkeys] at hback
    refine ⟨⟨w'.frames, false, _⟩, rfl, .wrapper hpos hback, hss ?_ (.wrapper hpos hback)
      fun ρ hρ => ?_⟩
    · exact (hs.mono hle).wrappedBody hp hob (by rw [hlocals]; rfl) hhosts hpos
    · rw [enter_host]
      exact List.mem_append_right _ hρ

/-- A loop with a wrapper, which is made before the loop or in every call. -/
theorem wrappedLoop_sim (hp : p.Sound fn globals) (hc : Calls i)
    (hsrc : (Stmt.loop m hd (.mk b ss)).IsSource)
    (hres : p.analysis.scoping.ResolvedStmt globals fs sc inLoop (.loop m hd (.mk b ss)))
    (hin : ∀ y ∈ (Stmt.loop m hd (.mk b ss)).nodes, p.Within fn r sc y)
    (hw : (p.loopPlan m.id).wrapper = some wr)
    (hkeys : drivers.map (·.1) = (p.loopPlan m.id).fresh)
    (hh : p.LowersHeader (r.loopHeader drivers) (hd.scopeIn m.id sc) hd hd' ρh)
    (hb : p.LowersStmts (p.loopRegion r m drivers) ((Block.mk b ss).scopeIn (hd.scopeIn m.id sc)) ss
      body ρb)
    (hhosts : p.Hosts (p.loopRegion r m drivers) ((Block.mk b ss).scopeIn (hd.scopeIn m.id sc))
      (wr.locals ++ wr.params) ((p.loopPlan m.id).fresh.map p.ownRole ++ ρb))
    (hdrivers : ∀ d ∈ drivers, (d.2, Role.holds (.driver d.1)) ∈ ρh ∧
      d.2 ∉ Roles.names ((p.loopPlan m.id).fresh.map p.ownRole ++ ρb) ∧ r.drivers.lookup d.1 = none)
    (hss : Simulates i p (p.loopRegion r m drivers)
      ((Block.mk b ss).scopeIn (hd.scopeIn m.id sc)) (· ∈ wr.exits) ρb
      (fun f n => Eval.stmts n body f) fun pl env k => stmts k p.analysis.scoping ss pl env)
    {out : List (Stmt Span)} (hcalls : p.CallsLoop r m b wr drivers hd' body ρh out roles)
    (hret : .ret ∈ wr.exits → may .ret) :
    Simulates i p r sc may roles (fun f n => Eval.stmts n out f)
      fun pl env k => stmt k p.analysis.scoping (.loop m hd (.mk b ss)) pl env := by
  intro w f env pl hs hst hroles
  obtain ⟨hloop, ho, hrh, hob, hrb⟩ := hres
  have hnode := hin _ List.mem_cons_self
  have hflat := LoweringPlan.LowersStmts.flat hsrc.2 hb
  have hfresh : Loop.fresh ⟨m, hd, .mk b ss⟩ p.analysis.scoping = drivers.map (·.1) := by
    obtain ⟨hwr, hfresh, -⟩ := hp.plan_wrapped hnode.node hloop hw
    rw [Loop.fresh, hwr, hkeys, hfresh]
  have hbindings : ∀ j ∈ drivers.map (·.1), j ∈ p.analysis.scoping.bindingIdsOf m.id := by
    rw [hkeys, (hp.of_wrappedLoop hnode.node hloop hw).1, Scoping.freshOf]
    split
    · exact fun j hj => (List.mem_filter.1 hj).1
    · simp
  have hbody := hcalls.flat (LoweringPlan.LowersHeader.flat hsrc.1 hh).1
    (LoweringPlan.LowersHeader.flat hsrc.1 hh).2 hflat
  -- once there is an expression that yields the wrapper, the loop runs
  have hrun {w' : World} (hle : w.Le w') {callee : Expr Span} (hmakes : w'.Makes f callee
      ⟨p.loopParams m, p.loopCode m b wr drivers body, f, none⟩) (hρh : ∀ ρ ∈ ρh, ρ ∈ w.host f)
      {call : List (Stmt Span)} (hcall : Stmt.AreFlat call) {ρc : Roles}
      (hcalls : r.Calls wr.exits ⟨r.inWrapper, true⟩ m.span
        (.call m.span callee (LoweringPlan.loopArgs m drivers)) call ρc)
      (hρc : ∀ ρ ∈ ρc, ρ ∈ w.host f) : lowering.Sim i w' (Runs r may)
        (fun n => Eval.stmts n [.loop m.span hd' (.mk m.span call)] f)
        (fun k => stmt k p.analysis.scoping (.loop m hd (.mk b ss)) pl env) := by
    have hst' := hst.mono hle
    have hs' := hs.mono hle
    rw [← hle.host f hst.known] at hρh hρc
    have hheader : w'.Stands p (r.loopHeader drivers) (hd.scopeIn m.id sc) f
        (Loop.headerEnv ⟨m, hd, .mk b ss⟩ p.analysis.scoping pl env) := by
      rw [Loop.headerEnv, hfresh, hst.activation]
      exact hs'.header hp ho hnode rfl rfl hbindings hh hst'.positive hst'.known hρh
    have hbody := wrappedBody_sim hp hnode.node hloop ho hob hw hkeys hhosts
      (fun d hd => ⟨hρh _ (hdrivers d hd).1, (hdrivers d hd).2.1⟩) hflat hss hheader hst' hmakes
      hcalls hρc hret
    refine single_runs (.left rfl (fun _ => rfl) (.right rfl (fun _ => rfl) (loop_sim hp hc rfl
      hsrc.1 hrh (fun y hy => ?_) (hs'.loopHeader hp hnode.scope hbindings) hheader hst'.known hh
      (goesOn_sim (block_runs hcall hbody) fun he => he.resolve_left (· rfl)))))
    have hlt := hp.analysed.lt_below hnode.node (List.mem_append_left _ hy)
    exact ⟨(hin y (List.mem_cons_of_mem _ (List.mem_append_left _ hy))).loopHeader hp hbindings hlt,
      (LoweringPlan.Within.loop hp hin y (List.mem_append_left _ hy)).loopHeader hp hbindings hlt⟩
  rw [LoweringPlan.CallsLoop] at hcalls
  split at hcalls
  · obtain ⟨name, call, ρc, hcalls, rfl, rfl⟩ := hcalls
    refine .leads fun w' s t hle ht => ?_
    -- the wrapper is made first
    obtain ⟨w₁, s₁, c, hle₁, hm₁, hmake, hc₁⟩ := makes_function (w := w') (f := f) m.span
      (p.loopParams m) (p.loopCode m b wr drivers body) (.refl w') ht
    have hlt₁ : f < w₁.frames := Nat.lt_of_lt_of_le hst.known (hle.trans hle₁).frames
    have hname :
        (name, .wrapper (p.loopParams m) (p.loopCode m b wr drivers body)) ∈ w₁.host f := by
      rw [(hle.trans hle₁).host f hst.known]
      exact hroles _ (List.mem_append_right _ List.mem_cons_self)
    obtain ⟨w₂, hle₂, hready, htarget, hm₂⟩ := hm₁.setWrapper hst.positive hlt₁ hname hc₁
    have hle₂' := hle.trans (hle₁.trans hle₂)
    refine ⟨w₂, _, t, _, _, hle₁.trans hle₂, hm₂, Eval.stmts_of_ends ?_ _, .refl .., hrun hle₂'
      (makes_name hst.positive (Nat.lt_of_lt_of_le hlt₁ hle₂.frames) ?_ hready m.span)
      (fun ρ hρ => hroles ρ (List.mem_append_left _ hρ)) hbody.flat.2.1.2 hcalls
      fun ρ hρ => hroles ρ (List.mem_append_right _ (List.mem_cons_of_mem _ hρ))⟩
    · exact .trans (.step rfl fun _ => rfl) (hmake.bind.trans (Eval.ends_setVariable htarget))
    · rwa [hle₂.host f hlt₁]
  · obtain ⟨call, ρc, hcalls, rfl, rfl⟩ := hcalls
    exact hrun (.refl w) (makes_function m.span _ _)
      (fun ρ hρ => hroles ρ (List.mem_append_left _ hρ)) hbody.flat.1.2 hcalls
      fun ρ hρ => hroles ρ (List.mem_append_right _ hρ)

end Wrapped

end Loop

/-! ## Code -/

/-- A `break` or `continue`, for a loop in the same function or wrapper or not. -/
theorem jump_sim (h : w.Stays r f pl) {e : Exit} (hne : e ≠ .ret) (he : may e) {plain : Stmt Span}
    (span : Span) (hplain : ∀ s, Leads (fun n => Eval.stmt n plain f) s
      (fun _ => interrupt (e.interruption .undefined)) s) :
    lowering.Sim i w (Runs r may)
      (fun n => Eval.stmts n (if r.inLoop then [plain] else Lower.leave r e none span plain) f)
      (fun _ => jump pl pl.inLoop (e.interruption .undefined)) := by
  rw [h.inLoop]
  have hs : r.bySignal e = (r.inWrapper && !r.inLoop) := by cases e <;>
    first | rfl | exact absurd rfl hne
  cases hl : r.inLoop with
  | true =>
    rw [hl, Bool.not_true, Bool.and_false] at hs
    exact single_runs (.leading hplain (.interrupt fun _ _ => .plain he hs (.plain rfl)))
  | false =>
    rw [hl, Bool.not_false, Bool.and_true] at hs
    exact leave_sim h he hs span hplain

mutual

theorem stmts_sim (hp : p.Sound fn globals) (hc : Calls i) : ∀ {ss : List (Stmt Mark)} {r : Region}
    {fs sc : ScopeId} {inLoop : Bool} {may : Exit → Prop} {out : List (Stmt Span)} {roles : Roles},
    Stmt.AreSource ss → p.analysis.scoping.ResolvedStmts globals fs sc inLoop ss →
    (∀ y ∈ Stmt.nodesOfList ss, p.Within fn r sc y) →
    (∀ e, Stmt.mayExitList e false ss → may e) → p.LowersStmts r sc ss out roles →
    Simulates i p r sc may roles (fun f n => Eval.stmts n out f)
      fun pl env k => stmts k p.analysis.scoping ss pl env
  | [], r, fs, sc, inLoop, may, out, roles, _, _, _, _, h => by
    intro w f env pl _ _ _
    rw [h.1]
    exact .left rfl (fun _ => rfl) (.right rfl (fun _ => rfl) (.pure fun _ _ => trivial))
  | s :: ss, r, fs, sc, inLoop, may, out, roles, hsrc, hres, hin, hmay, h => by
    obtain ⟨o, os, ρ, ρs, ho, hos, rfl, rfl⟩ := h
    intro w f env pl hs hst hroles
    have hfirst := stmt_sim hp hc hsrc.1 hres.1
      (fun y hy => hin y (List.mem_append_left _ hy))
      (fun e he => hmay e (by rw [Stmt.mayExitList, he, Bool.true_or])) ho
    have hrest := stmts_sim hp hc hsrc.2 hres.2
      (fun y hy => hin y (List.mem_append_right _ hy))
      (fun e he => hmay e (by rw [Stmt.mayExitList, he, Bool.or_true])) hos
    refine .leading (fun t => Eval.leads_append o os t f) (.right rfl (fun _ => rfl) ?_)
    refine (hfirst hs hst fun x hx => hroles x (List.mem_append_left _ hx)).bind
      (fun hle hq => hq.mono hle fun _ => id) fun w' hle _ _ _ => ?_
    refine hrest (hs.mono hle) (hst.mono hle) fun x hx => ?_
    rw [hle.host f hst.known]
    exact hroles x (List.mem_append_right _ hx)

theorem block_sim (hp : p.Sound fn globals) (hc : Calls i) : ∀ {b : Block Mark} {r : Region}
    {fs sc : ScopeId} {inLoop : Bool} {may : Exit → Prop} {x : Block Span} {roles : Roles},
    b.IsSource → p.analysis.scoping.ResolvedBlock globals fs sc inLoop b →
    (∀ y ∈ b.nodes, p.Within fn r sc y) → (∀ e, b.mayExitIn e false → may e) →
    p.LowersBlock r sc b x roles →
    Simulates i p r sc may roles (fun f n => Eval.stmts n x.statements f)
      fun pl env k => block k p.analysis.scoping b pl env
  | .mk m ss, r, fs, sc, inLoop, may, x, roles, hsrc, hres, hin, hmay, h => by
    obtain ⟨hopens, hres⟩ := hres
    have hnode := hin _ List.mem_cons_self
    have hwr : p.analysis.wrapper? m.id = p.analysis.scoping.blockWrapper? (.mk m ss) :=
      hp.analysed.wrapper? hnode.node
    have hinner := LoweringPlan.Within.statements hp hin
    cases hw : p.analysis.wrapper? m.id with
    | none =>
      obtain ⟨out, hss, rfl⟩ := (LoweringPlan.lowersBlock_plain hw).1 h
      intro w f env pl hs hst hroles
      obtain rfl := hst.activation
      have hblock := hs.block hp hopens hnode hss hst.positive hst.known hroles
      refine .right rfl (fun k => ?_) (stmts_sim hp hc hsrc hres hinner hmay hss hblock hst hroles)
      change block (k + 1) p.analysis.scoping (.mk m ss) pl env = stmts k _ ss pl _
      rw [block, ← hwr, hw]
      rfl
    | some wr =>
      obtain ⟨out, inner, call, hss, hhosts, hcalls, rfl⟩ :=
        (LoweringPlan.lowersBlock_wrapped hw).1 h
      have hmem {e : Exit} : e ∈ wr.exits ↔ Stmt.mayExitList e false ss := by
        rw [hp.blockExits hnode.node hw]
        exact Block.mem_exits (b := .mk m ss)
      obtain ⟨hne, -⟩ := hp.analysed.of_wrappedBlock hnode.node hopens (hwr.symm.trans hw)
      rw [show (Block.mk m ss).scopeIn sc = m.id from Block.scopeIn_of_ne_nil hne]
        at hres hinner
      exact wrappedBlock_sim hp hopens (hwr.symm.trans hw) hnode.node
        (LoweringPlan.LowersStmts.flat hsrc hss) (stmts_sim (r := r.wrapper []) hp hc
          hsrc hres (fun y hy => (hinner y hy).of_drivers rfl) (fun e he => hmem.2 he) hss) hhosts
        hcalls fun e he => hmay e (hmem.1 he)

theorem stmt_sim (hp : p.Sound fn globals) (hc : Calls i) : ∀ {s : Stmt Mark} {r : Region}
    {fs sc : ScopeId} {inLoop : Bool} {may : Exit → Prop} {out : List (Stmt Span)} {roles : Roles},
    s.IsSource → p.analysis.scoping.ResolvedStmt globals fs sc inLoop s →
    (∀ y ∈ s.nodes, p.Within fn r sc y) → (∀ e, s.mayExit e false → may e) →
    p.LowersStmt r sc s out roles →
    Simulates i p r sc may roles (fun f n => Eval.stmts n out f)
      fun pl env k => stmt k p.analysis.scoping s pl env
  | .declaration .., r, fs, sc, inLoop, may, out, roles, hsrc, hres, hin, _, h
  | .assignment .., r, fs, sc, inLoop, may, out, roles, hsrc, hres, hin, _, h
  | .expression .., r, fs, sc, inLoop, may, out, roles, hsrc, hres, hin, _, h =>
    fun _ _ _ pl hs hst _ =>
    (simple_sim hp hc rfl hsrc hres hin hs hst.known h pl).stmts_sim
  | .block b, r, fs, sc, inLoop, may, out, roles, hsrc, hres, hin, hmay, h => by
    obtain ⟨⟨k, ss⟩, hb, rfl⟩ := h
    intro w f env pl hs hst hroles
    have hblock := block_sim hp hc hsrc hres.2 hin hmay hb hs hst hroles
    refine .right rfl (fun _ => rfl) ?_
    split
    · exact hblock
    · exact single_runs (.left rfl (fun _ => rfl)
        (block_runs (LoweringPlan.LowersBlock.flat hsrc hb).flat hblock))
  | .branch m c t none, r, fs, sc, inLoop, may, out, roles, hsrc, hres, hin, hmay, h => by
    obtain ⟨c', ⟨k, ss⟩, hcond, ht, rfl⟩ := h
    intro w f env pl hs hst hroles
    have hthen := block_sim hp hc hsrc.2 hres.2.2
      (fun y hy => hin y (List.mem_cons_of_mem _ (List.mem_append_right _
        (List.mem_append_left _ hy))))
      (fun e he => hmay e (by rw [Stmt.mayExit, he, Bool.true_or])) ht hs hst hroles
    refine single_runs (.left rfl (fun _ => rfl) (.right rfl (fun _ => rfl) ?_))
    refine (expr_sim hp hc hsrc.1 hres.1 (fun y hy => hin y (List.mem_cons_of_mem _
      (List.mem_append_left _ hy))) hs hst.known hcond).bind (fun _ hq => hq.leaves)
      fun w' hle v v' hv => ?_
    rw [hv.truthy]
    cases v'.truthy with
    | true => exact (block_runs (LoweringPlan.LowersBlock.flat hsrc.2 ht).flat hthen).later hle
    | false => exact .pure fun _ _ => trivial
  | .branch m c t (some e), r, fs, sc, inLoop, may, out, roles, hsrc, hres, hin, hmay, h => by
    obtain ⟨c', ⟨k, ss⟩, ⟨k', ss'⟩, ρt, ρe, hcond, ht, he, rfl, rfl⟩ := h
    obtain ⟨hrc, -, hrt, -, hre⟩ := hres
    intro w f env pl hs hst hroles
    have hthen := block_sim hp hc hsrc.2.1 hrt
      (fun y hy => hin y (List.mem_cons_of_mem _ (List.mem_append_right _
        (List.mem_append_left _ hy))))
      (fun e he => hmay e (by rw [Stmt.mayExit, he, Bool.true_or])) ht hs hst
      fun ρ hρ => hroles ρ (List.mem_append_left _ hρ)
    have helse := block_sim hp hc hsrc.2.2 hre
      (fun y hy => hin y (List.mem_cons_of_mem _ (List.mem_append_right _
        (List.mem_append_right _ hy))))
      (fun e he => hmay e (by rw [Stmt.mayExit, he, Bool.or_true])) he hs hst
      fun ρ hρ => hroles ρ (List.mem_append_right _ hρ)
    refine single_runs (.left rfl (fun _ => rfl) (.right rfl (fun _ => rfl) ?_))
    refine (expr_sim hp hc hsrc.1 hrc (fun y hy => hin y (List.mem_cons_of_mem _
      (List.mem_append_left _ hy))) hs hst.known hcond).bind (fun _ hq => hq.leaves)
      fun w' hle v v' hv => ?_
    rw [hv.truthy]
    cases v'.truthy with
    | true => exact (block_runs (LoweringPlan.LowersBlock.flat hsrc.2.1 ht).flat hthen).later hle
    | false => exact (block_runs (LoweringPlan.LowersBlock.flat hsrc.2.2 he).flat helse).later hle
  | .loop m hd (.mk b ss), r, fs, sc, inLoop, may, out, roles, hsrc, hres, hin, hmay, h => by
    have hnode := hin _ List.mem_cons_self
    have hbody := LoweringPlan.Within.statements hp fun y hy =>
      LoweringPlan.Within.loop hp hin y (List.mem_append_right _ hy)
    have hret : Stmt.mayExitList .ret false ss → may .ret := fun he => hmay .ret (by
      rw [Stmt.mayExit, Block.mayExitIn, Stmt.mayExitList_ret ss true false, he])
    cases hw : (p.loopPlan m.id).wrapper with
    | none =>
      obtain ⟨hd', body, ρh, ρb, hh, hb, rfl, rfl⟩ := (LoweringPlan.lowersStmt_plainLoop hw).1 h
      refine plainLoop_sim hp hc hsrc hres hin hw hh hb (stmts_sim hp hc hsrc.2 hres.2.2.2.2
        (fun y hy => (hbody y hy).of_drivers rfl) (fun e he => ?_) hb)
      exact or_iff_not_imp_left.2 fun hne => by
        obtain rfl := not_not.1 hne
        exact hret he
    | some wr =>
      obtain ⟨drivers, hd', body, ρh, ρb, hkeys, hh, hb, hhosts, hdrivers, hcalls⟩ :=
        (LoweringPlan.lowersStmt_wrappedLoop hw).1 h
      have hmem {e : Exit} : e ∈ wr.exits ↔ Stmt.mayExitList e false ss := by
        rw [hp.loopExits hnode.node hw]
        exact Block.mem_exits (b := .mk b ss)
      exact wrappedLoop_sim hp hc hsrc hres hin hw hkeys hh hb hhosts hdrivers
        (stmts_sim hp hc hsrc.2 hres.2.2.2.2 (fun y hy => (hbody y hy).of_drivers rfl)
          (fun e he => hmem.2 he) hb) hcalls fun he => hret (hmem.1 he)
  | .ret m none, r, fs, sc, inLoop, may, out, roles, _, _, _, hmay, h => by
    intro w f env pl hs hst hroles
    rw [h.1]
    exact .right rfl (fun _ => rfl) (leave_sim hst (e := .ret) (hmay .ret rfl) rfl m.span
      fun s => .step rfl fun _ => rfl)
  | .ret m (some e), r, fs, sc, inLoop, may, out, roles, hsrc, hres, hin, hmay, h => by
    obtain ⟨e', he, rfl, -⟩ := h
    intro w f env pl hs hst hroles
    exact .right rfl (fun _ => rfl) (ret_sim hst (hmay .ret rfl) m.span (expr_sim hp hc hsrc hres
      (fun y hy => hin y (List.mem_cons_of_mem _ hy)) hs hst.known he))
  | .brk m, r, fs, sc, inLoop, may, out, roles, _, _, _, hmay, h => by
    intro w f env pl hs hst hroles
    rw [h.2]
    exact .right rfl (fun _ => rfl) (jump_sim hst (e := .brk) (by decide) (hmay .brk rfl) m.span
      fun s => .step rfl fun _ => rfl)
  | .cont m, r, fs, sc, inLoop, may, out, roles, _, _, _, hmay, h => by
    intro w f env pl hs hst hroles
    rw [h.2]
    exact .right rfl (fun _ => rfl) (jump_sim hst (e := .cont) (by decide) (hmay .cont rfl) m.span
      fun s => .step rfl fun _ => rfl)
  | .unknown .., _, _, _, _, _, _, _, _, _, _, _, h => h.elim

end

end World

end Regional

end FlatScope
