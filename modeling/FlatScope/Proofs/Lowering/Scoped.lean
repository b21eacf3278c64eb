import FlatScope.Proofs.Lowering.Flat
import FlatScope.Proofs.Lowering.Hosting
import FlatScope.Proofs.Scope.Inner
import FlatScope.Proofs.Scope.WellScoped

/-!
# Lowered code is well-scoped

All names in lowered code are declared around their use. The surroundings of a piece of lowered code
*serve* its region (`LoweringPlan.Serves`) if they declare the variable of every binding that the
piece may mean, and the variables that a wrapper writes back; nothing is a constant, and no block or
loop declares anything. The surroundings in a function or wrapper serve its code, because its
variables host it (`LoweringPlan.Hosts.serves`); the scopes of blocks and loops without wrappers are
served by the surroundings of the block or loop, which declare the inlined bindings.
-/

namespace FlatScope

/-- A name is declared. -/
def Surroundings.Has (c : Surroundings) (n : Name) : Prop := n ∈ c.names.map (·.1)

/-- The surroundings declare only variables, and these in functions only. -/
structure Surroundings.IsFlat (c : Surroundings) : Prop where
  assignable : ∀ x ∈ c.names, x.2 = false
  inner : c.inner = []

section Rules

variable {α : Type} {globals : List Name} {c : Surroundings}

theorem Surroundings.Has.knows {n : Name} (h : c.Has n) : c.Knows globals n := .inl h

theorem Surroundings.IsFlat.mayAssign (h : c.IsFlat) (n : Name) : c.MayAssign n := fun hn =>
  absurd (h.assignable _ (Table.mem_of_lookup hn)) (by simp)

theorem Surroundings.IsFlat.not_inner (h : c.IsFlat) (n : Name) : n ∉ c.inner := by simp [h.inner]

theorem Surroundings.IsFlat.function (h : c.IsFlat) (ps : List Name) {b : Block α}
    (hb : b.IsFlat) : (c.function ps b).IsFlat where
  assignable x hx := by
    simp only [Surroundings.function, hb.lexicals, Lexical.entries, List.map_nil, List.append_nil,
      List.mem_append, List.mem_map] at hx
    rcases hx with (⟨_, -, rfl⟩ | ⟨_, -, rfl⟩) | hx
    · rfl
    · rfl
    · exact h.assignable x hx
  inner := rfl

theorem Header.IsFlat.lexical? {h : Header α} (hh : h.IsFlat) : h.lexical? = none := by
  cases h with
  | counting m i e u =>
    cases i with
    | none => rfl
    | some s => exact ((Header.isFlat_counting.1 hh).1 s rfl).2.lexical?
  | forOf m n k e =>
    rw [Header.IsFlat] at hh
    rcases hh.1 with rfl | rfl <;> rfl
  | _ => rfl

theorem Stmt.areWellScoped_iff {ss : List (Stmt α)} :
    Stmt.AreWellScoped globals c ss ↔ ∀ s ∈ ss, s.WellScoped globals c := by
  induction ss with
  | nil => simp [Stmt.AreWellScoped]
  | cons s ss ih => simp only [Stmt.AreWellScoped, ih, List.forall_mem_cons]

theorem Stmt.areWellScoped_append {ss ts : List (Stmt α)} :
    Stmt.AreWellScoped globals c (ss ++ ts) ↔
      Stmt.AreWellScoped globals c ss ∧ Stmt.AreWellScoped globals c ts := by
  simp only [Stmt.areWellScoped_iff, List.forall_mem_append]

/-- A flat block keeps to the rules if its statements do. -/
theorem Block.wellScoped_of_flat {m : α} {ss : List (Stmt α)} (hflat : Stmt.AreFlat ss)
    (h : Stmt.AreWellScoped globals c ss) : (Block.mk m ss).WellScoped globals c := by
  rw [Block.WellScoped, show (Block.mk m ss).lexicals = [] from hflat.lexicals]
  exact ⟨.nil, h⟩

/-- The names of a function whose body is flat are distinct if its parameters are. -/
theorem DistinctNames.of_flat {ps : List Name} {b : Block α} (hps : ps.Nodup) (hb : b.IsFlat) :
    DistinctNames ps b where
  distinctParams := hps
  distinctLexicals := by simp [hb.lexicals]
  apart := by simp [hb.lexicals]

/-- What a function with a flat body declares. -/
theorem Surroundings.has_function {ps : List Name} {b : Block α} (hb : b.IsFlat) {n : Name} :
    (c.function ps b).Has n ↔ n ∈ ps ∨ n ∈ b.vars.map (·.1) ∨ c.Has n := by
  simp [Has, function, hb.lexicals, Lexical.entries]

end Rules

/-! ## Signals -/

section Signals

variable {globals : List Name} {c : Surroundings} {ws : WriteBacks}
  (hc : c.IsFlat) (hws : ∀ w ∈ ws, c.Has w.1 ∧ c.Has w.2)
include hc hws

theorem writeBackStmts_wellScoped : ∀ s ∈ writeBackStmts ws, s.WellScoped globals c := by
  intro s hs
  obtain ⟨w, hw, rfl⟩ := List.mem_map.1 hs
  rw [Stmt.WellScoped, Expr.WellScoped]
  exact ⟨(hws w hw).1.knows, hc.mayAssign _, (hws w hw).2.knows⟩

theorem exitStmts_wellScoped (k : SignalKind) {v : Option (Expr Span)}
    (hv : ∀ e, v = some e → e.WellScoped globals c) (span : Span) :
    ∀ s ∈ exitStmts k v ws span, s.WellScoped globals c := by
  intro s hs
  rcases List.mem_append.1 hs with hs | hs
  · exact writeBackStmts_wellScoped hc hws s hs
  · obtain rfl := List.mem_singleton.1 hs
    rw [Stmt.WellScoped]
    cases v with
    | none => simp only [Expr.WellScoped]
    | some e => simpa only [Expr.WellScoped] using hv e rfl

theorem actionStmts_wellScoped {signal : Name} (hs : c.Has signal) (span : Span) (e : Exit)
    {action : ExitAction} (hj : action = .jump → c.inLoop) :
    ∀ s ∈ actionStmts signal ws span e action, s.WellScoped globals c := by
  intro s hs'
  cases action with
  | jump =>
    obtain rfl := List.mem_singleton.1 hs'
    split
    · rw [Stmt.WellScoped]
      exact hj rfl
    · rw [Stmt.WellScoped]
      exact hj rfl
  | returnValue =>
    obtain rfl := List.mem_singleton.1 hs'
    simpa only [Stmt.WellScoped, Expr.WellScoped] using hs.knows
  | propagate =>
    rcases List.mem_append.1 hs' with hs' | hs'
    · exact writeBackStmts_wellScoped hc hws s hs'
    · obtain rfl := List.mem_singleton.1 hs'
      simpa only [Stmt.WellScoped, Expr.WellScoped] using hs.knows

theorem handlers_wellScoped {signal : Name} (hs : c.Has signal) {site : CallSite}
    (hsite : site.inLoop → c.inLoop) (exits : List Exit) (span : Span) :
    ∀ s ∈ site.handlers signal exits ws span, s.WellScoped globals c := by
  have hbranch : ∀ {e : Expr Span}, e.WellScoped globals c → ∀ (f : Exit) (action : ExitAction),
      (action = .jump → c.inLoop) → (Stmt.branch span e (.mk span (actionStmts signal ws span f
        action)) none).WellScoped globals c := by
    intro e he f action hj
    rw [Stmt.WellScoped]
    exact ⟨he, Block.wellScoped_of_flat
      (Stmt.areFlat_iff.2 fun s hs => (actionStmts_flat signal ws span f action s hs).1)
      (Stmt.areWellScoped_iff.2 (actionStmts_wellScoped hc hws hs span f hj))⟩
  have hsignal : (Expr.name span signal).WellScoped globals c := by
    rw [Expr.WellScoped]
    exact hs.knows
  intro s hs'
  rw [CallSite.handlers] at hs'
  split at hs'
  · obtain rfl := List.mem_singleton.1 hs'
    exact hbranch (by simpa only [Expr.WellScoped] using hs.knows) .ret .propagate (by simp)
  · obtain ⟨⟨e, action⟩, hmem, rfl⟩ := List.mem_map.1 hs'
    refine hbranch (by simpa only [Expr.WellScoped] using hs.knows) e action fun hj => hsite ?_
    -- only where a loop is around the call does a signal become a jump
    obtain ⟨f, -, hf⟩ := List.mem_map.1 hmem
    obtain ⟨rfl, rfl⟩ := Prod.mk.inj hf
    cases f with
    | ret =>
      rw [CallSite.action] at hj
      split at hj <;> cases hj
    | brk | cont =>
      rw [CallSite.action] at hj
      split at hj
      · assumption
      · cases hj

end Signals

/-- The call of a wrapper keeps to the rules if the expression that calls it does. -/
theorem Region.Calls.wellScoped {r : Region} {exits : List Exit} {site : CallSite} {span : Span}
    {call : Expr Span} {out : List (Stmt Span)} {roles : Roles} {globals : List Name}
    {c : Surroundings} (h : r.Calls exits site span call out roles)
    (hcall : call.WellScoped globals c) (hc : c.IsFlat)
    (hws : ∀ w ∈ r.writeBacks, c.Has w.1 ∧ c.Has w.2) (hsite : site.inLoop → c.inLoop)
    (hroles : ∀ x ∈ roles.names, c.Has x) : Stmt.AreWellScoped globals c out := by
  rw [Region.Calls] at h
  split at h
  · obtain ⟨rfl, rfl⟩ := h
    exact Stmt.areWellScoped_iff.2 (by simpa [plainCall, Stmt.WellScoped] using hcall)
  · obtain ⟨sig, h, rfl⟩ := h
    obtain ⟨-, rfl⟩ := signalCall_ok h
    rw [Stmt.AreWellScoped, Stmt.WellScoped]
    exact ⟨⟨fun _ => hc.not_inner sig, hcall⟩, Stmt.areWellScoped_iff.2
      (handlers_wellScoped hc hws (hroles sig (by simp)) hsite exits span)⟩

namespace LoweringPlan

variable {p : LoweringPlan} {fn : FunctionDef Mark} {globals : List Name} {r : Region}
  {sc : ScopeId} {c : Surroundings}

/-- The surroundings of a piece of lowered code declare the variables that the piece needs. -/
structure Serves (p : LoweringPlan) (r : Region) (sc : ScopeId) (c : Surroundings) : Prop where
  known : ∀ {n b}, p.analysis.scoping.lookup? sc n = some b → c.Has (p.nameOf r b.id)
  flat : c.IsFlat
  inLoop : r.inLoop → c.inLoop
  writeBacks : ∀ w ∈ r.writeBacks, c.Has w.1 ∧ c.Has w.2

namespace Serves

/-- The surroundings of a block without a wrapper serve its statements. -/
theorem block (h : p.Serves r sc c) (hp : p.Sound fn globals) {b : Block Mark}
    (ho : p.analysis.scoping.OpensBlock b sc) {out : List (Stmt Span)} {roles : Roles}
    (hlow : p.LowersStmts r (b.scopeIn sc) b.statements out roles)
    (hroles : ∀ x ∈ roles.names, c.Has x) : p.Serves r (b.scopeIn sc) c := by
  by_cases hne : b.lexicals = []
  · rwa [Block.scopeIn_of_nil hne]
  · rw [Block.scopeIn_of_ne_nil hne] at hlow ⊢
    have hcons := hp.analysed.consistent
    refine ⟨fun {n d} hd => ?_, h.flat, h.inLoop, h.writeBacks⟩
    rcases hcons.of_lookup?_inner (ho.scope hne).2 hd with hs | hd'
    · obtain ⟨-, hrole⟩ := role_of_block hp ho hne hlow (hcons.of_lookup? hd).1 hs
      exact hroles _ (Roles.mem_names hrole)
    · exact h.known hd'

/-- Drivers are variables of their own. -/
theorem loopHeader (h : p.Serves r sc c) {drivers : List (BindingId × Name)}
    (hdrivers : ∀ d ∈ drivers, c.Has d.2) : p.Serves (r.loopHeader drivers) sc c := by
  refine ⟨fun {n d} hn => ?_, h.flat, h.inLoop, h.writeBacks⟩
  cases hl : drivers.lookup d.id with
  | some x =>
    rw [nameOf, Region.loopHeader, Table.lookup_append_of_some hl]
    exact hdrivers _ (Table.mem_of_lookup hl)
  | none =>
    rw [nameOf, Region.loopHeader, Table.lookup_append_of_none hl]
    exact h.known hn

/-- The surroundings of a loop serve the clauses of its header. -/
theorem header (h : p.Serves r sc c) (hp : p.Sound fn globals) {loop : NodeId} {hd : Header Mark}
    (ho : p.analysis.scoping.OpensLoop loop hd sc) {hd' : Header Span} {roles : Roles}
    (hlow : p.LowersHeader r (hd.scopeIn loop sc) hd hd' roles)
    (hroles : ∀ x ∈ roles.names, c.Has x) : p.Serves r (hd.scopeIn loop sc) c := by
  have hcons := hp.analysed.consistent
  cases hlex : Resolve.headerLexical? hd with
  | none => rwa [show hd.scopeIn loop sc = sc by simp [Header.scopeIn, hlex]]
  | some l =>
    refine ⟨fun {n d} hn => ?_, h.flat, h.inLoop, h.writeBacks⟩
    rw [show hd.scopeIn loop sc = loop by simp [Header.scopeIn, hlex]] at hn
    rcases hcons.of_lookup?_inner (ho l hlex).1 hn with hs | hn'
    · obtain ⟨e, hem, hedecl, -, hes, heo, hids⟩ := hp.analysed.of_header ho hlex
      have hmem := hcons.mem_bindingIdsOf.2 ⟨d, (hcons.of_lookup? hn).1, rfl, hs⟩
      rw [hids, List.mem_singleton] at hmem
      obtain rfl := hp.analysed.eq_of_id (hcons.of_lookup? hn).1 hem hmem
      obtain ⟨g, hg, hrole⟩ := role_of_header hlow hlex
      obtain rfl := Option.some.inj (hedecl.symm.trans hg)
      exact hroles _ (Roles.mem_names (hrole (Origin.not_functionScoped (congrArg Origin.kind? heo)
        (Resolve.headerLexical?_kind hlex))))
    · exact h.known hn'

theorem loopBody (h : p.Serves r sc c) : p.Serves r.loopBody sc c.loopBody :=
  ⟨h.known, ⟨h.flat.assignable, h.flat.inner⟩, fun _ => rfl, h.writeBacks⟩

end Serves

/-- The surroundings in a function or wrapper whose variables host its code serve the code. -/
theorem Hosts.serves {own : List BindingId} {roles : Roles} (h : p.Hosts r sc own roles)
    (hc : c.IsFlat) {ps : List Name} {b : Block Span} (hb : b.IsFlat)
    (hroles : ∀ x ∈ roles.names, x ∈ ps ∨ x ∈ b.vars.map (·.1))
    (hout : ∀ {n d}, p.analysis.scoping.lookup? sc n = some d → d.id ∉ own →
      c.Has (p.nameOf r d.id)) (hloop : r.inLoop = false)
    (hws : ∀ w ∈ r.writeBacks, (c.Has w.1) ∧ w.2 ∈ ps) :
    p.Serves r sc (c.function ps b) where
  known {n d} hd := by
    rw [Surroundings.has_function hb]
    by_cases ho : d.id ∈ own
    · exact (hroles _ (Roles.mem_names (h.here hd ho).2)).elim .inl fun hx => .inr (.inl hx)
    · exact .inr (.inr (hout hd ho))
  flat := hc.function ps hb
  inLoop hl := by
    rw [hloop] at hl
    cases hl
  writeBacks w hw := by
    rw [Surroundings.has_function hb, Surroundings.has_function hb]
    exact ⟨.inr (.inr (hws w hw).1), .inl (hws w hw).2⟩

/-- The code of a wrapper with its end. -/
theorem wrapperCode_wellScoped {ss : List (Stmt Span)} (h : Stmt.AreWellScoped globals c ss)
    (hc : c.IsFlat) (w : Wrapper) {ws : WriteBacks} (hws : ∀ x ∈ ws, c.Has x.1 ∧ c.Has x.2) :
    Stmt.AreWellScoped globals c (Lower.wrapperCode w ws ss) := by
  rw [Lower.wrapperCode, Stmt.areWellScoped_append]
  refine ⟨h, Stmt.areWellScoped_iff.2 ?_⟩
  split
  · exact writeBackStmts_wellScoped hc hws
  · exact exitStmts_wellScoped hc hws none (by simp) .unknown

/-! ## Code -/

/-- The plan of a loop with a wrapper goes by the scopes of the loop. -/
theorem Sound.plan_wrapped (hp : p.Sound fn globals) {m : Mark} {hd : Header Mark}
    {b : Block Mark} (hx : .stmt (.loop m hd b) ∈ fn.nodes)
    (hl : p.analysis.scoping.HasLoop m.id hd b sc) {w : Wrapper}
    (hw : (p.loopPlan m.id).wrapper = some w) :
    p.analysis.scoping.loopWrapper? m.id b = some w ∧
      (p.loopPlan m.id).fresh = p.analysis.scoping.freshOf m.id hd ∧
      (p.loopPlan m.id).writeBack = p.analysis.scoping.writeBackOf m.id hd b := by
  cases hw' : p.analysis.scoping.loopWrapper? m.id b with
  | none =>
    obtain ⟨plan, hplan, hnone⟩ := hp.analysed.loopPlan?_plain hx hw'
    rw [loopPlan, hplan] at hw
    cases hnone.symm.trans hw
  | some w' =>
    obtain ⟨plan, hplan, hwr, hfresh, hback⟩ := hp.analysed.loopPlan?_wrapped hx hl hw'
    have hpl : p.loopPlan m.id = plan := by
      rw [loopPlan, hplan]
      rfl
    rw [hpl] at hw ⊢
    exact ⟨hwr.symm.trans hw, hfresh, hback⟩

/-- What the plan of a loop with a wrapper says about its bindings. -/
theorem Sound.of_wrappedLoop (hp : p.Sound fn globals) {m : Mark} {hd : Header Mark}
    {b : Block Mark} (hx : .stmt (.loop m hd b) ∈ fn.nodes)
    (hl : p.analysis.scoping.HasLoop m.id hd b sc) {w : Wrapper}
    (hw : (p.loopPlan m.id).wrapper = some w) :
    (p.loopPlan m.id).fresh = p.analysis.scoping.freshOf m.id hd ∧
      w.params = p.analysis.scoping.freshOf m.id hd ∧
      w.locals = (if b.lexicals.isEmpty then [] else p.analysis.scoping.bindingIdsOf b.mark.id) ∧
      ∀ i ∈ (p.loopPlan m.id).writeBack, i ∈ (p.loopPlan m.id).fresh := by
  obtain ⟨hw', hfresh, hback⟩ := hp.plan_wrapped hx hl hw
  rcases hl.loopWrapper? with ⟨hnone, -⟩ | ⟨v, hv, -, -, hparams, hlocals, -⟩
  · rw [hw'] at hnone
    cases hnone
  · rw [hw'] at hv
    obtain rfl := Option.some.inj hv
    refine ⟨hfresh, hparams, hlocals, fun i hi => ?_⟩
    rw [hback, Scoping.writeBackOf] at hi
    split at hi
    · rw [hfresh]
      exact (List.mem_filter.1 hi).1
    · cases hi

/-- A binding that is known in the wrapper of a loop, which does not own it, is known in the header
    of the loop, and has no driver there. -/
theorem Sound.known_outside (hp : p.Sound fn globals) {m b : Mark} {hd : Header Mark}
    {ss : List (Stmt Mark)} (hx : .stmt (.loop m hd (.mk b ss)) ∈ fn.nodes)
    (hl : p.analysis.scoping.HasLoop m.id hd (.mk b ss) sc)
    (hb : p.analysis.scoping.OpensBlock (.mk b ss) (hd.scopeIn m.id sc)) {w : Wrapper}
    (hw : (p.loopPlan m.id).wrapper = some w) {drivers : List (BindingId × Name)}
    (hkeys : drivers.map (·.1) = (p.loopPlan m.id).fresh) {n : Name} {d : Binding}
    (hn : p.analysis.scoping.lookup? ((Block.mk b ss).scopeIn (hd.scopeIn m.id sc)) n = some d)
    (hown : d.id ∉ w.locals ++ w.params) :
    p.analysis.scoping.lookup? (hd.scopeIn m.id sc) n = some d ∧ drivers.lookup d.id = none := by
  have hcons := hp.analysed.consistent
  obtain ⟨hfresh, hparams, hlocals, -⟩ := hp.of_wrappedLoop hx hl hw
  refine ⟨?_, ?_⟩
  · by_cases hne : (Block.mk b ss).lexicals = []
    · rwa [Block.scopeIn_of_nil hne] at hn
    · rw [show (Block.mk b ss).scopeIn (hd.scopeIn m.id sc) = b.id from
        Block.scopeIn_of_ne_nil hne] at hn
      refine (hcons.of_lookup?_inner (hb.scope hne).2 hn).resolve_left fun hs => hown ?_
      rw [hlocals, if_neg (by simpa using hne)]
      exact List.mem_append_left _
        (hcons.mem_bindingIdsOf.2 ⟨d, (hcons.of_lookup? hn).1, rfl, hs⟩)
  · rw [Table.lookup_eq_none, hkeys, hfresh, ← hparams]
    exact fun hd' => hown (List.mem_append_right _ hd')

/-- A name that means nothing in a block means nothing around it. -/
theorem Sound.unknown_outside (hp : p.Sound fn globals) {b : Block Mark}
    (hb : p.analysis.scoping.OpensBlock b sc) {n : Name}
    (hn : p.analysis.scoping.lookup? (b.scopeIn sc) n = none) :
    p.analysis.scoping.lookup? sc n = none := by
  by_cases hne : b.lexicals = []
  · rwa [Block.scopeIn_of_nil hne] at hn
  · rw [Block.scopeIn_of_ne_nil hne] at hn
    exact hp.analysed.consistent.lookup?_outer (hb.scope hne).2 hn

/-- The surroundings in the wrapper of a loop serve the body. -/
theorem Serves.wrappedBody (h : p.Serves r sc c) (hp : p.Sound fn globals) {m b : Mark}
    {hd : Header Mark} {ss : List (Stmt Mark)} (hx : .stmt (.loop m hd (.mk b ss)) ∈ fn.nodes)
    (hl : p.analysis.scoping.HasLoop m.id hd (.mk b ss) sc)
    (ho : p.analysis.scoping.OpensLoop m.id hd sc)
    (hb : p.analysis.scoping.OpensBlock (.mk b ss) (hd.scopeIn m.id sc)) {w : Wrapper}
    (hw : (p.loopPlan m.id).wrapper = some w) {drivers : List (BindingId × Name)}
    (hkeys : drivers.map (·.1) = (p.loopPlan m.id).fresh) {hd' : Header Span} {ρh ρb : Roles}
    {body : List (Stmt Span)}
    (hhd : p.LowersHeader (r.loopHeader drivers) (hd.scopeIn m.id sc) hd hd' ρh)
    (hρh : ∀ x ∈ ρh.names, c.Has x) (hdrivers : ∀ d ∈ drivers, c.Has d.2)
    (hhosts : p.Hosts (p.loopRegion r m drivers) ((Block.mk b ss).scopeIn (hd.scopeIn m.id sc))
      (w.locals ++ w.params) ((p.loopPlan m.id).fresh.map p.ownRole ++ ρb))
    (hbody : Stmt.FlatWith body ρb) :
    p.Serves (p.loopRegion r m drivers) ((Block.mk b ss).scopeIn (hd.scopeIn m.id sc))
      (c.loopBody.function (p.loopParams m) (p.loopCode m b w drivers body)) := by
  have hcons := hp.analysed.consistent
  obtain ⟨hfresh, hparams, hlocals, hback⟩ := hp.of_wrappedLoop hx hl hw
  have hserved := (h.loopHeader hdrivers).header hp ho hhd hρh
  have hcode := wrapperCode_flat hbody w (Lower.loopWriteBacks p (p.loopPlan m.id) drivers)
  refine hhosts.serves ⟨h.flat.assignable, h.flat.inner⟩ hcode.flat (fun x hx => ?_)
    (fun {n d} hn hown => ?_) rfl fun v hv => ?_
  · rw [Roles.names_append, List.mem_append] at hx
    rcases hx with hx | hx
    · refine .inl ?_
      simpa [Roles.names, loopParams, ownRole] using hx
    · exact .inr ((hcode.declares.mem_iff x).2 hx)
  · obtain ⟨hout, hnone⟩ := hp.known_outside hx hl hb hw hkeys hn hown
    have hknown := hserved.known hout
    rwa [nameOf, Region.loopHeader, Table.lookup_append_of_none hnone] at hknown
  · obtain ⟨i, hi, rfl⟩ := List.mem_map.1 hv
    have hin := hback i hi
    obtain ⟨x, hx⟩ := Table.exists_lookup.2 (hkeys ▸ hin : i ∈ drivers.map (·.1))
    refine ⟨?_, List.mem_map_of_mem hin⟩
    rw [hx]
    exact hdrivers _ (Table.mem_of_lookup hx)

/-- A declaration keeps to the rules where the variable is known. -/
theorem LowersDeclaration.wellScoped {m : Mark} {b : Binding} {v : Option (Expr Span)}
    {out : List (Stmt Span)} {roles : Roles} (h : p.LowersDeclaration r m b v out roles)
    (hc : c.IsFlat) (hb : c.Has (p.nameOf r b.id))
    (hv : ∀ e, v = some e → e.WellScoped globals c) : Stmt.AreWellScoped globals c out := by
  have hdecl : ∀ w : Option (Expr Span), (∀ e, w = some e → e.WellScoped globals c) →
      (Stmt.declaration m.span (p.nameOf r b.id) .var w).WellScoped globals c := by
    intro w hw
    cases w with
    | none =>
      rw [Stmt.WellScoped]
      exact ⟨fun _ => hc.not_inner _, by decide⟩
    | some e =>
      rw [Stmt.WellScoped]
      exact ⟨fun _ => hc.not_inner _, hw e rfl⟩
  rw [Stmt.areWellScoped_iff]
  rw [LowersDeclaration] at h
  split at h
  · rw [h.1]
    refine List.forall_mem_singleton.2 (hdecl _ ?_)
    rintro _ ⟨⟩
    cases v with
    | none => simp only [Option.getD, Expr.WellScoped]
    | some e => exact hv e rfl
  · split at h
    · rw [h.1]
      cases v with
      | none => simp
      | some e =>
        refine List.forall_mem_singleton.2 ?_
        rw [Stmt.WellScoped]
        exact ⟨hb.knows, hc.mayAssign _, hv e rfl⟩
    · rw [h.1]
      exact List.forall_mem_singleton.2 (hdecl v hv)

/-- An early exit keeps to the rules where it is lowered to. -/
theorem Serves.leave (h : p.Serves r sc c) {e : Exit} {v : Option (Expr Span)}
    (hv : ∀ x, v = some x → x.WellScoped globals c) {span : Span} {plain : Stmt Span}
    (hp : r.inWrapper = false → plain.WellScoped globals c) :
    Stmt.AreWellScoped globals c (Lower.leave r e v span plain) := by
  rw [Lower.leave, Stmt.areWellScoped_iff]
  split
  · exact exitStmts_wellScoped h.flat h.writeBacks (some e) hv span
  · exact List.forall_mem_singleton.2 (hp (by simpa using ‹¬ r.inWrapper = true›))

/-- What is used in a scope is declared around the piece, or from outside of the function. -/
theorem Serves.refName (h : p.Serves r sc c) {node : NodeId} {n : Name}
    {w : Bool} (hr : p.analysis.scoping.Refers globals sc node n w) :
    c.Knows globals (p.refName r node n) := by
  obtain ⟨x, hx, -, -, -, hb, hglobal⟩ := hr
  rw [LoweringPlan.refName, hx, Option.bind_some, hb]
  cases hl : p.analysis.scoping.lookup? sc n with
  | none => exact .inr (hglobal hl).1
  | some b => exact (h.known hl).knows

/-- The call of the wrapper of a loop, and the loop around it. -/
theorem CallsLoop.wellScoped {m b : Mark} {w : Wrapper} {drivers : List (BindingId × Name)}
    {h' : Header Span} {body : List (Stmt Span)} {ρh : Roles} {out : List (Stmt Span)}
    {roles : Roles} (h : p.CallsLoop r m b w drivers h' body ρh out roles)
    (hserves : p.Serves r sc c) (hroles : ∀ x ∈ roles.names, c.Has x)
    (hdrivers : ∀ d ∈ drivers, c.Has d.2) (hflat : Stmt.AreFlat out) (hh : h'.WellScoped globals c)
    (hparams : (p.loopParams m).Nodup) (hcode : (p.loopCode m b w drivers body).IsFlat)
    (hbody : Stmt.AreWellScoped globals
      (c.loopBody.function (p.loopParams m) (p.loopCode m b w drivers body))
      (p.loopCode m b w drivers body).statements) : Stmt.AreWellScoped globals c out := by
  have hwrapper : (Expr.function m.span (p.loopParams m)
      (p.loopCode m b w drivers body)).WellScoped globals c.loopBody := by
    rw [loopCode, Expr.WellScoped]
    exact ⟨.of_flat hparams hcode, hbody⟩
  have hargs : Expr.AreWellScoped globals c.loopBody (loopArgs m drivers) := by
    rw [loopArgs]
    clear h hcode hbody hwrapper
    induction drivers with
    | nil => simp only [List.map_nil, Expr.AreWellScoped]
    | cons d ds ih =>
      rw [List.map_cons, Expr.AreWellScoped, Expr.WellScoped]
      exact ⟨.inl (hdrivers d List.mem_cons_self), ih fun e he => hdrivers e
        (List.mem_cons_of_mem _ he)⟩
  have hloop : ∀ {call : List (Stmt Span)}, (Stmt.loop m.span h' (.mk m.span call)).IsFlat →
      Stmt.AreWellScoped globals c.loopBody call →
      (Stmt.loop m.span h' (.mk m.span call)).WellScoped globals c := by
    intro call hcf hcall
    rw [Stmt.IsFlat] at hcf
    rw [Stmt.WellScoped, hcf.1.lexical?]
    exact ⟨hh, Block.wellScoped_of_flat hcf.2 hcall⟩
  have hcf : c.loopBody.IsFlat := ⟨hserves.flat.assignable, hserves.flat.inner⟩
  rw [CallsLoop] at h
  split at h
  · obtain ⟨name, call, ρc, hc, rfl, rfl⟩ := h
    have hname : c.Has name := hroles name (by simp)
    have hcall : Stmt.AreWellScoped globals c.loopBody call := hc.wellScoped (by
      rw [Expr.WellScoped, Expr.WellScoped]
      exact ⟨.inl hname, hargs⟩) hcf hserves.writeBacks (fun _ => rfl)
      fun x hx => hroles x (by simp [hx])
    rw [Stmt.areWellScoped_iff]
    intro s hs
    rcases List.mem_cons.1 hs with rfl | hs
    · rw [Stmt.WellScoped]
      exact ⟨fun _ => hserves.flat.not_inner name, by
        rw [loopCode, Expr.WellScoped]
        exact ⟨.of_flat hparams hcode, hbody⟩⟩
    · obtain rfl := List.mem_singleton.1 hs
      exact hloop (Stmt.areFlat_iff.1 hflat _ (by simp)) hcall
  · obtain ⟨call, ρc, hc, rfl, rfl⟩ := h
    have hcall := hc.wellScoped (by
      rw [Expr.WellScoped]
      exact ⟨hwrapper, hargs⟩) hcf hserves.writeBacks (fun _ => rfl)
      fun x hx => hroles x (by simp [hx])
    exact Stmt.areWellScoped_iff.2 (List.forall_mem_singleton.2 (hloop hflat.1 hcall))

mutual

theorem LowersExpr.wellScoped (hp : p.Sound fn globals) : ∀ {e : Expr Mark} {r : Region}
    {sc : ScopeId} {c : Surroundings} {x : Expr Span}, e.IsSource →
    p.analysis.scoping.ResolvedExpr globals sc e → (∀ y ∈ e.nodes, y ∈ fn.nodes) →
    p.Serves r sc c → p.LowersExpr r e x → x.WellScoped globals c
  | .literal .., r, sc, c, x, _, _, _, _, h => by
    rw [LowersExpr] at h
    rw [h]
    simp only [Expr.WellScoped]
  | .name m n, r, sc, c, x, _, hres, _, hs, h => by
    rw [LowersExpr] at h
    rw [h, Expr.WellScoped]
    exact hs.refName hres
  | .unary _ _ e, r, sc, c, x, hsrc, hres, hin, hs, h => by
    obtain ⟨e', he, rfl⟩ := h
    rw [Expr.WellScoped]
    exact LowersExpr.wellScoped hp (e := e) hsrc hres
      (fun y hy => hin y (List.mem_cons_of_mem _ hy))
      hs he
  | .binary _ _ e f, r, sc, c, x, hsrc, hres, hin, hs, h
  | .index _ e f, r, sc, c, x, hsrc, hres, hin, hs, h => by
    obtain ⟨e', f', he, hf, rfl⟩ := h
    rw [Expr.WellScoped]
    exact ⟨LowersExpr.wellScoped hp hsrc.1 hres.1
        (fun y hy => hin y (List.mem_cons_of_mem _ (List.mem_append_left _ hy))) hs he,
      LowersExpr.wellScoped hp hsrc.2 hres.2
        (fun y hy => hin y (List.mem_cons_of_mem _ (List.mem_append_right _ hy))) hs hf⟩
  | .call _ f args, r, sc, c, x, hsrc, hres, hin, hs, h => by
    obtain ⟨f', args', hf, hargs, rfl⟩ := h
    rw [Expr.WellScoped]
    exact ⟨LowersExpr.wellScoped hp hsrc.1 hres.1
        (fun y hy => hin y (List.mem_cons_of_mem _ (List.mem_append_left _ hy))) hs hf,
      LowersExprs.wellScoped hp hsrc.2 hres.2
        (fun y hy => hin y (List.mem_cons_of_mem _ (List.mem_append_right _ hy))) hs hargs⟩
  | .array _ es, r, sc, c, x, hsrc, hres, hin, hs, h => by
    obtain ⟨es', hes, rfl⟩ := h
    rw [Expr.WellScoped]
    exact LowersExprs.wellScoped hp hsrc hres (fun y hy => hin y (List.mem_cons_of_mem _ hy)) hs hes
  | .function m ps (.mk b ss), r, sc, c, x, hsrc, hres, hin, hs, h => by
    obtain ⟨hoisted, out, roles, hss, hhosts, rfl⟩ := h
    obtain ⟨hopens, hres⟩ := hres
    have hflat := (hoistedDeclarations_flat (p := p) hoisted).append (LowersStmts.flat hsrc hss)
    have hcons := hp.analysed.consistent
    have hserves : p.Serves r.function m.id
        (c.function ps (.mk b.span (p.hoistedDeclarations hoisted ++ out))) := by
      refine hhosts.serves hs.flat hflat.flat (fun x hx => ?_) (fun {n d} hd hown => ?_) rfl
        (by simp [Region.function])
      · rw [List.append_assoc, Roles.names_append, List.mem_append] at hx
        rcases hx with hx | hx
        · exact .inl (by simpa [paramRoles, Roles.names] using hx)
        · exact .inr ((hflat.declares.mem_iff x).2 hx)
      · rcases hcons.of_lookup?_inner hopens.scope hd with hsc | hd'
        · exact absurd (hcons.mem_bindingIdsOf.2 ⟨d, (hcons.of_lookup? hd).1, rfl, hsc⟩) hown
        · exact hs.known hd'
    rw [Expr.WellScoped]
    refine ⟨.of_flat hopens.distinct hflat.flat, Stmt.areWellScoped_append.2 ⟨?_, ?_⟩⟩
    · refine Stmt.areWellScoped_iff.2 fun s hs' => ?_
      obtain ⟨i, -, rfl⟩ := List.mem_map.1 hs'
      rw [Stmt.WellScoped]
      exact ⟨fun _ => hserves.flat.not_inner _, by decide⟩
    · refine LowersStmts.wellScoped hp hsrc hres (fun y hy => hin y (List.mem_cons_of_mem _
        (List.mem_cons_of_mem _ hy))) hserves (fun hf => absurd hf Bool.false_ne_true)
        (fun x hx => ?_) hss
      rw [Surroundings.has_function (show (Block.mk b.span _).IsFlat from hflat.flat)]
      exact .inr (.inl ((hflat.declares.mem_iff x).2 (by
        rw [Roles.names_append]
        exact List.mem_append_right _ hx)))
  | .signal .., _, _, _, _, _, _, _, _, h | .signalIs .., _, _, _, _, _, _, _, _, h
  | .signalValue .., _, _, _, _, _, _, _, _, h | .unknown .., _, _, _, _, _, _, _, _, h => by
    simp only [LowersExpr] at h

theorem LowersExprs.wellScoped (hp : p.Sound fn globals) : ∀ {es : List (Expr Mark)} {r : Region}
    {sc : ScopeId} {c : Surroundings} {xs : List (Expr Span)}, Expr.AreSource es →
    p.analysis.scoping.ResolvedExprs globals sc es → (∀ y ∈ Expr.nodesOfList es, y ∈ fn.nodes) →
    p.Serves r sc c → p.LowersExprs r es xs → Expr.AreWellScoped globals c xs
  | [], r, sc, c, xs, _, _, _, _, h => by
    rw [LowersExprs] at h
    rw [h, Expr.AreWellScoped]
    trivial
  | e :: es, r, sc, c, xs, hsrc, hres, hin, hs, h => by
    obtain ⟨e', es', he, hes, rfl⟩ := h
    rw [Expr.AreWellScoped]
    exact ⟨LowersExpr.wellScoped hp hsrc.1 hres.1
        (fun y hy => hin y (List.mem_append_left _ hy)) hs he,
      LowersExprs.wellScoped hp hsrc.2 hres.2
        (fun y hy => hin y (List.mem_append_right _ hy)) hs hes⟩

theorem LowersStmts.wellScoped (hp : p.Sound fn globals) : ∀ {ss : List (Stmt Mark)} {r : Region}
    {fs sc : ScopeId} {inLoop : Bool} {c : Surroundings} {out : List (Stmt Span)} {roles : Roles},
    Stmt.AreSource ss → p.analysis.scoping.ResolvedStmts globals fs sc inLoop ss →
    (∀ y ∈ Stmt.nodesOfList ss, y ∈ fn.nodes) → p.Serves r sc c →
    (inLoop → r.inLoop ∨ r.inWrapper) → (∀ x ∈ roles.names, c.Has x) →
    p.LowersStmts r sc ss out roles → Stmt.AreWellScoped globals c out
  | [], r, fs, sc, inLoop, c, out, roles, _, _, _, _, _, _, h => by
    rw [h.1, Stmt.AreWellScoped]
    trivial
  | s :: ss, r, fs, sc, inLoop, c, out, roles, hsrc, hres, hin, hs, hl, hroles, h => by
    obtain ⟨o, os, ρ, ρs, ho, hos, rfl, rfl⟩ := h
    rw [Roles.names_append] at hroles
    exact Stmt.areWellScoped_append.2
      ⟨LowersStmt.wellScoped hp hsrc.1 hres.1 (fun y hy => hin y (List.mem_append_left _ hy)) hs hl
        (fun x hx => hroles x (List.mem_append_left _ hx)) ho,
      LowersStmts.wellScoped hp hsrc.2 hres.2 (fun y hy => hin y (List.mem_append_right _ hy)) hs hl
        (fun x hx => hroles x (List.mem_append_right _ hx)) hos⟩

theorem LowersBlock.wellScoped (hp : p.Sound fn globals) : ∀ {b : Block Mark} {r : Region}
    {fs sc : ScopeId} {inLoop : Bool} {c : Surroundings} {x : Block Span} {roles : Roles},
    b.IsSource → p.analysis.scoping.ResolvedBlock globals fs sc inLoop b →
    (∀ y ∈ b.nodes, y ∈ fn.nodes) → p.Serves r sc c → (inLoop → r.inLoop ∨ r.inWrapper) →
    (∀ x ∈ roles.names, c.Has x) → p.LowersBlock r sc b x roles →
    Stmt.AreWellScoped globals c x.statements
  | .mk m ss, r, fs, sc, inLoop, c, x, roles, hsrc, hres, hin, hs, hl, hroles, h => by
    obtain ⟨hopens, hres⟩ := hres
    have hin' : ∀ y ∈ Stmt.nodesOfList ss, y ∈ fn.nodes :=
      fun y hy => hin y (List.mem_cons_of_mem _ hy)
    cases hw : p.analysis.wrapper? m.id with
    | none =>
      obtain ⟨out, hss, rfl⟩ := (lowersBlock_plain hw).1 h
      exact LowersStmts.wellScoped hp hsrc hres hin' (hs.block hp hopens hss hroles) hl hroles hss
    | some w =>
      obtain ⟨out, inner, call, hss, hhosts, hc, rfl⟩ := (lowersBlock_wrapped hw).1 h
      have hx : .block (.mk m ss) ∈ fn.nodes := hin _ List.mem_cons_self
      have hwr : p.analysis.scoping.blockWrapper? (.mk m ss) = some w := by
        have := hp.analysed.wrapper? hx
        rwa [Node.mark, Block.mark, hw, Scoping.wrapper?, eq_comm] at this
      obtain ⟨hne, -, hlocals, -⟩ := hp.analysed.of_wrappedBlock hx hopens hwr
      have hcons := hp.analysed.consistent
      have hflat := wrapperCode_flat (LowersStmts.flat hsrc hss) w []
      have hserves : p.Serves (r.wrapper []) m.id
          (c.function [] (.mk m.span (Lower.wrapperCode w [] out))) := by
        refine hhosts.serves hs.flat hflat.flat (fun x hx => .inr ((hflat.declares.mem_iff x).2 hx))
          (fun {n d} hd hown => ?_) rfl (by simp [Region.wrapper])
        rcases hcons.of_lookup?_inner (hopens.scope hne).2 hd with hsc | hd'
        · refine absurd ?_ hown
          rw [hlocals]
          exact hcons.mem_bindingIdsOf.2 ⟨d, (hcons.of_lookup? hd).1, rfl, hsc⟩
        · exact hs.known hd'
      refine hc.wellScoped ?_ hs.flat hs.writeBacks hs.inLoop hroles
      rw [Expr.WellScoped, Expr.WellScoped, Expr.AreWellScoped]
      refine ⟨⟨.of_flat .nil hflat.flat, wrapperCode_wellScoped ?_ hserves.flat w
        (by simp)⟩, trivial⟩
      rw [show (Block.mk m ss).scopeIn sc = m.id from Block.scopeIn_of_ne_nil hne] at hres
      refine LowersStmts.wellScoped hp hsrc hres hin' hserves (fun _ => .inr rfl)
        (fun x hx => ?_) hss
      rw [Surroundings.has_function (show (Block.mk m.span _).IsFlat from hflat.flat)]
      exact .inr (.inl ((hflat.declares.mem_iff x).2 hx))

theorem LowersStmt.wellScoped (hp : p.Sound fn globals) : ∀ {s : Stmt Mark} {r : Region}
    {fs sc : ScopeId} {inLoop : Bool} {c : Surroundings} {out : List (Stmt Span)} {roles : Roles},
    s.IsSource → p.analysis.scoping.ResolvedStmt globals fs sc inLoop s →
    (∀ y ∈ s.nodes, y ∈ fn.nodes) → p.Serves r sc c → (inLoop → r.inLoop ∨ r.inWrapper) →
    (∀ x ∈ roles.names, c.Has x) → p.LowersStmt r sc s out roles →
    Stmt.AreWellScoped globals c out
  | .declaration m n k none, r, fs, sc, inLoop, c, out, roles, _, hres, _, hs, _, _, h => by
    obtain ⟨b, hb, h⟩ := h
    obtain ⟨⟨d, hd, hlook, -⟩, -⟩ := hres
    obtain rfl := Option.some.inj (hb.symm.trans hd)
    exact h.wellScoped hs.flat (hs.known hlook) (by simp)
  | .declaration m n k (some e), r, fs, sc, inLoop, c, out, roles, hsrc, hres, hin,
      hs, _, _, h => by
    obtain ⟨b, e', hb, he, h⟩ := h
    obtain ⟨⟨d, hd, hlook, -⟩, hre⟩ := hres
    obtain rfl := Option.some.inj (hb.symm.trans hd)
    have hws := LowersExpr.wellScoped hp (e := e) hsrc hre
      (fun y hy => hin y (List.mem_cons_of_mem _ hy)) hs he
    exact h.wellScoped hs.flat (hs.known hlook) (by simpa using hws)
  | .assignment m t v, r, fs, sc, inLoop, c, out, roles, hsrc, hres, hin, hs, _, _, h => by
    obtain ⟨t', v', ht, hv, rfl, rfl⟩ := h
    refine Stmt.areWellScoped_iff.2 (List.forall_mem_singleton.2 ?_)
    have hvin : ∀ y ∈ v.nodes, y ∈ fn.nodes :=
      fun y hy => hin y (List.mem_cons_of_mem _ (List.mem_append_right _ hy))
    cases t with
    | name k n =>
      rw [LowersExpr] at ht
      rw [ht, Stmt.WellScoped]
      exact ⟨hs.refName hres.1, hs.flat.mayAssign _,
        LowersExpr.wellScoped hp hsrc.2 hres.2 hvin hs hv⟩
    | index k b i =>
      obtain ⟨b', i', hb, hi, rfl⟩ := ht
      rw [Stmt.WellScoped]
      exact ⟨LowersExpr.wellScoped hp hsrc.1.1 hres.1 (fun y hy => hin y (List.mem_cons_of_mem _
          (List.mem_append_left _ (List.mem_cons_of_mem _ (List.mem_append_left _ hy))))) hs hb,
        LowersExpr.wellScoped hp hsrc.1.2 hres.2.1 (fun y hy => hin y (List.mem_cons_of_mem _
          (List.mem_append_left _ (List.mem_cons_of_mem _ (List.mem_append_right _ hy))))) hs hi,
        LowersExpr.wellScoped hp hsrc.2 hres.2.2 hvin hs hv⟩
    | _ => simp only [Scoping.ResolvedStmt] at hres
  | .expression m e, r, fs, sc, inLoop, c, out, roles, hsrc, hres, hin, hs, _, _, h => by
    obtain ⟨e', he, rfl, rfl⟩ := h
    refine Stmt.areWellScoped_iff.2 (List.forall_mem_singleton.2 ?_)
    rw [Stmt.WellScoped]
    exact LowersExpr.wellScoped hp (e := e) hsrc hres
      (fun y hy => hin y (List.mem_cons_of_mem _ hy)) hs he
  | .block b, r, fs, sc, inLoop, c, out, roles, hsrc, hres, hin, hs, hl, hroles, h => by
    obtain ⟨x, hx, rfl⟩ := h
    have hws := LowersBlock.wellScoped hp (b := b) hsrc hres.2 hin hs hl hroles hx
    have hflat := LowersBlock.flat (b := b) hsrc hx
    -- a block without declarations of its own may be left out
    split
    · exact hws
    · obtain ⟨m, ss⟩ := x
      refine Stmt.areWellScoped_iff.2 (List.forall_mem_singleton.2 ?_)
      rw [Stmt.WellScoped]
      exact Block.wellScoped_of_flat hflat.flat hws
  | .branch m e t none, r, fs, sc, inLoop, c, out, roles, hsrc, hres, hin, hs, hl, hroles, h => by
    obtain ⟨e', ⟨k, ss⟩, he, ht, rfl⟩ := h
    refine Stmt.areWellScoped_iff.2 (List.forall_mem_singleton.2 ?_)
    rw [Stmt.WellScoped]
    exact ⟨LowersExpr.wellScoped hp hsrc.1 hres.1 (fun y hy => hin y (List.mem_cons_of_mem _
        (List.mem_append_left _ hy))) hs he,
      Block.wellScoped_of_flat (LowersBlock.flat hsrc.2 ht).flat
        (LowersBlock.wellScoped hp hsrc.2 hres.2.2 (fun y hy => hin y (List.mem_cons_of_mem _
          (List.mem_append_right _ (by simpa using hy)))) hs hl hroles ht)⟩
  | .branch m e t (some f), r, fs, sc, inLoop, c, out, roles, hsrc, hres, hin, hs, hl,
      hroles, h => by
    obtain ⟨e', ⟨k, ss⟩, ⟨k', ss'⟩, ρt, ρe, he, ht, hf, rfl, rfl⟩ := h
    obtain ⟨hre, -, hrt, -, hrf⟩ := hres
    rw [Roles.names_append] at hroles
    refine Stmt.areWellScoped_iff.2 (List.forall_mem_singleton.2 ?_)
    rw [Stmt.WellScoped]
    exact ⟨LowersExpr.wellScoped hp hsrc.1 hre (fun y hy => hin y (List.mem_cons_of_mem _
        (List.mem_append_left _ hy))) hs he,
      Block.wellScoped_of_flat (LowersBlock.flat hsrc.2.1 ht).flat
        (LowersBlock.wellScoped hp hsrc.2.1 hrt (fun y hy => hin y (List.mem_cons_of_mem _
          (List.mem_append_right _ (List.mem_append_left _ hy)))) hs hl
          (fun x hx => hroles x (List.mem_append_left _ hx)) ht),
      Block.wellScoped_of_flat (LowersBlock.flat hsrc.2.2 hf).flat
        (LowersBlock.wellScoped hp hsrc.2.2 hrf (fun y hy => hin y (List.mem_cons_of_mem _
          (List.mem_append_right _ (List.mem_append_right _ hy)))) hs hl
          (fun x hx => hroles x (List.mem_append_right _ hx)) hf)⟩
  | .loop m hd (.mk b ss), r, fs, sc, inLoop, c, out, roles, hsrc, hres, hin, hs, hl,
      hroles, h => by
    have hflat := LowersStmt.flat (s := .loop m hd (.mk b ss)) hsrc h
    obtain ⟨hloop, hopens, hrh, hopensB, hrb⟩ := hres
    have hhin : ∀ y ∈ hd.nodes, y ∈ fn.nodes :=
      fun y hy => hin y (List.mem_cons_of_mem _ (List.mem_append_left _ hy))
    have hbin : ∀ y ∈ Stmt.nodesOfList ss, y ∈ fn.nodes := fun y hy => hin y
      (Stmt.mem_nodes_body hy)
    cases hw : (p.loopPlan m.id).wrapper with
    | none =>
      -- the loop stays where it is, and so do its variables
      obtain ⟨h', body, ρh, ρb, hh, hb, rfl, rfl⟩ := (lowersStmt_plainLoop hw).1 h
      rw [Roles.names_append] at hroles
      have hρh : ∀ x ∈ ρh.names, c.Has x := fun x hx => hroles x (List.mem_append_left _ hx)
      have hρb : ∀ x ∈ ρb.names, c.Has x := fun x hx => hroles x (List.mem_append_right _ hx)
      have hserves := hs.header hp hopens hh hρh
      obtain ⟨hhf, hbf⟩ := hflat.flat.1
      refine Stmt.areWellScoped_iff.2 (List.forall_mem_singleton.2 ?_)
      rw [Stmt.WellScoped, hhf.lexical?]
      exact ⟨LowersHeader.wellScoped hp hsrc.1 hrh hopens hhin hs hρh hh,
        Block.wellScoped_of_flat hbf (LowersStmts.wellScoped hp hsrc.2 hrb hbin
          (hserves.loopBody.block hp hopensB hb hρb) (fun _ => .inl rfl) hρb hb)⟩
    | some w =>
      obtain ⟨drivers, h', body, ρh, ρb, hkeys, hh, hb, hhosts, hdrivers, hcalls⟩ :=
        (lowersStmt_wrappedLoop hw).1 h
      -- whether the wrapper is made before the loop does not matter for the names of the header
      have hρh : ∀ x ∈ ρh.names, c.Has x := fun x hx => hroles x (by
        rw [CallsLoop] at hcalls
        split at hcalls
        · obtain ⟨_, _, _, -, -, rfl⟩ := hcalls
          simp [hx]
        · obtain ⟨_, _, -, -, rfl⟩ := hcalls
          simp [hx])
      have hdr : ∀ d ∈ drivers, c.Has d.2 := fun d hd => hρh _ (Roles.mem_names (hdrivers d hd).1)
      have hbody := LowersStmts.flat hsrc.2 hb
      have hcode := wrapperCode_flat hbody w (Lower.loopWriteBacks p (p.loopPlan m.id) drivers)
      have hinner := hs.wrappedBody hp (hin _ List.mem_cons_self) hloop hopens hopensB hw hkeys hh
        hρh hdr hhosts hbody
      obtain ⟨hfresh, -⟩ := hp.of_wrappedLoop (hin _ List.mem_cons_self) hloop hw
      refine hcalls.wellScoped hs hroles hdr hflat.flat
        (LowersHeader.wellScoped hp hsrc.1 hrh hopens hhin (hs.loopHeader hdr) hρh hh) ?_
        hcode.flat ?_
      · -- the wrapper of a loop has at most one parameter
        rw [loopParams, hfresh, Scoping.freshOf]
        split
        · obtain ⟨l, hlex⟩ := Option.isSome_iff_exists.1 ‹_›
          obtain ⟨d, -, -, -, -, -, hids⟩ := hp.analysed.of_header hopens hlex
          rw [hids]
          by_cases hper : p.analysis.scoping.isPerIteration d.id = true
          · simp [hper]
          · simp [hper]
        · simp
      · refine wrapperCode_wellScoped (LowersStmts.wellScoped hp hsrc.2 hrb hbin hinner
          (fun _ => .inr rfl) (fun x hx => ?_) hb) hinner.flat w hinner.writeBacks
        rw [Surroundings.has_function (show (p.loopCode m b w drivers body).IsFlat from hcode.flat)]
        exact .inr (.inl ((hcode.declares.mem_iff x).2 hx))
  | .ret m none, r, fs, sc, inLoop, c, out, roles, _, _, _, hs, _, _, h => by
    rw [h.1]
    exact hs.leave (by simp) fun _ => by
      rw [Stmt.WellScoped]
      trivial
  | .ret m (some e), r, fs, sc, inLoop, c, out, roles, hsrc, hres, hin, hs, _, _, h => by
    obtain ⟨e', he, rfl, rfl⟩ := h
    have hws := LowersExpr.wellScoped hp (e := e) hsrc hres
      (fun y hy => hin y (List.mem_cons_of_mem _ hy)) hs he
    exact hs.leave (by simpa using hws) fun _ => by rwa [Stmt.WellScoped]
  | .brk m, r, fs, sc, inLoop, c, out, roles, _, hres, _, hs, hl, _, h
  | .cont m, r, fs, sc, inLoop, c, out, roles, _, hres, _, hs, hl, _, h => by
    rw [h.2]
    split
    · refine Stmt.areWellScoped_iff.2 (List.forall_mem_singleton.2 ?_)
      rw [Stmt.WellScoped]
      exact hs.inLoop ‹_›
    · refine hs.leave (by simp) fun hw => ?_
      rcases hl hres with hl | hl
      · exact absurd hl ‹_›
      · rw [hw] at hl
        cases hl
  | .unknown .., _, _, _, _, _, _, _, _, _, _, _, _, _, h => by
    simp only [LowersStmt] at h

theorem LowersHeader.wellScoped (hp : p.Sound fn globals) : ∀ {h : Header Mark} {r : Region}
    {fs sc : ScopeId} {loop : NodeId} {c : Surroundings} {x : Header Span} {roles : Roles},
    h.IsSource → p.analysis.scoping.ResolvedHeader globals fs sc loop h →
    p.analysis.scoping.OpensLoop loop h sc → (∀ y ∈ h.nodes, y ∈ fn.nodes) → p.Serves r sc c →
    (∀ x ∈ roles.names, c.Has x) → p.LowersHeader r (h.scopeIn loop sc) h x roles →
    x.WellScoped globals c
  | .whileTrue m e, r, fs, sc, loop, c, x, roles, hsrc, hres, _, hin, hs, _, h => by
    obtain ⟨e', he, rfl, rfl⟩ := h
    rw [Header.WellScoped]
    exact LowersExpr.wellScoped hp (e := e) hsrc hres
      (fun y hy => hin y (List.mem_cons_of_mem _ hy)) hs he
  | .counting m i e u, r, fs, sc, loop, c, x, roles, hsrc, hres, ho, hin, hs, hroles, h => by
    have hs := hs.header hp ho h hroles
    have hflat := (LowersHeader.flat hsrc h).1
    obtain ⟨hsi, hse, hsu⟩ := Header.shaped_counting.1 hsrc
    obtain ⟨hri, hre, hru⟩ := Scoping.resolvedHeader_counting.1 hres
    obtain ⟨i', e', u', ρi, ρu, hi, he, hu, rfl, rfl⟩ := lowersHeader_counting.1 h
    rw [Header.nodes_counting] at hin
    rw [Roles.names_append] at hroles
    rw [Header.wellScoped_counting, hflat.lexical?]
    refine ⟨?_, ?_, ?_⟩
    · rintro o rfl
      cases i with
      | none => cases (hi.1 rfl).1
      | some s =>
        exact (LowersStmt.wellScoped hp (hsi s rfl).2 (hri s rfl)
          (fun y hy => hin y (List.mem_cons_of_mem _ (List.mem_append_left _ hy))) hs
          (fun hf => absurd hf Bool.false_ne_true)
          (fun x hx => hroles x (List.mem_append_left _ hx)) (hi.2 s rfl)).1
    · rintro o rfl
      cases e with
      | none => cases he.1 rfl
      | some e =>
        obtain ⟨_, he, ⟨⟩⟩ := he.2 e rfl
        exact LowersExpr.wellScoped hp (hse e rfl) (hre e rfl) (fun y hy => hin y
          (List.mem_cons_of_mem _ (List.mem_append_right _ (List.mem_append_left _ hy)))) hs he
    · rintro o rfl
      cases u with
      | none => cases (hu.1 rfl).1
      | some s =>
        exact (LowersStmt.wellScoped hp (hsu s rfl).2 (hru s rfl)
          (fun y hy => hin y (List.mem_cons_of_mem _ (List.mem_append_right _
            (List.mem_append_right _ hy)))) hs
          (fun hf => absurd hf Bool.false_ne_true)
          (fun x hx => hroles x (List.mem_append_right _ hx)) (hu.2 s rfl)).1
  | .forOf m n k e, r, fs, sc, loop, c, x, roles, hsrc, hres, ho, hin, hs, hroles, h => by
    have hserved := hs.header hp ho h hroles
    obtain ⟨e', n', k', he, hel, rfl⟩ := h
    have hws := LowersExpr.wellScoped hp (e := e) hsrc hres.1
      (fun y hy => hin y (List.mem_cons_of_mem _ hy)) hs he
    cases k with
    | none =>
      obtain ⟨rfl, rfl, rfl⟩ := hel
      rw [Header.WellScoped]
      exact ⟨hws, hs.refName hres.2, hs.flat.mayAssign _⟩
    | some k =>
      obtain ⟨b, hb, rfl, hel⟩ := hel
      have hdecl : p.analysis.scoping.Declares fs ((Header.forOf m n (some k) e).scopeIn loop sc)
          m.id n k := by
        cases k with
        | var => exact hres.2.1
        | letVar | const => exact hres.2
      obtain ⟨d, hd, hlook, -⟩ := hdecl
      obtain rfl := Option.some.inj (hb.symm.trans hd)
      split at hel
      · obtain ⟨rfl, rfl⟩ := hel
        rw [Header.WellScoped]
        exact ⟨hws, (hserved.known hlook).knows, hs.flat.mayAssign _⟩
      · obtain ⟨rfl, rfl⟩ := hel
        rw [Header.WellScoped]
        exact ⟨hws, fun _ => hs.flat.not_inner _⟩
  | .unknown .., _, _, _, _, _, _, _, _, _, _, _, _, _, h => by
    simp only [LowersHeader] at h

end

/-- What an analysed function is lowered to is flat and well-scoped. -/
theorem LowersFunction.wellScoped (hp : p.Sound fn globals) {out : FunctionDef Span}
    (h : p.LowersFunction fn out) : out.IsFlat ∧ out.WellScoped globals := by
  obtain ⟨hoisted, body, roles, hss, hhosts, rfl⟩ := h
  obtain ⟨mark, name, ps, k, ss⟩ := fn
  have hcons := hp.analysed.consistent
  have hopens := hp.analysed.opens
  have hsrc : Stmt.AreSource ss := hp.analysed.source
  have hflat := (hoistedDeclarations_flat (p := p) hoisted).append (LowersStmts.flat hsrc hss)
  have hempty : Surroundings.outermost.IsFlat := ⟨by simp [Surroundings.outermost], rfl⟩
  have hserves : p.Serves .outermost mark.id (Surroundings.outermost.function ps
      (.mk k.span (p.hoistedDeclarations hoisted ++ body))) := by
    refine hhosts.serves hempty hflat.flat (fun x hx => ?_) (fun {n d} hd hown => ?_) rfl
      (by simp [Region.outermost])
    · rw [List.append_assoc, Roles.names_append, List.mem_append] at hx
      rcases hx with hx | hx
      · exact .inl (by simpa [paramRoles, Roles.names] using hx)
      · exact .inr ((hflat.declares.mem_iff x).2 hx)
    · -- nothing is declared around a function that is not nested in another one
      exact absurd (hcons.mem_bindingIdsOf.2 ⟨d, (hcons.of_lookup? hd).1, rfl,
        hcons.of_lookup?_outermost hopens.scope hd⟩) hown
  refine ⟨hflat.flat, .of_flat hopens.distinct hflat.flat, Stmt.areWellScoped_append.2 ⟨?_, ?_⟩⟩
  · refine Stmt.areWellScoped_iff.2 fun s hs => ?_
    obtain ⟨i, -, rfl⟩ := List.mem_map.1 hs
    rw [Stmt.WellScoped]
    exact ⟨fun _ => hserves.flat.not_inner _, by decide⟩
  · refine LowersStmts.wellScoped hp hsrc hp.analysed.resolved
      (fun y hy => List.mem_cons_of_mem _ (List.mem_cons_of_mem _ hy)) hserves
      (fun hf => absurd hf Bool.false_ne_true) (fun x hx => ?_) hss
    have hx : x ∈ Roles.names (hoisted.map p.ownRole ++ roles) := by
      rw [Roles.names_append]
      exact List.mem_append_right _ hx
    exact (Surroundings.has_function (b := .mk k.span _) hflat.flat).2
      (.inr (.inl ((hflat.declares.mem_iff x).2 hx)))

end LoweringPlan

end FlatScope
