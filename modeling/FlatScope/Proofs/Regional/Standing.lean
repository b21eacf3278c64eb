import FlatScope.Proofs.Regional.Variables
import FlatScope.Proofs.Traversal

/-!
# Where the names of a scope stand

Inside of a block or loop without a wrapper, the names of the scope around it stand for what they
stood for outside, and the names of its own scope for variables of the same frame
(`World.Stands.block`, `World.Stands.header`). A new frame has variables for the names of a function
or wrapper, and what lives further out is found in the frame around it
(`LoweringPlan.Hosts.stands`).
-/

namespace FlatScope

open Regional

/-- The bindings of a scope are those that say so. -/
theorem FunctionDef.Analysed.id_mem_bindingIdsOf {fn : FunctionDef Mark} {globals : List Name}
    {a : Analysis} (h : fn.Analysed globals a) {d : Binding} (hd : d ∈ a.scoping.bindings)
    {id : ScopeId} : d.id ∈ a.scoping.bindingIdsOf id ↔ d.scope = id := by
  rw [h.consistent.mem_bindingIdsOf]
  refine ⟨?_, fun hs => ⟨d, hd, rfl, hs⟩⟩
  rintro ⟨c, hc, hid, hs⟩
  rwa [← h.eq_of_id hc hd hid]

namespace LoweringPlan

variable {p : LoweringPlan} {fn : FunctionDef Mark} {globals : List Name} {r : Region}
  {sc : ScopeId} {roles : Roles}

namespace Within

variable {x y : Node Mark}

/-- What is below a node that opens a scope is in that scope. -/
theorem below (h : p.Within fn r sc y) (hp : p.Sound fn globals) (hx : x ∈ fn.nodes)
    (hy : y ∈ x.nodes.tail) : p.Within fn r x.mark.id y :=
  ⟨h.node, hp.analysed.lt_below hx hy, h.drivers⟩

/-- What is in a scope has no driver that is a binding of the node itself. -/
theorem no_driver (h : p.Within fn r sc x) (hp : p.Sound fn globals) {d : Binding}
    (hd : d ∈ p.analysis.scoping.bindings) (hs : x.mark.id ≤ d.scope) :
    r.drivers.lookup d.id = none := by
  cases hl : r.drivers.lookup d.id with
  | none => rfl
  | some y =>
    obtain ⟨e, he, hid, hlt⟩ := h.drivers hl
    cases hp.analysed.eq_of_id he hd hid
    exact absurd hlt (Nat.not_lt.2 hs)

end Within

end LoweringPlan

namespace Regional

namespace Env

variable {env : Env} {fn : FunctionDef Mark} {globals : List Name} {a : Analysis} {d : Binding}
  {f : FrameId}

theorem enter_own (h : fn.Analysed globals a) (hd : d ∈ a.scoping.bindings) {id : ScopeId}
    (hs : d.scope = id) : env.enter a.scoping id f d.id = ⟨f, .binding d.id⟩ :=
  if_pos ((h.id_mem_bindingIdsOf hd).2 hs)

theorem enter_other (h : fn.Analysed globals a) (hd : d ∈ a.scoping.bindings) {id : ScopeId}
    (hs : d.scope ≠ id) : env.enter a.scoping id f d.id = env d.id :=
  if_neg fun hm => hs ((h.id_mem_bindingIdsOf hd).1 hm)

theorem header_other (h : fn.Analysed globals a) (hd : d ∈ a.scoping.bindings) {loop : NodeId}
    {hdr : Header Mark} {drivers : List BindingId}
    (hs : (Resolve.headerLexical? hdr).isSome → d.scope ≠ loop) :
    env.header a.scoping loop hdr drivers f d.id = env d.id :=
  if_neg fun hm => hs hm.1 ((h.id_mem_bindingIdsOf hd).1 hm.2)

end Env

namespace World

variable {w : World} {p : LoweringPlan} {fn : FunctionDef Mark} {globals : List Name} {r : Region}
  {sc : ScopeId} {f : FrameId} {env env' : Env} {roles : Roles}

/-- The names of an inner scope stand for variables of the frame, and the others for what they stood
    for. -/
theorem Stands.inner (h : w.Stands p r sc f env) (hp : p.Sound fn globals) {r' : Region}
    {id : ScopeId} {kind : ScopeKind} {names : List Name → Prop}
    (ho : p.analysis.scoping.Opens id kind (some sc) names)
    (hown : ∀ {d}, d ∈ p.analysis.scoping.bindings → d.scope = id →
      w.At f (p.nameOf r' d.id) (env' d.id))
    (hout : ∀ {d}, d ∈ p.analysis.scoping.bindings → d.scope ≠ id →
      p.nameOf r' d.id = p.nameOf r d.id ∧ env' d.id = env d.id) : w.Stands p r' id f env' where
  known {n d} hd := by
    have hcons := hp.analysed.consistent
    have hdm := (hcons.of_lookup? hd).1
    by_cases hs : d.scope = id
    · exact hown hdm hs
    · obtain ⟨hname, henv⟩ := hout hdm hs
      rw [hname, henv]
      exact h.known ((hcons.of_lookup?_inner ho hd).resolve_left hs)
  global hn hg := h.global (hp.analysed.consistent.lookup?_outer ho hn) hg

/-- The names in a block without a wrapper. -/
theorem Stands.block (h : w.Stands p r sc f env) (hp : p.Sound fn globals) {b : Block Mark}
    (ho : p.analysis.scoping.OpensBlock b sc) (hb : p.Within fn r sc (.block b))
    {out : List (Stmt Span)} (hlow : p.LowersStmts r (b.scopeIn sc) b.statements out roles)
    (hf : 0 < f) (hlt : f < w.frames) (hroles : ∀ ρ ∈ roles, ρ ∈ w.host f) :
    w.Stands p r (b.scopeIn sc) f (env.block p.analysis.scoping b f) := by
  by_cases hne : b.lexicals = []
  · rwa [Block.scopeIn_of_nil hne,
      show env.block p.analysis.scoping b f = env by simp [Env.block, hne]]
  · rw [Block.scopeIn_of_ne_nil hne] at hlow ⊢
    rw [show env.block p.analysis.scoping b f = env.enter p.analysis.scoping b.mark.id f by
      simp [Env.block, hne]]
    refine h.inner hp (ho.scope hne).2 (fun {d} hd hs => ?_) fun {d} hd hs =>
      ⟨rfl, Env.enter_other hp.analysed hd hs⟩
    obtain ⟨-, hrole⟩ := LoweringPlan.role_of_block hp ho hne hlow hd hs
    have hnone : r.drivers.lookup d.id = none := hb.no_driver hp hd (Nat.le_of_eq hs.symm)
    rw [Env.enter_own hp.analysed hd hs]
    refine .here hf hlt (hroles _ ?_)
    rwa [LoweringPlan.role, LoweringPlan.slot_of_none hnone] at hrole

/-- Other bindings than those of a loop have the same names in its header. -/
theorem nameOf_loopHeader (hp : p.Sound fn globals) {loop : NodeId}
    {drivers : List (BindingId × Name)}
    (hkeys : ∀ i ∈ drivers.map (·.1), i ∈ p.analysis.scoping.bindingIdsOf loop) {d : Binding}
    (hd : d ∈ p.analysis.scoping.bindings) (hs : d.scope ≠ loop) :
    p.nameOf (r.loopHeader drivers) d.id = p.nameOf r d.id := by
  have hnone : drivers.lookup d.id = none := Table.lookup_eq_none.2 fun hm =>
    hs ((hp.analysed.id_mem_bindingIdsOf hd).1 (hkeys _ hm))
  rw [LoweringPlan.nameOf, Region.loopHeader, Table.lookup_append_of_none hnone,
    LoweringPlan.nameOf]

/-- The names around a loop, in the region of its header. -/
theorem Stands.loopHeader (h : w.Stands p r sc f env) (hp : p.Sound fn globals) {loop : NodeId}
    (hlt : sc < loop) {drivers : List (BindingId × Name)}
    (hkeys : ∀ i ∈ drivers.map (·.1), i ∈ p.analysis.scoping.bindingIdsOf loop) :
    w.Stands p (r.loopHeader drivers) sc f env where
  known hd := by
    obtain ⟨hdm, -, hle⟩ := hp.analysed.consistent.of_lookup? hd
    rw [nameOf_loopHeader hp hkeys hdm (Nat.ne_of_lt (Nat.lt_of_le_of_lt hle hlt))]
    exact h.known hd
  global := h.global

/-- The names in the header of a loop, some of which have drivers. -/
theorem Stands.header (h : w.Stands p r sc f env) (hp : p.Sound fn globals) {loop : NodeId}
    {hd : Header Mark} (ho : p.analysis.scoping.OpensLoop loop hd sc) {x : Node Mark}
    (hx : p.Within fn r sc x) (hloop : x.mark.id = loop) {drivers : List (BindingId × Name)}
    {fresh : List BindingId} (hfresh : drivers.map (·.1) = fresh)
    (hkeys : ∀ i ∈ fresh, i ∈ p.analysis.scoping.bindingIdsOf loop) {hd' : Header Span}
    (hlow : p.LowersHeader (r.loopHeader drivers) (hd.scopeIn loop sc) hd hd' roles)
    (hf : 0 < f) (hlt : f < w.frames) (hroles : ∀ ρ ∈ roles, ρ ∈ w.host f) :
    w.Stands p (r.loopHeader drivers) (hd.scopeIn loop sc) f
      (env.header p.analysis.scoping loop hd fresh f) := by
  subst hloop hfresh
  cases hlex : Resolve.headerLexical? hd with
  | none =>
    rw [show hd.scopeIn x.mark.id sc = sc by simp [Header.scopeIn, hlex]]
    have henv : env.header p.analysis.scoping x.mark.id hd (drivers.map (·.1)) f = env :=
      funext fun b => by simp [Env.header, hlex]
    rw [henv]
    exact h.loopHeader hp hx.scope hkeys
  | some l =>
    have hsome : (Resolve.headerLexical? hd).isSome := by rw [hlex]; rfl
    rw [show hd.scopeIn x.mark.id sc = x.mark.id by simp [Header.scopeIn, hlex]] at hlow ⊢
    refine h.inner hp (ho l hlex).1 (fun {d} hdm hs => ?_) fun {d} hdm hs =>
      ⟨nameOf_loopHeader hp hkeys hdm hs, Env.header_other hp.analysed hdm fun _ => hs⟩
    obtain ⟨e, hem, hedecl, -, -, heo, hids⟩ := hp.analysed.of_header ho hlex
    have hmem := (hp.analysed.id_mem_bindingIdsOf hdm).2 hs
    have hde := hmem
    rw [hids, List.mem_singleton] at hde
    obtain rfl := hp.analysed.eq_of_id hdm hem hde
    obtain ⟨g, hg, hrole⟩ := LoweringPlan.role_of_header hlow hlex
    obtain rfl := Option.some.inj (hedecl.symm.trans hg)
    have hrole := hrole (Origin.not_functionScoped (congrArg Origin.kind? heo)
      (Resolve.headerLexical?_kind hlex))
    have hnone : r.drivers.lookup d.id = none := hx.no_driver hp hdm (Nat.le_of_eq hs.symm)
    -- a binding with a driver stands at the driver, any other one at its own slot
    have henv : env.header p.analysis.scoping x.mark.id hd (drivers.map (·.1)) f d.id =
        ⟨f, (r.loopHeader drivers).slot d.id⟩ := by
      rw [Env.header, if_pos ⟨hsome, hmem⟩, Region.slot, Region.loopHeader]
      by_cases hm : d.id ∈ drivers.map (·.1)
      · obtain ⟨y, hy⟩ := Table.exists_lookup.2 hm
        rw [if_pos hm, Table.lookup_append_of_some hy]
        rfl
      · rw [if_neg hm, Table.lookup_append_of_none (Table.lookup_eq_none.2 hm), hnone]
        rfl
    rw [henv]
    exact .here hf hlt (hroles _ hrole)

end World

end Regional

/-- The names in a new frame, whose variables host the code that runs in it. -/
theorem LoweringPlan.Hosts.stands {w : World} {p : LoweringPlan} {r : Region} {sc : ScopeId}
    {own : List BindingId} {roles : Roles} {g : FrameId} {env : Env} (h : p.Hosts r sc own roles)
    (hpos : 0 < w.frames)
    (hown : ∀ {n d}, p.analysis.scoping.lookup? sc n = some d → d.id ∈ own →
      env d.id = ⟨w.frames, .binding d.id⟩)
    (hout : ∀ {n d}, p.analysis.scoping.lookup? sc n = some d → d.id ∉ own →
      w.At g (p.nameOf r d.id) (env d.id))
    (hglobal : ∀ {n}, p.analysis.scoping.lookup? sc n = none →
      n ∈ p.analysis.scoping.globalsUsed → w.Sees n g 0) :
    (w.enter roles g).Stands p r sc w.frames env := by
  have hle := w.le_enter roles g
  have hlt : w.frames < (w.enter roles g).frames := Nat.lt_succ_self _
  refine ⟨fun {n d} hd => ?_, fun {n} hn hg => ?_⟩
  · by_cases ho : d.id ∈ own
    · obtain ⟨hslot, hrole⟩ := h.here hd ho
      rw [hown hd ho]
      refine .here hpos hlt ?_
      rw [World.enter_host]
      rwa [LoweringPlan.role, hslot] at hrole
    · refine .up hpos hlt ?_ ?_
      · rw [World.enter_host]
        exact h.outer hd ho
      · rw [World.enter_parent]
        exact (hout hd ho).mono hle
  · refine .up hpos hlt ?_ ?_
    · rw [World.enter_host]
      exact h.global hn hg
    · rw [World.enter_parent]
      exact (hglobal hn hg).mono hle

namespace Regional.World

variable {w : World} {p : LoweringPlan} {fn : FunctionDef Mark} {globals : List Name} {r : Region}
  {sc : ScopeId} {f : FrameId} {env : Env} {roles : Roles}

/-- The names in the code of a function. -/
theorem stands_function (hp : p.Sound fn globals) {id : ScopeId}
    (hhosts : p.Hosts r id (p.analysis.scoping.bindingIdsOf id) roles) (hpos : 0 < w.frames)
    (hknown : ∀ {n d}, p.analysis.scoping.lookup? id n = some d → d.scope ≠ id →
      w.At f (p.nameOf r d.id) (env d.id))
    (hglobal : ∀ {n}, p.analysis.scoping.lookup? id n = none →
      n ∈ p.analysis.scoping.globalsUsed → w.Sees n f 0) :
    (w.enter roles f).Stands p r id w.frames (env.enter p.analysis.scoping id w.frames) := by
  have hmem : ∀ {n d}, p.analysis.scoping.lookup? id n = some d →
      (d.id ∈ p.analysis.scoping.bindingIdsOf id ↔ d.scope = id) := fun hd =>
    hp.analysed.id_mem_bindingIdsOf (hp.analysed.consistent.of_lookup? hd).1
  refine hhosts.stands hpos (fun hd ho => if_pos ho) (fun {n d} hd ho => ?_) hglobal
  rw [show env.enter p.analysis.scoping id w.frames d.id = env d.id from if_neg ho]
  exact hknown hd fun hs => ho ((hmem hd).2 hs)

/-- The names in the wrapper of a block. -/
theorem Stands.wrappedBlock (h : w.Stands p r sc f env) (hp : p.Sound fn globals) {b : Block Mark}
    (ho : p.analysis.scoping.OpensBlock b sc) (hne : b.lexicals ≠ [])
    (hhosts : p.Hosts (r.wrapper []) b.mark.id (p.analysis.scoping.bindingIdsOf b.mark.id) roles)
    (hpos : 0 < w.frames) : (w.enter roles f).Stands p (r.wrapper []) b.mark.id w.frames
      (env.enter p.analysis.scoping b.mark.id w.frames) := by
  have hcons := hp.analysed.consistent
  have hopens := (ho.scope hne).2
  exact stands_function hp hhosts hpos
    (fun hd hs => h.known ((hcons.of_lookup?_inner hopens hd).resolve_left hs))
    fun hn hg => h.global (hcons.lookup?_outer hopens hn) hg

/-- The names in the wrapper of a loop: those of the body and the parameters are its own. -/
theorem Stands.wrappedBody {m b : Mark} {hd : Header Mark} {ss : List (Stmt Mark)}
    {drivers : List (BindingId × Name)}
    (h : w.Stands p (r.loopHeader drivers) (hd.scopeIn m.id sc) f env) (hp : p.Sound fn globals)
    (hb : p.analysis.scoping.OpensBlock (.mk b ss) (hd.scopeIn m.id sc)) {own : List BindingId}
    (hown : own = (if (Block.mk b ss).lexicals.isEmpty then []
      else p.analysis.scoping.bindingIdsOf b.id) ++ drivers.map (·.1))
    (hhosts : p.Hosts (p.loopRegion r m drivers) ((Block.mk b ss).scopeIn (hd.scopeIn m.id sc)) own
      roles) (hpos : 0 < w.frames) :
    (w.enter roles f).Stands p (p.loopRegion r m drivers)
      ((Block.mk b ss).scopeIn (hd.scopeIn m.id sc)) w.frames
      ((env.params (drivers.map (·.1)) w.frames).block p.analysis.scoping (.mk b ss) w.frames) := by
  have hcons := hp.analysed.consistent
  subst hown
  have hparam : ∀ {i}, i ∈ drivers.map (·.1) →
      env.params (drivers.map (·.1)) w.frames i = ⟨w.frames, .binding i⟩ := fun hi => if_pos hi
  -- what is no parameter has the name and the place that it has in the header
  have hother : ∀ {d : Binding}, d.id ∉ drivers.map (·.1) →
      p.nameOf (p.loopRegion r m drivers) d.id = p.nameOf (r.loopHeader drivers) d.id ∧
        env.params (drivers.map (·.1)) w.frames d.id = env d.id := fun {d} hi => by
    refine ⟨?_, if_neg hi⟩
    rw [LoweringPlan.nameOf, LoweringPlan.nameOf, Region.loopHeader,
      Table.lookup_append_of_none (Table.lookup_eq_none.2 hi)]
    rfl
  by_cases hne : (Block.mk b ss).lexicals = []
  · rw [Block.scopeIn_of_nil hne] at hhosts ⊢
    have henv : (env.params (drivers.map (·.1)) w.frames).block p.analysis.scoping (.mk b ss)
        w.frames = env.params (drivers.map (·.1)) w.frames := by simp [Env.block, hne]
    rw [henv]
    simp only [hne, List.isEmpty_nil, if_true, List.nil_append] at hhosts
    refine hhosts.stands hpos (fun hn ho => hparam ho) (fun hn ho => ?_) h.global
    obtain ⟨hname, hplace⟩ := hother ho
    rw [hname, hplace]
    exact h.known hn
  · have hopens := (hb.scope hne).2
    rw [show (Block.mk b ss).scopeIn (hd.scopeIn m.id sc) = b.id from
      Block.scopeIn_of_ne_nil hne] at hhosts ⊢
    have henv : (env.params (drivers.map (·.1)) w.frames).block p.analysis.scoping (.mk b ss)
        w.frames = (env.params (drivers.map (·.1)) w.frames).enter p.analysis.scoping b.id
          w.frames := by simp [Env.block, hne, Block.mark]
    rw [henv]
    rw [if_neg (by simpa using hne)] at hhosts
    refine hhosts.stands hpos (fun {n d} hn ho => ?_) (fun {n d} hn ho => ?_)
      fun hn hg => h.global (hcons.lookup?_outer hopens hn) hg
    · by_cases hm : d.id ∈ p.analysis.scoping.bindingIdsOf b.id
      · exact if_pos hm
      · exact (if_neg hm).trans (hparam ((List.mem_append.1 ho).resolve_left hm))
    · rw [List.mem_append, not_or] at ho
      obtain ⟨hname, hplace⟩ := hother ho.2
      rw [show (env.params (drivers.map (·.1)) w.frames).enter p.analysis.scoping b.id w.frames d.id
        = env.params (drivers.map (·.1)) w.frames d.id from if_neg ho.1, hname, hplace]
      refine h.known ((hcons.of_lookup?_inner hopens hn).resolve_left fun hs => ho.1 ?_)
      exact (hp.analysed.id_mem_bindingIdsOf (hcons.of_lookup? hn).1).2 hs

end Regional.World

end FlatScope
