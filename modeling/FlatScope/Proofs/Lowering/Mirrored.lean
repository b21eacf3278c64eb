import FlatScope.Proofs.Lowering.Allotted

/-!
# Names in lowered code mean what they stand for

A function in lowered code *mirrors* a scope of the source (`LoweringPlan.Mirrors`) if in it the
name of a variable means the variable, for every binding that is known in the scope, and a name that
is from outside of the source means nothing. The code of a function or wrapper is mirrored because
its variables host it (`LoweringPlan.Hosts.mirrors`). The scopes of blocks and loops without
wrappers are mirrored where the block or loop is.
-/

namespace FlatScope

open Node

/-- A name of a function means the variable. -/
theorem Reading.Binds.shows {R : Reading} {sc : ScopeId} {x : Name} {ρ : Role}
    (h : R.Binds sc x ρ) : ∃ b, R.scoping.lookup? sc x = some b ∧ R.role b.id = ρ := by
  obtain ⟨b, hb, -, hρ⟩ := h
  exact ⟨b, hb, hρ⟩

namespace LoweringPlan

/-- A function in the lowered code mirrors a scope. -/
structure Mirrors (p : LoweringPlan) (R : Reading) (r : Region) (sc f : ScopeId) : Prop where
  known : ∀ {n b}, p.analysis.scoping.lookup? sc n = some b →
    ∃ d, R.scoping.lookup? f (p.nameOf r b.id) = some d ∧ R.role d.id = .holds (r.slot b.id)
  global : ∀ {n}, p.analysis.scoping.lookup? sc n = none →
    n ∈ p.analysis.scoping.globalsUsed → R.scoping.lookup? f n = none

variable {p : LoweringPlan} {fn : FunctionDef Mark} {globals : List Name} {R : Reading} {r : Region}
  {sc f : ScopeId} {roles : Roles}

/-- The variables of a function or wrapper are those that its scope declares. -/
theorem Hosts.stores {own : List BindingId} (h : p.Hosts r sc own roles) {a : Scoping}
    (ha : a.Consistent) {id : ScopeId} {ps : List Name} {b : Block Mark} {parent : Option ScopeId}
    (ho : a.OpensFunction id ps b parent) (hb : b.IsFlat)
    (hroles : ∀ x, x ∈ roles.names ↔ x ∈ ps ∨ x ∈ b.vars.map (·.1)) :
    p.Stores a (id, roles) where
  names x := by
    obtain ⟨s, hs, -, -, hnames⟩ := ho.scope
    rw [← Scoping.mem_names_iff ha hs, hnames, hroles, hb.lexicals]
    simp
  coherent := h.coherent
  injective := h.injective
  made := h.made

/-- A function or wrapper whose variables host its code mirrors the scope of the code. -/
theorem Hosts.mirrors {own : List BindingId} (h : p.Hosts r sc own roles)
    (hR : R.scoping.Consistent) {id : ScopeId} {kind : ScopeKind} {parent : Option ScopeId}
    {names : List Name → Prop} (ho : R.scoping.Opens id kind parent names)
    (hs : p.Stores R.scoping (id, roles)) (hroles : ∀ x ∈ roles, R.Binds id x.1 x.2)
    (hout : ∀ {n b}, p.analysis.scoping.lookup? sc n = some b → b.id ∉ own →
      ∃ f, parent = some f ∧ ∃ d, R.scoping.lookup? f (p.nameOf r b.id) = some d ∧
        R.role d.id = .holds (r.slot b.id))
    (hglobal : ∀ {n}, p.analysis.scoping.lookup? sc n = none →
      n ∈ p.analysis.scoping.globalsUsed → ∀ f, parent = some f → R.scoping.lookup? f n = none) :
    p.Mirrors R r sc id where
  known {n b} hb := by
    by_cases hown : b.id ∈ own
    · exact (hroles _ (h.here hb hown).2).shows
    · obtain ⟨f, rfl, hd⟩ := hout hb hown
      rwa [Scoping.lookup?_around hR ho fun hx => h.outer hb hown ((hs.names _).2 hx)]
  global {n} hn hg := by
    rw [Scoping.lookup?_around hR ho fun hx => h.global hn hg ((hs.names _).2 hx)]
    cases parent with
    | none => rfl
    | some f => exact hglobal hn hg f rfl

namespace Mirrors

/-- The use of a name, and its image. -/
theorem use (h : p.Mirrors R r sc f) {i j : NodeId} {n : Name} {w w' : Bool}
    (hi : p.analysis.scoping.Refers globals sc i n w)
    (hj : R.scoping.Refers globals f j (p.refName r i n) w') : p.ImagesUse R r i j := by
  obtain ⟨u, hu, -, -, -, hub, hglobal⟩ := hi
  obtain ⟨v, hv, -, -, -, hvb, -⟩ := hj
  rw [refName, hu, Option.bind_some, hub] at hvb
  refine ⟨u, hu, fun b hb => ?_, fun hb => ?_⟩
  · obtain ⟨d, hd, rfl⟩ := Option.map_eq_some_iff.1 (hub.symm.trans hb)
    obtain ⟨e, he, hrole⟩ := h.known hd
    rw [hd] at hvb
    exact ⟨v, e.id, hv, by rw [hvb]; simp [he], hrole⟩
  · have hnone := Option.map_eq_none_iff.1 (hub.symm.trans hb)
    rw [hnone] at hvb
    exact ⟨v, hv, by rw [hvb]; simp [h.global hnone (hglobal hnone).2]⟩

/-- The variable of a binding, where it is declared. -/
theorem declares (h : p.Mirrors R r sc f) {n : Name} {b : Binding}
    (hb : p.analysis.scoping.lookup? sc n = some b) {j : NodeId} {k : DeclKind} {fs : ScopeId}
    (hj : R.scoping.Declares fs f j (p.nameOf r b.id) k) :
    R.Declares j (.holds (r.slot b.id)) := by
  obtain ⟨d, hd, hdl, -⟩ := hj
  obtain ⟨e, he, hrole⟩ := h.known hb
  obtain rfl := Option.some.inj (hdl.symm.trans he)
  exact ⟨d, hd, hrole⟩

/-- The variable of a binding, where it is assigned. -/
theorem refers (h : p.Mirrors R r sc f) {n : Name} {b : Binding}
    (hb : p.analysis.scoping.lookup? sc n = some b) {j : NodeId} {w : Bool}
    (hj : R.scoping.Refers globals f j (p.nameOf r b.id) w) :
    R.Refers j (.holds (r.slot b.id)) := by
  obtain ⟨u, hu, -, -, -, hub, -⟩ := hj
  obtain ⟨d, hd, hrole⟩ := h.known hb
  exact ⟨u, d.id, hu, by rw [hub, hd]; rfl, hrole⟩

theorem loopBody (h : p.Mirrors R r sc f) : p.Mirrors R r.loopBody sc f := ⟨h.known, h.global⟩

/-- A block without a wrapper. -/
theorem block (h : p.Mirrors R r sc f) (hp : p.Sound fn globals) {b : Block Mark}
    (ho : p.analysis.scoping.OpensBlock b sc) {out : List (Stmt Span)}
    (hlow : p.LowersStmts r (b.scopeIn sc) b.statements out roles)
    (hroles : ∀ x ∈ roles, R.Binds f x.1 x.2) : p.Mirrors R r (b.scopeIn sc) f := by
  by_cases hne : b.lexicals = []
  · rwa [Block.scopeIn_of_nil hne]
  · rw [Block.scopeIn_of_ne_nil hne] at hlow ⊢
    have hcons := hp.analysed.consistent
    refine ⟨fun {n d} hd => ?_, fun hn => h.global (hcons.lookup?_outer (ho.scope hne).2 hn)⟩
    rcases hcons.of_lookup?_inner (ho.scope hne).2 hd with hs | hd'
    · obtain ⟨-, hrole⟩ := role_of_block hp ho hne hlow (hcons.of_lookup? hd).1 hs
      exact (hroles _ hrole).shows
    · exact h.known hd'

/-- The region of the header of a loop with a wrapper. -/
theorem loopHeader (h : p.Mirrors R r sc f) {drivers : List (BindingId × Name)}
    (hdrivers : ∀ d ∈ drivers, R.Binds f d.2 (.holds (.driver d.1))) :
    p.Mirrors R (r.loopHeader drivers) sc f := by
  refine ⟨fun {n d} hn => ?_, h.global⟩
  cases hl : drivers.lookup d.id with
  | some y =>
    have hl' : (r.loopHeader drivers).drivers.lookup d.id = some y :=
      Table.lookup_append_of_some hl
    rw [nameOf, Region.slot, hl']
    exact (hdrivers _ (Table.mem_of_lookup hl)).shows
  | none =>
    have hl' : (r.loopHeader drivers).drivers.lookup d.id = r.drivers.lookup d.id :=
      Table.lookup_append_of_none hl
    rw [nameOf, Region.slot, hl']
    exact h.known hn

/-- The clauses of the header of a loop. -/
theorem header (h : p.Mirrors R r sc f) (hp : p.Sound fn globals) {loop : NodeId} {hd : Header Mark}
    (ho : p.analysis.scoping.OpensLoop loop hd sc) {hd' : Header Span}
    (hlow : p.LowersHeader r (hd.scopeIn loop sc) hd hd' roles)
    (hroles : ∀ x ∈ roles, R.Binds f x.1 x.2) : p.Mirrors R r (hd.scopeIn loop sc) f := by
  have hcons := hp.analysed.consistent
  cases hlex : Resolve.headerLexical? hd with
  | none => rwa [show hd.scopeIn loop sc = sc by simp [Header.scopeIn, hlex]]
  | some l =>
    rw [show hd.scopeIn loop sc = loop by simp [Header.scopeIn, hlex]]
    refine ⟨fun {n d} hn => ?_, fun hn => h.global (hcons.lookup?_outer (ho l hlex).1 hn)⟩
    rcases hcons.of_lookup?_inner (ho l hlex).1 hn with hs | hn'
    · obtain ⟨e, hem, hedecl, -, hes, heo, hids⟩ := hp.analysed.of_header ho hlex
      have hmem := hcons.mem_bindingIdsOf.2 ⟨d, (hcons.of_lookup? hn).1, rfl, hs⟩
      rw [hids, List.mem_singleton] at hmem
      obtain rfl := hp.analysed.eq_of_id (hcons.of_lookup? hn).1 hem hmem
      obtain ⟨g, hg, hrole⟩ := role_of_header hlow hlex
      obtain rfl := Option.some.inj (hedecl.symm.trans hg)
      exact (hroles _ (hrole (Origin.not_functionScoped (congrArg Origin.kind? heo)
        (Resolve.headerLexical?_kind hlex)))).shows
    · exact h.known hn'

/-- The code of the wrapper of a loop. -/
theorem wrappedBody {m b : Mark} {hd : Header Mark} {drivers : List (BindingId × Name)}
    (h : p.Mirrors R (r.loopHeader drivers) (hd.scopeIn m.id sc) f) (hp : p.Sound fn globals)
    {ss : List (Stmt Mark)} (hin : .stmt (.loop m hd (.mk b ss)) ∈ fn.nodes)
    (hl : p.analysis.scoping.HasLoop m.id hd (.mk b ss) sc)
    (hb : p.analysis.scoping.OpensBlock (.mk b ss) (hd.scopeIn m.id sc)) {w : Wrapper}
    (hw : (p.loopPlan m.id).wrapper = some w)
    (hkeys : drivers.map (·.1) = (p.loopPlan m.id).fresh)
    (hhosts : p.Hosts (p.loopRegion r m drivers) ((Block.mk b ss).scopeIn (hd.scopeIn m.id sc))
      (w.locals ++ w.params) roles)
    (hR : R.scoping.Consistent) {id : ScopeId} {kind : ScopeKind} {names : List Name → Prop}
    (ho : R.scoping.Opens id kind (some f) names) (hs : p.Stores R.scoping (id, roles))
    (hroles : ∀ x ∈ roles, R.Binds id x.1 x.2) :
    p.Mirrors R (p.loopRegion r m drivers) ((Block.mk b ss).scopeIn (hd.scopeIn m.id sc)) id := by
  have hcons := hp.analysed.consistent
  obtain ⟨hfresh, hparams, hlocals, -⟩ := hp.of_wrappedLoop hin hl hw
  refine hhosts.mirrors hR ho hs hroles (fun {n d} hn hown => ⟨f, rfl, ?_⟩)
    fun {n} hn hg g hfg => ?_
  · obtain ⟨hout, hnone⟩ := hp.known_outside hin hl hb hw hkeys hn hown
    have hl' : (r.loopHeader drivers).drivers.lookup d.id = r.drivers.lookup d.id :=
      Table.lookup_append_of_none hnone
    have hknown := h.known hout
    rwa [nameOf, Region.slot, hl'] at hknown
  · cases hfg
    exact h.global (hp.unknown_outside hb hn) hg

end Mirrors

end LoweringPlan

end FlatScope
