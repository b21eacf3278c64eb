import FlatScope.Proofs.Lowering.ImagedCode
import FlatScope.Proofs.Lowering.Lower
import FlatScope.Proofs.Scope.Flat
import FlatScope.Proofs.Scope.Performed
import FlatScope.Proofs.Scope.Total

/-!
# Lowering captures nothing and merges nothing

What an accepted function is lowered to is accepted again, and each of its variables is for one
binding of the source, or for none if the lowering made it up. Two variables are never for the same
thing, and every use of a name in the source has its image in the lowered code, where it means the
variable for what it meant (`FunctionDef.lower_hygienic`).

The functions of the lowered code and their variables are listed in an `Allotment`. The lowered code
is flat, so its scopes are those of functions, and the list has them all
(`FunctionDef.IsFlat.function_of_scope`). So it says of every variable what it is for.
-/

namespace FlatScope

open Node

/-- The functions among nodes have the numbers of nodes, in order. -/
theorem Node.functions_sublist (ns : List (Node Mark)) :
    ((functions ns).map (·.id)).Sublist (ids ns) := by
  induction ns with
  | nil => exact .slnil
  | cons x ns ih =>
    rw [functions_cons, ids_cons, List.map_append]
    cases hx : x.function? with
    | none => exact ih.cons _
    | some m =>
      obtain ⟨ps, b, rfl⟩ : ∃ ps b, x = .expr (.function m ps b) := by
        unfold function? at hx
        split at hx
        · cases hx
          exact ⟨_, _, rfl⟩
        · cases hx
      exact ih.cons_cons m.id

/-- The scopes of flat code are those of functions. -/
theorem FunctionDef.IsFlat.function_of_scope {fn : FunctionDef Mark} (hflat : fn.IsFlat) {m : Nat}
    (hn : Consecutive fn.mark.id fn.nodes m) {globals : List Name} {a : Scoping}
    (h : fn.resolve globals = .ok a) {s : Scope} (hs : s ∈ a.scopes) :
    ∃ k ∈ fn.mark :: functions fn.body.nodes, k.id = s.id := by
  obtain ⟨hrec, -⟩ := FunctionDef.resolve_records hn h
  obtain ⟨f, p, hf, hfs⟩ := hrec.scopes s hs
  obtain ⟨q, hq, hopens, -⟩ := FunctionDef.opens_mem_acts.1 hf
  have hproper := hq.proper (Place.proper_under ..)
  have hkind := hfs.kind.symm.trans ((FunctionDef.resolve_flat hflat h).1.functions s hs)
  have hid := hfs.id.trans (hproper.id hopens)
  rcases Node.enclosure?_function (hproper.enclosure? hopens) hkind with
    ⟨k, ps, b, hnode⟩ | ⟨g, hnode⟩
  · refine ⟨k, List.mem_cons_of_mem _ ?_, by rw [hid, hnode]; rfl⟩
    have hmem := hq.mem_nodes rfl
    rw [hnode] at hmem
    rcases List.mem_cons.1 hmem with he | hmem
    · cases he
    · exact List.mem_filterMap.2 ⟨_, hmem, rfl⟩
  · obtain rfl := hq.eq_of_function hnode
    exact ⟨fn.mark, List.mem_cons_self, hid.symm⟩

namespace LoweringPlan

variable {p : LoweringPlan} {fn : FunctionDef Mark} {globals : List Name} {a : Scoping}
  {O : Nat → Prop} {n m : Nat} {ρ : Roles} {fs : List Mark} {T : Allotment}

namespace Allotment

/-- What a variable is for. -/
def role (T : Allotment) (a : Scoping) (i : BindingId) : Role :=
  ((do let d ← a.binding? i; (← T.lookup d.scope).lookup d.name) : Option Role).getD .signal

end Allotment

namespace Allots

/-- The variables of the functions in the list have their roles. -/
theorem binds (h : p.Allots fn a O n m ρ fs T) (ha : a.Consistent) (hT : (T.map (·.1)).Nodup)
    {e : ScopeId × Roles} (he : e ∈ T) {x : Name × Role} (hx : x ∈ e.2) :
    Reading.Binds ⟨a, T.role a⟩ e.1 x.1 x.2 := by
  have hstores := h.stores e he
  obtain ⟨d, hd, hds⟩ := (hstores.names x.1).1 (Roles.mem_names hx)
  obtain ⟨hdm, hdn, -⟩ := ha.of_lookup? hd
  obtain ⟨τ, hτ⟩ := Table.exists_lookup.2 (Roles.mem_names hx)
  refine ⟨d, hd, hds, ?_⟩
  have hrole : T.role a d.id = τ := by
    have hlookup := Table.lookup_of_mem hT he
    simp [Allotment.role, ha.binding?_of_mem hdm, hds, hdn, hlookup, hτ]
  exact hrole.trans (hstores.coherent (Table.mem_of_lookup hτ) hx)

/-- If the list has all functions, it has all variables. -/
theorem exists_role (h : p.Allots fn a O n m ρ fs T) (ha : a.Consistent)
    (hT : (T.map (·.1)).Nodup) (hall : ∀ s ∈ a.scopes, ∃ k ∈ fs, k.id = s.id) {d : Binding}
    (hd : d ∈ a.bindings) : ∃ e ∈ T, e.1 = d.scope ∧ (d.name, T.role a d.id) ∈ e.2 := by
  obtain ⟨s, hs, hsd, -⟩ := ha.listed d hd
  obtain ⟨k, hk, hks⟩ := hall s hs
  have hmem : d.scope ∈ T.map (·.1) :=
    h.keys.mem_iff.2 (List.mem_map.2 ⟨k, hk, hks.trans hsd⟩)
  obtain ⟨e, he, hes⟩ := List.mem_map.1 hmem
  have hlook := ha.lookup?_own hd
  obtain ⟨σ, hσ⟩ := Roles.exists_of_mem_names
    (((h.stores e he).names d.name).2 ⟨d, hes ▸ hlook, hes.symm⟩)
  obtain ⟨c, hc, -, hrole⟩ := h.binds ha hT he hσ
  obtain rfl : d = c := Option.some.inj (hlook.symm.trans (hes ▸ hc))
  exact ⟨e, he, hes, (show T.role a d.id = σ from hrole) ▸ hσ⟩

/-- Two variables never hold the same. -/
theorem injective (h : p.Allots fn a O n m ρ fs T) (ha : a.Consistent) (hT : (T.map (·.1)).Nodup)
    (hall : ∀ s ∈ a.scopes, ∃ k ∈ fs, k.id = s.id) {d c : Binding} (hd : d ∈ a.bindings)
    (hc : c ∈ a.bindings) {s : Slot} (hds : T.role a d.id = .holds s)
    (hcs : T.role a c.id = .holds s) : d = c := by
  obtain ⟨e, he, hed, hdr⟩ := h.exists_role ha hT hall hd
  obtain ⟨f, hf, hfc, hcr⟩ := h.exists_role ha hT hall hc
  rw [hds] at hdr
  rw [hcs] at hcr
  by_cases hef : e = f
  · subst hef
    exact ha.eq_of_name hd hc ((h.stores e he).injective hdr hcr) (hed.symm.trans hfc)
  · have : Std.Symm fun x y : ScopeId × Roles => Roles.Apart x.2 y.2 :=
      ⟨fun _ _ hxy _ _ _ hy hx => hxy hx hy⟩
    exact absurd hcr (h.apart.forall he hf hef hdr)

end Allots

/-- What is true of a variable for its role: what it holds is a binding; what it drives is one of
    which every iteration of a loop has its own; else it is called as what it is made up for. What
    does not hold a binding has a name that the source does not use. -/
def IsVariable (p : LoweringPlan) (fn : FunctionDef Mark) (x : Name) : Role → Prop
  | .holds (.binding b) => ∃ d ∈ p.analysis.scoping.bindings, d.id = b
  | .holds (.driver b) => x ∉ p.naming.supply.taken ∧
    (∃ d ∈ p.analysis.scoping.bindings, d.id = b) ∧
    ∃ m h c, .stmt (.loop m h c) ∈ fn.nodes ∧ b ∈ (p.loopPlan m.id).fresh
  | .signal => x ∉ p.naming.supply.taken ∧ ∃ k, x = NameSupply.numbered "$sig" k
  | .wrapper .. => x ∉ p.naming.supply.taken ∧ ∃ k, x = NameSupply.numbered "$loop" k

/-- What a lowered function makes of the names of the source. -/
structure Hygienic (p : LoweringPlan) (fn : FunctionDef Mark) (R : Reading) (q : FunctionDef Mark) :
    Prop where
  /-- A variable is for one thing. -/
  roles : ∀ d ∈ R.scoping.bindings, p.IsVariable fn d.name (R.role d.id)
  /-- Two variables never hold the same. -/
  injective : ∀ d ∈ R.scoping.bindings, ∀ e ∈ R.scoping.bindings, ∀ s,
    R.role d.id = .holds s → R.role e.id = .holds s → d = e
  /-- Names have their images, which mean the variables for what the names mean. -/
  images : p.ImagesFunction R fn q

/-- If the list has all functions, what it says of a variable is true. -/
theorem Allots.isVariable (h : p.Allots fn a O n m ρ fs T) (ha : a.Consistent)
    (hT : (T.map (·.1)).Nodup) (hall : ∀ s ∈ a.scopes, ∃ k ∈ fs, k.id = s.id) {d : Binding}
    (hd : d ∈ a.bindings) : p.IsVariable fn d.name (T.role a d.id) := by
  obtain ⟨e, he, -, hrole⟩ := h.exists_role ha hT hall hd
  have hmade := (h.stores e he).made hrole
  generalize T.role a d.id = σ at hrole hmade
  match σ with
  | .holds (.binding b) =>
    obtain ⟨sc, ⟨c, hc, hcb, -⟩, -⟩ := h.inner e he hrole
    exact ⟨c, hc, hcb⟩
  | .holds (.driver b) =>
    obtain ⟨sc, ⟨⟨c, hc, hcb, -⟩, hfresh⟩, -⟩ := h.inner e he hrole
    exact ⟨(hmade (by simp)).1, ⟨c, hc, hcb⟩, hfresh⟩
  | .signal | .wrapper .. =>
    obtain ⟨hn, -, hstem⟩ := hmade (by simp)
    exact ⟨hn, hstem _ rfl⟩

/-- A lowered function whose names are resolved. -/
theorem LowersFunction.hygienic (hp : p.Sound fn globals) {q : FunctionDef Mark}
    (hlow : p.LowersFunction fn (q.map Mark.span)) {k : Nat}
    (hn : Consecutive q.mark.id q.nodes k) (hs : q.resolve globals = .ok a) :
    ∃ role, p.Hygienic fn ⟨a, role⟩ q := by
  obtain ⟨hflat, hw⟩ := hlow.wellScoped hp
  have hflatQ : q.IsFlat := (Block.isFlat_map Mark.span q.body).1 hflat
  obtain ⟨ha, hopens, hres⟩ := FunctionDef.resolve_resolved
    (FunctionDef.resolve_flat hflatQ hs).2 hn hs
  -- the output has function scopes only, one for each of its function nodes
  have hall := fun s => hflatQ.function_of_scope hn hs (s := s)
  rw [Block.nodes_eq_cons, functions_cons] at hall
  obtain ⟨hoisted, out, roles, hss, hhosts, hq⟩ := hlow
  obtain ⟨i, name, ps, c, code⟩ := q
  simp only [FunctionDef.map, Block.map, FunctionDef.mk.injEq, Block.mk.injEq] at hq
  obtain ⟨-, rfl, rfl, -, hcode⟩ := hq
  -- its code is the hoisted declarations and then the lowered statements
  obtain ⟨top, body, rfl, htop, rfl⟩ := Stmt.of_mapList_append hcode
  obtain ⟨mark, name, ps, b, ss⟩ := fn
  have hsrc : Stmt.AreSource ss := hp.analysed.source
  have hcons := hp.analysed.consistent
  obtain ⟨n, hc⟩ := hp.analysed.numbered
  obtain ⟨-, -, hc⟩ := hc.of_cons
  obtain ⟨-, -, hc⟩ := hc.of_cons
  obtain ⟨T, hT, hread⟩ := HostsFunction.images hp ha (O := fun _ => False) (Q := fun _ => True)
    hhosts hp.analysed.opens hopens htop (LowersStmts.flat hsrc hss) hc.le
    (LowersStmts.images hp ha _ (l := false) hsrc hp.analysed.resolved hc
      (fun y hy => List.mem_cons_of_mem _ (List.mem_cons_of_mem _ hy)) (fun b hb => by cases hb)
      (Nat.lt_add_of_pos_right Nat.two_pos) (Nat.lt_add_of_pos_right Nat.two_pos) hss
      (Scoping.resolvedStmts_append.1 hres).2)
    fun R _ _ => ⟨fun x d hd hown =>
      absurd (hcons.mem_bindingIdsOf.2 ⟨d, (hcons.of_lookup? hd).1, rfl,
        hcons.of_lookup?_outermost hp.analysed.opens.scope hd⟩) hown,
      fun _ _ _ f hf => by cases hf⟩
  -- the table of roles is keyed by function nodes, and no two of them share an id
  have hkeys : (T.map (·.1)).Nodup := by
    refine hT.keys.nodup_iff.2 (List.Nodup.sublist ?_ hn.nodup)
    exact ((functions_sublist _).cons _).cons_cons i.id
  refine ⟨T.role a, fun d hd => hT.isVariable ha hkeys hall hd,
    fun d hd e he s => hT.injective ha hkeys hall hd he, ?_⟩
  obtain ⟨hroles, himages⟩ := hread _ (fun e he x hx => hT.binds ha hkeys he hx) trivial
  exact ⟨hoisted, top, body, htop, hroles, himages, rfl, rfl, rfl⟩

end LoweringPlan

/-- A function that is accepted is lowered to one that is accepted, and which keeps what the names
    of the source mean. -/
theorem FunctionDef.lower_hygienic {fn : FunctionDef Span} (hsrc : fn.IsSource)
    {globals : List Name} {hoisting : Bool} {a : Analysis}
    (h : fn.number.analyse globals hoisting = .ok a) : ∃ q b role, fn.number.lower a = .ok q ∧
    q.number.analyse globals hoisting = .ok b ∧
      LoweringPlan.Hygienic ⟨a, .ofAnalysis a⟩ fn.number ⟨b.scoping, role⟩ q.number := by
  have ha := FunctionDef.analyse_analysed (fn.shaped_number.2 hsrc) (fn.numberFrom_consecutive 1) h
  have hp : LoweringPlan.Sound ⟨a, .ofAnalysis a⟩ fn.number globals := ⟨ha, rfl⟩
  obtain ⟨q, hq, hlow⟩ := ha.lower_lowers
  obtain ⟨hflat, hw⟩ := hlow.wellScoped hp
  have hn := q.numberFrom_consecutive 1
  obtain ⟨s, hs, hc⟩ := FunctionDef.resolve_total (q.shaped_number.2 (hflat.shaped hw)) hn
    (q.wellScoped_number.2 hw)
  rw [← q.number_map] at hlow
  obtain ⟨role, hrole⟩ := hlow.hygienic hp hn hs
  exact ⟨q, _, role, hq, FunctionDef.analyse_eq_ok.2 ⟨s, hs, hc, rfl⟩, hrole⟩

/-- The function `function f(i) { for (let i = 0; i < 3; i = i + 1) { g(function () { return i; });
    } return i; }`, where every iteration of the loop has its own `i`, which is not the
    parameter. -/
def shadowingLoop : FunctionDef Span :=
  let u := Span.unknown
  let i := Expr.name u "i"
  ⟨u, "f", ["i"], .mk u [
    .loop u (.counting u (some (.declaration u "i" .letVar (some (.literal u (.number (.int 0))))))
      (some (.binary u .lt i (.literal u (.number (.int 3)))))
      (some (.assignment u i (.binary u .add i (.literal u (.number (.int 1)))))))
      (.mk u [.expression u (.call u (.name u "g") [.function u [] (.mk u [.ret u (some i)])])]),
    .ret u (some i)]⟩

/-- The theorem for the function in `shadowingLoop`, whose second binding has a driver. -/
theorem FunctionDef.lower_hygienic_shadowingLoop : ∃ a q b role,
    shadowingLoop.number.analyse ["g"] true = .ok a ∧ a.loops.map (·.fresh) = [[2]] ∧
      shadowingLoop.number.lower a = .ok q ∧ q.number.analyse ["g"] true = .ok b ∧
      LoweringPlan.Hygienic ⟨a, .ofAnalysis a⟩ shadowingLoop.number ⟨b.scoping, role⟩ q.number := by
  have hsrc : shadowingLoop.IsSource := by
    simp [shadowingLoop, FunctionDef.Shaped, Block.Shaped, Stmt.ShapedList, Stmt.Shaped,
      Header.Shaped, Expr.Shaped, Expr.ShapedList, Stmt.isInit, Stmt.isUpdate]
  have hloops : (shadowingLoop.number.analyse ["g"] true).map (·.loops.map (·.fresh)) =
      .ok [[2]] := by rfl
  cases ha : shadowingLoop.number.analyse ["g"] true with
  | error e =>
    rw [ha] at hloops
    cases hloops
  | ok a =>
    rw [ha] at hloops
    obtain ⟨q, b, role, h⟩ := FunctionDef.lower_hygienic hsrc ha
    exact ⟨a, q, b, role, rfl, Except.ok.inj hloops, h⟩

end FlatScope
