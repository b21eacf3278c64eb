import FlatScope.Proofs.Lowering.AssignedCode
import FlatScope.Proofs.Lowering.Exits

/-!
# What sets a driver

The wrapper of a `for` that counts writes back to its driver if its body assigns to the binding of
the header (`Sound.mem_writeBack`). Otherwise nothing in the code of the wrapper assigns the
parameter (`code_not_assigns`), and only a function in the header may set the driver apart from the
header itself (`Code.drives`). The variable for the wrapper, if it is made before the loop, is set
to nothing else (`Code.wraps`).
-/

namespace FlatScope

open Node

/-- A node that assigns to a name has the name among its parts. -/
theorem Node.target_mem {x y : Node Mark} {i : NodeId} (hy : y ∈ x.nodes)
    (ht : y.target? = some i) : i ∈ Node.ids x.nodes := by
  have hmem : ∃ z ∈ y.nodes, z.mark.id = i := by
    cases y with
    | stmt s =>
      cases s with
      | assignment m t v =>
        cases t with
        | name k n =>
          cases ht
          exact ⟨.expr (.name k n), by simp [Node.nodes, Stmt.nodes, Expr.nodes], rfl⟩
        | _ => cases ht
      | _ => cases ht
    | header h =>
      cases h with
      | forOf m n k e =>
        cases k with
        | none =>
          cases ht
          exact ⟨.header (.forOf m n none e), by simp [Node.nodes, Header.nodes], rfl⟩
        | some k => cases ht
      | _ => cases ht
    | _ => cases ht
  obtain ⟨z, hz, rfl⟩ := hmem
  exact List.mem_map_of_mem ((nodes_sublist hy).subset hz)

namespace Scoping

/-- Nodes use a binding. -/
def UsedIn (a : Scoping) (b : BindingId) (ns : List (Node Mark)) : Prop :=
  a.WrittenIn b ns ∨
    ∃ m n, .expr (.name m n) ∈ ns ∧ (a.referenceAt? m.id).bind (·.binding) = some b

/-- A function among the nodes uses a binding. -/
def ClosesOver (a : Scoping) (ns : List (Node Mark)) (b : BindingId) : Prop :=
  ∃ m ps c, .expr (.function m ps c) ∈ ns ∧ a.UsedIn b c.nodes

/-- What a node assigns to is recorded as assigned to. -/
theorem Noted.target {a : Scoping} {y : Node Mark} (h : a.Noted y) {i : NodeId}
    (ht : y.target? = some i) : ∃ r ∈ a.references, r.node = i ∧ r.isWrite ∧
      a.referenceAt? i = some r := by
  have hrefers : ∀ {gs sc n}, a.Refers gs sc i n true →
      ∃ r ∈ a.references, r.node = i ∧ r.isWrite ∧ a.referenceAt? i = some r := by
    rintro gs sc n ⟨r, hr, -, -, hw, -⟩
    exact ⟨r, List.mem_of_find?_eq_some hr, by simpa using List.find?_some hr, hw, hr⟩
  cases y with
  | stmt s =>
    cases s with
    | assignment m t v =>
      cases t with
      | name k n =>
        cases ht
        obtain ⟨gs, sc, h⟩ := h
        exact hrefers h
      | _ => cases ht
    | _ => cases ht
  | header hd =>
    cases hd with
    | forOf m n k e =>
      cases k with
      | none =>
        cases ht
        obtain ⟨gs, sc, h⟩ := h
        exact hrefers h
      | some k => cases ht
    | _ => cases ht
  | _ => cases ht

end Scoping

/-- A `for` that counts writes the binding of its header back if its body assigns to it. -/
theorem FunctionDef.Analysed.mem_writeBackOf {fn : FunctionDef Mark} {globals : List Name}
    {a : Analysis} (h : fn.Analysed globals a) {m : Mark} {hd : Header Mark} {b : Block Mark}
    (hx : .stmt (.loop m hd b) ∈ fn.nodes) (hc : Scoping.isCounting hd) {i : BindingId}
    (hi : i ∈ a.scoping.freshOf m.id hd) (hw : a.scoping.WrittenIn i b.nodes) :
    i ∈ a.scoping.writeBackOf m.id hd b := by
  rw [Scoping.writeBackOf, if_pos hc]
  obtain ⟨y, hy, k, ht, hk⟩ := hw
  have hyx : y ∈ (Node.stmt (.loop m hd b)).nodes :=
    List.mem_cons_of_mem _ (List.mem_append_right _ hy)
  have hyf : y ∈ fn.nodes := (nodes_sublist (x := .function fn) hx).subset hyx
  obtain ⟨r, hr, rfl, hw, hat⟩ := (h.noted y hyf).target ht
  rw [hat, Option.bind_some] at hk
  refine List.mem_filter.2 ⟨hi, List.any_eq_true.2 ⟨r.node, ?_, ?_⟩⟩
  · exact List.mem_map_of_mem (List.mem_filter.2
      ⟨List.mem_filter.2 ⟨hr, by simp [hk]⟩, hw⟩)
  · rw [List.contains_iff_mem, Block.marks, List.map_map]
    exact target_mem (x := .block b) hy ht

namespace LoweringPlan

variable {p : LoweringPlan} {fn : FunctionDef Mark} {globals : List Name}

/-! ## The binding of a header -/

section Fresh

variable {m : Mark} {hd : Header Mark} {b : Block Mark} {i : BindingId}

/-- The wrapper of a loop has at most one parameter, which is the binding of the header. -/
theorem Sound.of_fresh (hp : p.Sound fn globals) (hx : .stmt (.loop m hd b) ∈ fn.nodes)
    (hi : i ∈ (p.loopPlan m.id).fresh) : (∃ w, (p.loopPlan m.id).wrapper = some w) ∧
      (p.loopPlan m.id).fresh = [i] ∧ p.analysis.scoping.HasScope m.id .loop ∧
      ∃ d ∈ p.analysis.scoping.bindings, d.id = i ∧ d.scope = m.id ∧
        d.origin.isFunctionScoped = false := by
  obtain ⟨sc, hl, ho⟩ := hp.analysed.noted _ hx
  obtain ⟨w, hw⟩ : ∃ w, (p.loopPlan m.id).wrapper = some w := by
    obtain ⟨hoisting, hplan⟩ := hp.analysed.loopPlan? hx
    rw [loopPlan, hplan, Option.getD_some, Scoping.planLoop] at hi ⊢
    split at hi
    · cases hi
    · exact ⟨_, rfl⟩
  obtain ⟨-, hfresh, -⟩ := hp.plan_wrapped hx hl hw
  refine ⟨⟨w, hw⟩, ?_⟩
  rw [hfresh, Scoping.freshOf] at hi ⊢
  cases hlex : Resolve.headerLexical? hd with
  | none =>
    rw [hlex] at hi
    cases hi
  | some l =>
    obtain ⟨d, hdm, -, -, hds, hdo, hids⟩ := hp.analysed.of_header ho hlex
    rw [hlex, Option.isSome_some, if_pos rfl, hids] at hi
    rw [Option.isSome_some, if_pos rfl, hids]
    obtain ⟨hmem, hper⟩ := List.mem_filter.1 hi
    obtain rfl := List.mem_singleton.1 hmem
    exact ⟨by simp [hper], FunctionDef.Analysed.hasScope_of_opens (ho l hlex).1, d, hdm, rfl, hds,
      Origin.not_functionScoped (congrArg Origin.kind? hdo) (Resolve.headerLexical?_kind hlex)⟩

/-- The plan of a `for` that counts has the binding of its header written back if its body assigns
    to it. -/
theorem Sound.mem_writeBack (hp : p.Sound fn globals) (hx : .stmt (.loop m hd b) ∈ fn.nodes)
    (hc : Scoping.isCounting hd) (hi : i ∈ (p.loopPlan m.id).fresh)
    (h : p.analysis.scoping.WrittenIn i b.nodes) : i ∈ (p.loopPlan m.id).writeBack := by
  obtain ⟨sc, hl, -⟩ := hp.analysed.noted _ hx
  obtain ⟨⟨w, hw⟩, -⟩ := hp.of_fresh hx hi
  obtain ⟨-, hfresh, hback⟩ := hp.plan_wrapped hx hl hw
  rw [hfresh] at hi
  rw [hback]
  exact hp.analysed.mem_writeBackOf hx hc hi h

/-- The driver of the binding of a header is set outside of the header only by the wrapper of the
    loop, or by a function in the header. -/
theorem Sound.lendsDriver (hp : p.Sound fn globals) (hx : .stmt (.loop m hd b) ∈ fn.nodes)
    (hi : i ∈ (p.loopPlan m.id).fresh) (h : p.LendsDriver fn i) :
    i ∈ (p.loopPlan m.id).writeBack ∨ p.analysis.scoping.ClosesOver hd.nodes i := by
  obtain ⟨m', hd', b', hx', hi', h⟩ := h
  obtain ⟨-, -, -, d, hd, rfl, hds, hno⟩ := hp.of_fresh hx hi
  obtain ⟨-, -, -, e, he, hed, hes, -⟩ := hp.of_fresh hx' hi'
  obtain rfl := hp.analysed.eq_of_id he hd hed
  cases node_unique hp.analysed.nodup hx hx' (hds.symm.trans hes)
  refine h.imp_right fun ⟨k, ps, c, hk, hin, hg⟩ => ⟨k, ps, c, hk, .inl ?_⟩
  refine hg.resolve_right fun ⟨g, hg, hid, hf⟩ => ?_
  obtain rfl := hp.analysed.eq_of_id hg hd hid
  rw [hno] at hf
  cases hf

end Fresh

/-! ## The code of a function or wrapper -/

/-- The code of a function or wrapper with the given parameters and variables, for which the
    bindings of `ds` have drivers. -/
structure Code (p : LoweringPlan) (fn : FunctionDef Mark) (ps : List Name) (c : Block Span)
    (ds : List (BindingId × Name)) (R : Roles) : Prop where
  flat : c.IsFlat
  declared : ∀ {x}, x ∈ R.names → x ∈ ps ∨ x ∈ c.vars.map (·.1)
  /-- A function in the code sets a driver only if the driver is set outside of its header. -/
  drives : ∀ {x b y}, (x, .holds (.driver b)) ∈ R → ds.lookup b = none → y ∈ c.own → y.Lends x →
    p.LendsDriver fn b
  /-- The variable for a wrapper is set to that wrapper only. -/
  wraps : ∀ {x qs k}, (x, .wrapper qs k) ∈ R → x ∉ ps ∧ (∀ y ∈ c.own, ¬ y.Lends x) ∧
    ∀ y ∈ c.own, ∀ v, y.sets? = some (x, v) → ∃ m, v = some (.function m qs k)

namespace Code

variable {ps : List Name} {c : Block Span} {ds ds' : List (BindingId × Name)} {R ρ : Roles}

/-- More bindings may have drivers. -/
theorem more (h : p.Code fn ps c ds R) (hd : ∀ b, ds'.lookup b = none → ds.lookup b = none) :
    p.Code fn ps c ds' R where
  flat := h.flat
  declared := h.declared
  drives hx hb := h.drives hx (hd _ hb)
  wraps := h.wraps

variable {r : Region} {sc fs : ScopeId} {inLoop : Bool} {own : List BindingId}
  {ss : List (Stmt Mark)} {out : List (Stmt Span)}

/-- The code around lowered statements whose variables are hosted. -/
theorem of_hosts (hp : p.Sound fn globals) (hhosts : p.Hosts r sc own R) (hsub : ∀ z ∈ ρ, z ∈ R)
    (hps : ∀ x ∈ ps, ∃ s, (x, .holds s) ∈ R) (hsrc : Stmt.AreSource ss)
    (hres : p.analysis.scoping.ResolvedStmts globals fs sc inLoop ss)
    (hin : ∀ y ∈ Stmt.nodesOfList ss, y ∈ fn.nodes) (hss : p.LowersStmts r sc ss out ρ)
    (hws : ∀ w ∈ r.writeBacks, w.1 ∉ R.names) (hflat : c.IsFlat)
    (hdecl : ∀ x ∈ R.names, x ∈ ps ∨ x ∈ c.vars.map (·.1))
    (hown : ∀ {x σ D P Q}, (∀ w ∈ r.writeBacks, w.1 ≠ x) →
      p.Accounts fn x σ r D P Q ρ (Stmt.ownOfList out) → p.Accounts fn x σ r D P Q ρ c.own) :
    p.Code fn ps c r.drivers R := by
  have hacc : ∀ {x σ}, (x, σ) ∈ R →
      p.Accounts fn x σ r (Scoping.Declared sc (ss.filterMap Stmt.lexical?) (Stmt.nodesOfList ss))
        (p.analysis.scoping.Gives (Stmt.nodesOfList ss))
        (p.analysis.scoping.Gives (Stmt.nodesOfList ss)) ρ c.own := fun hx =>
    hown (fun w hw he => hws w hw (he ▸ Roles.mem_names hx))
      (LowersStmts.accounts hp ss hsrc hres hin (.ofHosts hhosts hx hws)
        (fun τ hτ => hhosts.coherent hx (hsub _ hτ)) hss)
  have hwrapper : ∀ {x qs k P}, ¬ p.Reason fn x (.wrapper qs k) r P := by
    rintro x qs k P (⟨_, -, hσ, -⟩ | ⟨_, hσ, -⟩) <;> cases hσ
  refine ⟨hflat, hdecl _, fun {x b y} hx hb hy hl => ?_, fun {x qs k} hx => ⟨fun hxp => ?_,
    fun y hy hl => hwrapper ((hacc hx).lends hy hl), fun y hy v hs => ?_⟩⟩
  · rcases (hacc hx).lends hy hl with ⟨b', -, hσ, -⟩ | ⟨b', hσ, h⟩
    · rw [Region.slot] at hσ
      split at hσ
      · rename_i hsome
        cases hσ
        rw [hb] at hsome
        cases hsome
      · cases hσ
    · cases hσ
      exact h
  · obtain ⟨s, hs⟩ := hps x hxp
    cases hhosts.coherent hx hs
  · rcases (hacc hx).sets hy hs with ⟨-, ⟨m, rfl⟩ | ⟨_, -, hσ, -⟩⟩ | hr
    · exact ⟨m, rfl⟩
    · cases hσ
    · exact absurd hr hwrapper

/-- The code of a function. -/
theorem of_function {id : ScopeId} {hoisted : List BindingId} (hp : p.Sound fn globals)
    (hhosts : p.Hosts r.function id own (p.paramRoles id ps ++ hoisted.map p.ownRole ++ ρ))
    (hsrc : Stmt.AreSource ss) (hres : p.analysis.scoping.ResolvedStmts globals fs id inLoop ss)
    (hin : ∀ y ∈ Stmt.nodesOfList ss, y ∈ fn.nodes) (hss : p.LowersStmts r.function id ss out ρ)
    (k : Span) : p.Code fn ps (.mk k (p.hoistedDeclarations hoisted ++ out)) r.drivers
      (p.paramRoles id ps ++ hoisted.map p.ownRole ++ ρ) := by
  have hflat := (hoistedDeclarations_flat (p := p) hoisted).append (LowersStmts.flat hsrc hss)
  refine .of_hosts (r := r.function) hp hhosts (fun z hz => List.mem_append_right _ hz)
    (fun x hx => ⟨_, List.mem_append_left _ (List.mem_append_left _ (List.mem_map_of_mem hx))⟩)
    hsrc hres hin hss (fun w hw => absurd hw List.not_mem_nil) hflat.flat (fun x hx => ?_)
    fun {x σ D P Q} _ h => ?_
  · rw [List.append_assoc, Roles.names_append, List.mem_append] at hx
    exact hx.imp (fun hx => by simpa [paramRoles, Roles.names] using hx)
      (hflat.declares.mem_iff x).2
  · rw [Block.own, Stmt.ownOfList_append]
    exact .cons (by simp) rfl (.append (.hoisted hoisted) h)

/-- The code of the wrapper of a block. -/
theorem of_block (hp : p.Sound fn globals) (hhosts : p.Hosts (r.wrapper []) sc own ρ)
    (hsrc : Stmt.AreSource ss) (hres : p.analysis.scoping.ResolvedStmts globals fs sc inLoop ss)
    (hin : ∀ y ∈ Stmt.nodesOfList ss, y ∈ fn.nodes) (hss : p.LowersStmts (r.wrapper []) sc ss out ρ)
    (w : Wrapper) (k : Span) :
    p.Code fn [] (.mk k (Lower.wrapperCode w [] out)) r.drivers ρ := by
  have hflat := wrapperCode_flat (LowersStmts.flat hsrc hss) w []
  refine .of_hosts (r := r.wrapper []) hp hhosts (fun z hz => hz) (by simp) hsrc hres hin hss
    (by simp [Region.wrapper]) hflat.flat (fun x hx => .inr ((hflat.declares.mem_iff x).2 hx))
    fun _ h => ?_
  rw [Block.own]
  exact .cons (by simp) rfl (h.wrapperCode w (by simp))

/-- The code of the wrapper of a loop. -/
theorem of_loop {m b : Mark} {hd : Header Mark} {w : Wrapper} {drivers : List (BindingId × Name)}
    (hp : p.Sound fn globals) (hx : .stmt (.loop m hd (.mk b ss)) ∈ fn.nodes)
    (hkeys : drivers.map (·.1) = (p.loopPlan m.id).fresh)
    (hdrivers : ∀ d ∈ drivers, d.2 ∉ Roles.names ((p.loopPlan m.id).fresh.map p.ownRole ++ ρ))
    (hhosts : p.Hosts (p.loopRegion r m drivers) sc own
    ((p.loopPlan m.id).fresh.map p.ownRole ++ ρ))
    (hsrc : Stmt.AreSource ss) (hres : p.analysis.scoping.ResolvedStmts globals fs sc inLoop ss)
    (hin : ∀ y ∈ Stmt.nodesOfList ss, y ∈ fn.nodes)
    (hss : p.LowersStmts (p.loopRegion r m drivers) sc ss out ρ) :
    p.Code fn (p.loopParams m) (p.loopCode m b w drivers out) r.drivers
      ((p.loopPlan m.id).fresh.map p.ownRole ++ ρ) := by
  have hflat := wrapperCode_flat (LowersStmts.flat hsrc hss) w
    (Lower.loopWriteBacks p (p.loopPlan m.id) drivers)
  refine .of_hosts (r := p.loopRegion r m drivers) hp hhosts
    (fun z hz => List.mem_append_right _ hz) (fun x hx => ?_) hsrc hres hin hss (fun v hv => ?_)
    hflat.flat (fun x hx => ?_) fun {x σ D P Q} hws h => ?_
  · obtain ⟨i, hi, rfl⟩ := List.mem_map.1 hx
    exact ⟨.binding i, List.mem_append_left _ (List.mem_map_of_mem (f := p.ownRole) hi)⟩
  · obtain ⟨d, hd, he⟩ := hp.mem_loopWriteBacks hx hkeys (List.mem_map_of_mem (f := (·.1)) hv)
    exact he ▸ hdrivers d hd
  · rw [Roles.names_append, List.mem_append] at hx
    exact hx.imp (fun hx => by simpa [Roles.names, loopParams, ownRole] using hx)
      (hflat.declares.mem_iff x).2
  · rw [loopCode, Block.own]
    exact .cons (by simp) rfl (h.wrapperCode w fun v hv he => absurd he (hws v hv))

end Code

/-! ## Parameters that are not written back -/

/-- No code of the body of a loop declares what the header declares. -/
theorem Sound.not_declared (hp : p.Sound fn globals) {m b : Mark} {hd : Header Mark}
    {ss : List (Stmt Mark)} (hx : .stmt (.loop m hd (.mk b ss)) ∈ fn.nodes) {i : BindingId}
    (hi : i ∈ (p.loopPlan m.id).fresh) {d : Binding} (hd' : d ∈ p.analysis.scoping.bindings)
    (hid : d.id = i) {sc : ScopeId}
    (hb : p.analysis.scoping.OpensBlock (.mk b ss) sc) :
    ¬ Scoping.Declared ((Block.mk b ss).scopeIn sc) (ss.filterMap Stmt.lexical?)
      (Stmt.nodesOfList ss) d := by
  obtain ⟨-, -, hscope, e, he, rfl, hes, hno⟩ := hp.of_fresh hx hi
  obtain rfl := hp.analysed.eq_of_id hd' he hid
  rintro (hf | ⟨hne, hds⟩ | ⟨y, hy, hyd⟩)
  · rw [hno] at hf
    cases hf
  · have hne : (Block.mk b ss).lexicals ≠ [] := hne
    rw [show (Block.mk b ss).scopeIn sc = b.id from Block.scopeIn_of_ne_nil hne] at hds
    have hblock := FunctionDef.Analysed.hasScope_of_opens (hb.scope hne).2
    rw [show (Block.mk b ss).mark.id = m.id from hds.symm.trans hes] at hblock
    exact absurd (hp.analysed.consistent.kind_unique hscope hblock) (by decide)
  · have hnodup : (Node.ids (Node.stmt (.loop m hd (.mk b ss))).nodes).Nodup :=
      hp.analysed.nodup.sublist ((nodes_sublist (x := .function fn) hx).map _)
    have hin : y.mark.id ∈ Node.ids (hd.nodes ++ (Block.mk b ss).nodes) :=
      List.mem_map_of_mem (List.mem_append_right _ (List.mem_cons_of_mem _ hy))
    rw [hyd, hes] at hin
    exact (List.nodup_cons.1 hnodup).1 hin

/-- Nothing in the code of the wrapper of a loop assigns a parameter to whose binding the body of
    the loop does not assign. -/
theorem code_not_assigns (hp : p.Sound fn globals) {m b : Mark} {hd : Header Mark}
    {ss : List (Stmt Mark)} (hx : .stmt (.loop m hd (.mk b ss)) ∈ fn.nodes) {i : BindingId}
    (hi : i ∈ (p.loopPlan m.id).fresh) {sc fs : ScopeId}
    (hb : p.analysis.scoping.OpensBlock (.mk b ss) sc) {inLoop : Bool}
    (hres : p.analysis.scoping.ResolvedStmts globals fs ((Block.mk b ss).scopeIn sc) inLoop ss)
    (hsrc : Stmt.AreSource ss) {drivers : List (BindingId × Name)}
    (hkeys : drivers.map (·.1) = (p.loopPlan m.id).fresh) {r : Region} {body : List (Stmt Span)}
    {ρ : Roles} (hdrivers : ∀ d ∈ drivers,
      d.2 ∉ Roles.names ((p.loopPlan m.id).fresh.map p.ownRole ++ ρ))
    (hss : p.LowersStmts (p.loopRegion r m drivers) ((Block.mk b ss).scopeIn sc) ss body ρ)
    {own : List BindingId} (hhosts : p.Hosts (p.loopRegion r m drivers) ((Block.mk b ss).scopeIn sc)
      own ((p.loopPlan m.id).fresh.map p.ownRole ++ ρ))
    (hno : ¬ p.analysis.scoping.WrittenIn i (Block.mk b ss).nodes) (w : Wrapper) :
    ¬ (p.loopCode m b w drivers body).Assigns (p.naming.nameOf i) := by
  have hin : ∀ y ∈ Stmt.nodesOfList ss, y ∈ fn.nodes := fun y hy =>
    (nodes_sublist (x := .function fn) hx).subset (Stmt.mem_nodes_body hy)
  have hmem : p.ownRole i ∈ (p.loopPlan m.id).fresh.map p.ownRole ++ ρ :=
    List.mem_append_left _ (List.mem_map_of_mem hi)
  have hws : ∀ v ∈ Lower.loopWriteBacks p (p.loopPlan m.id) drivers,
      v.1 ∉ Roles.names ((p.loopPlan m.id).fresh.map p.ownRole ++ ρ) := fun v hv => by
    obtain ⟨d, hd, he⟩ := hp.mem_loopWriteBacks hx hkeys (List.mem_map_of_mem (f := (·.1)) hv)
    exact he ▸ hdrivers d hd
  have hacc := (LowersStmts.accounts hp ss hsrc hres hin (.ofHosts hhosts hmem hws)
    (fun τ hτ => hhosts.coherent hmem (List.mem_append_right _ hτ)) hss).wrapperCode w
      fun v hv he => absurd (he ▸ Roles.mem_names hmem) (hws v hv)
  -- the parameter means the binding, to which nothing in the body gives a value
  have hreason : ¬ p.Reason fn (p.naming.nameOf i) (.holds (.binding i)) (p.loopRegion r m drivers)
      (p.analysis.scoping.Gives (Stmt.nodesOfList ss)) := by
    rintro (⟨c, -, hσ, hc⟩ | ⟨_, hσ, -⟩)
    · obtain rfl : c = i := by
        rw [Region.slot] at hσ
        split at hσ <;> cases hσ
        rfl
      rcases hc with hc | ⟨d, hd, hdi, hf⟩
      · exact hno (hc.mono fun _ hy => List.mem_cons_of_mem _ hy)
      · exact hp.not_declared hx hi hd hdi hb (.inl hf)
    · cases hσ
  intro ha
  cases ha with
  | sets hy hs =>
    rcases List.mem_cons.1 hy with rfl | hy
    · cases hs
    · rcases hacc.sets hy hs with ⟨-, ht | ⟨d, hd, hσ, hdecl⟩⟩ | hr
      · exact ht
      · exact hp.not_declared hx hi hd (by injections; simp [*]) hb hdecl
      · exact hreason hr
  | inside hy hps hv ha =>
    rcases List.mem_cons.1 hy with he | hy
    · cases he
    · exact hreason (hacc.lends hy ⟨_, _, _, rfl, hps, hv, ha⟩)

end LoweringPlan

end FlatScope
