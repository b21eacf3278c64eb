import FlatScope.Proofs.Lowering.Lower

/-!
# The lowering never fails

The stages behind the checks go through a function in different ways, and meet only in tables whose
keys are the numbers of nodes, scopes and bindings. `Analysis.Complete` says of these tables that
they have every key that is looked up: a scope has the scope around it and the bindings of its
names, a reference its scope and its binding, a loop its scopes and its plan, a declaration its
binding, and every binding that a wrapper or a plan mentions has a name.

* `FunctionDef.Analysed.complete`: the tables of an analysed function are complete.
* `FunctionDef.lower_total`: a function that passes the checks is lowered, whether wrappers are made
  before the loops or not, and none of the lookups on the way fails.
-/

namespace FlatScope

open Node

/-! ## Complete tables -/

/-- What is known about a node, where a later stage asks for it. -/
def Analysis.Knows (a : Analysis) : Node Mark → Prop
  | .stmt (.loop m _ _) =>
    (∃ l, a.scoping.loop? m.id = some l) ∧ ∃ p, a.loopPlan? m.id = some p
  | .stmt (.declaration m n _ _) | .header (.forOf m n (some _) _) =>
    ∃ b, a.scoping.declared? m.id = some b ∧ b.name = n
  | .expr (.name m n) | .header (.forOf m n none _) =>
    ∃ r, a.scoping.referenceAt? m.id = some r ∧ r.name = n
  | _ => True

/-- The tables that are made of a function have every key that a later stage looks up. -/
structure Analysis.Complete (fn : FunctionDef Mark) (a : Analysis) : Prop where
  nodes : ∀ x ∈ fn.nodes, a.Knows x
  parents : ∀ s ∈ a.scoping.scopes, ∀ p, s.parent = some p → ∃ t, a.scoping.scope? p = some t
  names : ∀ s ∈ a.scoping.scopes, ∀ i ∈ s.bindingIds, ∃ b, a.scoping.binding? i = some b
  owners : ∀ b ∈ a.scoping.bindings, ∃ s, a.scoping.scope? b.scope = some s
  references : ∀ r ∈ a.scoping.references, (∃ s, a.scoping.scope? r.scope = some s) ∧
    ∀ i, r.binding = some i → ∃ b, a.scoping.binding? i = some b
  declarations : ∀ d ∈ a.scoping.declarations, ∃ b, a.scoping.binding? d.2 = some b
  blocks : ∀ d ∈ a.scoping.blockScopes, ∃ s, a.scoping.scope? d.2 = some s
  loops : ∀ l ∈ a.scoping.loops, ∀ i, l.header = some i ∨ l.body = some i →
    ∃ s, a.scoping.scope? i = some s
  wrappers : ∀ w ∈ a.wrappers, (∃ s, a.scoping.scope? w.scope = some s) ∧
    ∀ i ∈ w.locals ++ w.params ++ w.hoisted, ∃ b, a.scoping.binding? i = some b
  plans : ∀ p ∈ a.loops, (∀ i ∈ p.header, ∃ b, a.scoping.binding? i = some b) ∧
    (∀ i ∈ p.fresh, i ∈ p.header) ∧ ∀ i ∈ p.writeBack, i ∈ p.fresh
  /-- A driver is taken back by the loop that it was made for. -/
  drivers : ∀ p ∈ a.loops, ∀ q ∈ a.loops, ∀ i ∈ p.fresh, i ∈ q.fresh → p = q
  naming : ∀ b ∈ a.scoping.bindings, ∃ n, (Naming.ofAnalysis a).names.lookup b.id = some n

namespace FunctionDef.Analysed

variable {fn : FunctionDef Mark} {globals : List Name} {a : Analysis}

/-- What is noted about a node is what a later stage asks for. -/
theorem knows (h : fn.Analysed globals a) {x : Node Mark} (hx : x ∈ fn.nodes)
    (hn : a.scoping.Noted x) : a.Knows x := by
  have hdecl : ∀ {m : NodeId} {n : Name} {k : DeclKind},
      (∃ fs sc, a.scoping.Declares fs sc m n k) →
        ∃ b, a.scoping.declared? m = some b ∧ b.name = n := by
    rintro m n k ⟨fs, sc, b, hb, hl, -⟩
    exact ⟨b, hb, (h.consistent.of_lookup? hl).2.1⟩
  have href : ∀ {m : NodeId} {n : Name},
      (∃ gs sc w, a.scoping.Refers gs sc m n w) →
        ∃ r, a.scoping.referenceAt? m = some r ∧ r.name = n := by
    rintro m n ⟨gs, sc, w, r, hr, hrn, -⟩
    exact ⟨r, hr, hrn⟩
  unfold Analysis.Knows
  split
  · obtain ⟨hoisting, hp⟩ := h.loopPlan? hx
    obtain ⟨sc, hl, -⟩ := hn
    exact ⟨⟨_, hl⟩, _, hp⟩
  · exact hdecl hn
  · exact hdecl hn
  · exact href hn
  · obtain ⟨gs, sc, hn⟩ := hn
    exact href ⟨gs, sc, _, hn⟩
  · trivial

/-! ## Wrappers and plans -/

/-- The bindings of a scope are known. -/
theorem binding?_of_scope (h : fn.Analysed globals a) {i : BindingId} {id : ScopeId}
    (hi : i ∈ a.scoping.bindingIdsOf id) :
    ∃ b, a.scoping.binding? i = some b ∧ b.scope = id := by
  obtain ⟨b, hb, rfl, hbs⟩ := h.consistent.mem_bindingIdsOf.1 hi
  exact ⟨b, h.consistent.binding?_of_mem hb, hbs⟩

theorem binding?_of_hoisted (h : fn.Analysed globals a) {b : Block Mark} {i : BindingId}
    (hi : i ∈ a.scoping.hoistedIn b) : ∃ d, a.scoping.binding? i = some d := by
  obtain ⟨v, -, hv⟩ := List.mem_filterMap.1 (List.mem_eraseDups.1 hi)
  obtain ⟨d, hd, hdi⟩ := h.consistent.declared _ (Table.mem_of_lookup hv)
  obtain rfl : d.id = i := hdi
  exact ⟨d, h.consistent.binding?_of_mem hd⟩

theorem scope?_of_hasScope (h : fn.Analysed globals a) {id : ScopeId} {k : ScopeKind}
    (hs : a.scoping.HasScope id k) : ∃ s, a.scoping.scope? id = some s := by
  obtain ⟨s, hs, rfl, -⟩ := hs
  exact ⟨s, h.consistent.scope?_of_mem hs⟩

/-- The scope of a block is known. -/
theorem scope?_of_block (h : fn.Analysed globals a) {d : NodeId × ScopeId}
    (hd : d ∈ a.scoping.blockScopes) : ∃ s, a.scoping.scope? d.2 = some s := by
  obtain ⟨hself, hs⟩ := h.consistent.blocks d hd
  rw [hself]
  exact h.scope?_of_hasScope hs

/-- The scopes of a loop are known. -/
theorem scope?_of_loop (h : fn.Analysed globals a) {l : LoopScopes} (hl : l ∈ a.scoping.loops)
    {i : ScopeId} (hi : l.header = some i ∨ l.body = some i) :
    ∃ s, a.scoping.scope? i = some s := by
  rcases hi with hi | hi
  · exact h.scope?_of_hasScope (h.consistent.headers l hl i hi).2
  · exact h.scope?_of_hasScope (h.consistent.bodies l hl i hi)

/-- The scope of a wrapper is known, and so are the bindings that it is about. -/
theorem wrapper_known (h : fn.Analysed globals a) {w : Wrapper} (hw : w ∈ a.wrappers) :
    (∃ s, a.scoping.scope? w.scope = some s) ∧
      ∀ i ∈ w.locals ++ w.params ++ w.hoisted, ∃ b, a.scoping.binding? i = some b := by
  have hsorted := (h.sorted hw).1
  rw [h.wrappers] at hw
  obtain ⟨x, -, hx⟩ := List.mem_filterMap.1 hw
  suffices hscope : (∃ s, a.scoping.scope? w.scope = some s) ∧
      ∃ b, w.hoisted = a.scoping.hoistedIn b by
    refine ⟨hscope.1, fun i hi => ?_⟩
    rcases List.mem_append.1 hi with hi | hi
    · obtain ⟨d, hd, rfl⟩ := hsorted i hi
      exact ⟨d, h.consistent.binding?_of_mem hd⟩
    · obtain ⟨b, hb⟩ := hscope.2
      exact h.binding?_of_hoisted (hb ▸ hi)
  unfold Scoping.wrapper? at hx
  split at hx
  · unfold Scoping.blockWrapper? at hx
    split at hx
    · cases hx
    · next id hid =>
      split at hx
      · cases hx
      · cases hx
        exact ⟨h.scope?_of_block (Table.mem_of_lookup hid), _, rfl⟩
  · unfold Scoping.loopWrapper? at hx
    split at hx
    · cases hx
    · next l hl =>
      have hlm := List.mem_of_find?_eq_some hl
      split at hx
      · cases hx
      · next hc =>
        cases hx
        refine ⟨?_, _, rfl⟩
        cases hh : l.header with
        | some i => simpa [hh] using h.scope?_of_loop hlm (.inl hh)
        | none =>
          cases hb : l.body with
          | some i => simpa [hh, hb] using h.scope?_of_loop hlm (.inr hb)
          | none => simp [hh, hb] at hc
  · cases hx

/-- The plans are those of the loops, which they are known by. -/
theorem mem_loops (h : fn.Analysed globals a) : ∃ hoisting, ∀ p ∈ a.loops, ∃ m hd b,
    .stmt (.loop m hd b) ∈ fn.nodes ∧
      p = a.scoping.planLoop a.wrappers hoisting m.id hd b := by
  obtain ⟨hoisting, hloops⟩ := h.loops
  refine ⟨hoisting, fun p hp => ?_⟩
  rw [hloops] at hp
  obtain ⟨x, hx, hxp⟩ := List.mem_filterMap.1 hp
  split at hxp
  · exact ⟨_, _, _, hx, (Option.some.inj hxp).symm⟩
  · cases hxp

/-- The bindings of the header of a loop are those of the scope that has the number of the loop. -/
theorem binding?_of_planLoop (h : fn.Analysed globals a) {hoisting : Bool} {loop : NodeId}
    {hd : Header Mark} {b : Block Mark} {i : BindingId}
    (hi : i ∈ (a.scoping.planLoop a.wrappers hoisting loop hd b).header) :
    ∃ d, a.scoping.binding? i = some d ∧ d.scope = loop := by
  have hheader : (a.scoping.planLoop a.wrappers hoisting loop hd b).header =
      (((a.scoping.loop? loop).bind (·.header)).map a.scoping.bindingIdsOf).getD [] := by
    unfold Scoping.planLoop
    split <;> rfl
  rw [hheader] at hi
  cases hs : (a.scoping.loop? loop).bind (·.header) with
  | none => simp [hs] at hi
  | some id =>
    obtain ⟨l, hl, hlh⟩ := Option.bind_eq_some_iff.1 hs
    have hloop : l.loop = loop := by simpa using List.find?_some hl
    obtain ⟨rfl, -⟩ := h.consistent.headers l (List.mem_of_find?_eq_some hl) id hlh
    rw [← hloop]
    exact h.binding?_of_scope (by simpa [hs] using hi)

end FunctionDef.Analysed

/-- Fresh bindings are bindings of the header, and only such are written back. -/
theorem Scoping.planLoop_subset (a : Scoping) (ws : List Wrapper) (hoisting : Bool) (loop : NodeId)
    (hd : Header Mark) (b : Block Mark) :
    (∀ i ∈ (a.planLoop ws hoisting loop hd b).fresh,
      i ∈ (a.planLoop ws hoisting loop hd b).header) ∧
    ∀ i ∈ (a.planLoop ws hoisting loop hd b).writeBack,
      i ∈ (a.planLoop ws hoisting loop hd b).fresh := by
  unfold Scoping.planLoop
  split
  · simp
  · refine ⟨fun i hi => (List.mem_filter.1 hi).1, fun i hi => ?_⟩
    dsimp only at hi
    split at hi
    · exact (List.mem_filter.1 hi).1
    · cases hi

/-! ## Every lookup succeeds -/

/-- The tables that are made of an analysed function are complete. -/
theorem FunctionDef.Analysed.complete {fn : FunctionDef Mark} {globals : List Name} {a : Analysis}
    (h : fn.Analysed globals a) : a.Complete fn where
  nodes x hx := h.knows hx (h.noted x hx)
  parents s hs p hp := by
    obtain ⟨-, t, ht, rfl⟩ := h.consistent.parent s hs p hp
    exact ⟨t, h.consistent.scope?_of_mem ht⟩
  names s hs i hi := by
    obtain ⟨x, hx, rfl⟩ := List.mem_map.1 hi
    obtain ⟨b, hb, hbi, -⟩ := h.consistent.named s hs x hx
    exact ⟨b, hbi ▸ h.consistent.binding?_of_mem hb⟩
  owners b hb := by
    obtain ⟨s, hs, hsb, -⟩ := h.consistent.listed b hb
    exact ⟨s, hsb ▸ h.consistent.scope?_of_mem hs⟩
  references r hr := by
    obtain ⟨⟨s, hs, hsr⟩, hbinding⟩ := h.consistent.referred r hr
    refine ⟨⟨s, hsr ▸ h.consistent.scope?_of_mem hs⟩, fun i hi => ?_⟩
    obtain ⟨b, hb, rfl⟩ := hbinding i hi
    exact ⟨b, h.consistent.binding?_of_mem hb⟩
  declarations d hd := by
    obtain ⟨b, hb, hbd⟩ := h.consistent.declared d hd
    exact ⟨b, hbd ▸ h.consistent.binding?_of_mem hb⟩
  blocks d hd := h.scope?_of_block hd
  loops l hl i hi := h.scope?_of_loop hl hi
  wrappers w hw := h.wrapper_known hw
  plans p hp := by
    obtain ⟨hoisting, hplans⟩ := h.mem_loops
    obtain ⟨m, hd, b, -, rfl⟩ := hplans p hp
    refine ⟨fun i hi => ?_, a.scoping.planLoop_subset ..⟩
    obtain ⟨d, hdi, -⟩ := h.binding?_of_planLoop hi
    exact ⟨d, hdi⟩
  drivers p hp q hq i hip hiq := by
    obtain ⟨hoisting, hplans⟩ := h.mem_loops
    obtain ⟨m, hd, b, hx, rfl⟩ := hplans p hp
    obtain ⟨m', hd', b', hx', rfl⟩ := hplans q hq
    obtain ⟨d, hdi, hdm⟩ := h.binding?_of_planLoop ((a.scoping.planLoop_subset ..).1 i hip)
    obtain ⟨d', hdi', hdm'⟩ := h.binding?_of_planLoop ((a.scoping.planLoop_subset ..).1 i hiq)
    obtain rfl : d = d' := Option.some.inj (hdi.symm.trans hdi')
    have hnode := node_unique h.nodup hx hx' (hdm.symm.trans hdm')
    cases hnode
    rfl
  naming b hb := by
    have hkeys := (Naming.ofAnalysis_separates h.binding_ids_nodup fun w hw => h.sorted hw).1.keys
    exact Table.exists_lookup.2 (hkeys ▸ List.mem_map_of_mem hb)

/-- A function as it is read that passes the checks is lowered, whether wrappers are made before the
    loops or not: its names are resolved and no constant is assigned to, so the analysis ends, every
    lookup in what it found finds something, and the lowering ends with a function. -/
theorem FunctionDef.lower_total {fn : FunctionDef Span} (hsrc : fn.IsSource)
    {globals : List Name} {scoping : Scoping} (hresolve : fn.number.resolve globals = .ok scoping)
    (hconstants : scoping.checkConstants = .ok ()) (hoisting : Bool) :
    ∃ a out, fn.number.analyse globals hoisting = .ok a ∧ a.scoping = scoping ∧
      a.Complete fn.number ∧ fn.number.lower a = .ok out := by
  have han : fn.number.analyse globals hoisting = .ok _ := FunctionDef.analyse_eq_ok.2
    ⟨scoping, hresolve, hconstants, rfl⟩
  have h := FunctionDef.analyse_analysed (fn.shaped_number.2 hsrc) (fn.numberFrom_consecutive 1) han
  obtain ⟨out, hout, -⟩ := h.lower_lowers
  exact ⟨_, out, han, rfl, h.complete, hout⟩

/-- The function `function f() { while (true) { let x = 1; g(function () { return x; }); break; }
    }`, whose loop has a wrapper that is left by a `break`. -/
def capturingLoop : FunctionDef Span :=
  let u := Span.unknown
  ⟨u, "f", [], .mk u [.loop u (.whileTrue u (.literal u (.bool true))) (.mk u [
    .declaration u "x" .letVar (some (.literal u (.number (.int 1)))),
    .expression u (.call u (.name u "g")
      [.function u [] (.mk u [.ret u (some (.name u "x"))])]),
    .brk u])]⟩

/-- The theorem for a loop with a wrapper. -/
theorem FunctionDef.lower_total_capturingLoop :
    ∃ scoping a out, capturingLoop.number.resolve ["g"] = .ok scoping ∧
      capturingLoop.number.analyse ["g"] true = .ok a ∧ a.wrappers.map (·.exits) = [[.brk]] ∧
      a.Complete capturingLoop.number ∧ capturingLoop.number.lower a = .ok out := by
  have hsrc : capturingLoop.IsSource := by
    simp [capturingLoop, FunctionDef.Shaped, Block.Shaped, Stmt.ShapedList, Stmt.Shaped,
      Header.Shaped, Expr.Shaped, Expr.ShapedList]
  obtain ⟨a, out, ha, -, hcomplete, hout⟩ :=
    FunctionDef.lower_total hsrc (show capturingLoop.number.resolve ["g"] = .ok _ from rfl) rfl true
  have hexits : (capturingLoop.number.analyse ["g"] true).map (·.wrappers.map (·.exits)) =
      .ok [[.brk]] := by rfl
  rw [ha] at hexits
  exact ⟨_, a, out, rfl, ha, Except.ok.inj hexits, hcomplete, hout⟩

end FlatScope
