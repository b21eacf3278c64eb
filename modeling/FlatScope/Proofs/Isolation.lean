import FlatScope.Proofs.Analysis
import FlatScope.Proofs.Scope.Captures

/-!
# Which scopes are isolated

Wrappers are chosen by two rules, one for loops and one for all other blocks. Together they give
every captured binding of a block or of the header of a loop a wrapper of its own, around everything
that captures it, and nothing else (`Analysis.Isolates`, `FunctionDef.analyse_isolates`).

What a wrapper covers is known by the scopes alone: the scope of a block is covered by the wrapper
of the block, or by that of the loop whose body it is, and the scope of a header by that of its loop
(`Scoping.Consistent.of_covered`). So no scope is covered twice.
-/

namespace FlatScope

open Node Resolve Place

/-! ## What wrappers cover -/

namespace Scoping

variable {a : Scoping} {x y : Node Mark} {v w : Wrapper} {b : Block Mark}

/-- The wrapper that a block gets. -/
theorem blockWrapper?_eq_some : a.blockWrapper? b = some w ↔ ∃ sc,
    a.blockScopes.lookup b.mark.id = some sc ∧ (∀ l ∈ a.loops, l.body ≠ some sc) ∧
      a.needsWrapper sc ∧ w = ⟨b.mark.id, sc, a.bindingIdsOf sc, [], b.exits, [sc],
      a.hoistedIn b, false⟩ := by
  unfold blockWrapper?
  cases a.blockScopes.lookup b.mark.id with
  | none => exact ⟨nofun, fun ⟨_, hsc, _⟩ => absurd hsc nofun⟩
  | some sc =>
    have hcond : ¬ (a.loops.any (·.body = some sc) || !a.needsWrapper sc) = true ↔
        (∀ l ∈ a.loops, l.body ≠ some sc) ∧ a.needsWrapper sc := by simp
    dsimp only
    rw [Option.ite_none_left_eq_some, hcond]
    constructor
    · rintro ⟨⟨hl, hn⟩, ⟨⟩⟩
      exact ⟨sc, rfl, hl, hn, rfl⟩
    · rintro ⟨_, ⟨⟩, hl, hn, rfl⟩
      exact ⟨⟨hl, hn⟩, rfl⟩

/-- The wrapper that a loop gets. -/
theorem loopWrapper?_eq_some {loop : NodeId} : a.loopWrapper? loop b = some w ↔ ∃ l params,
    a.loop? loop = some l ∧ (l.header.any a.needsWrapper || l.body.any a.needsWrapper) ∧
      params = ((l.header.map a.bindingIdsOf).getD []).filter a.isPerIteration ∧
      w = ⟨loop, (l.header.or l.body).getD loop, (l.body.map a.bindingIdsOf).getD [],
      params, b.exits,
        (if params.isEmpty then [] else l.header.toList) ++ l.body.toList,
        a.hoistedIn b, true⟩ := by
  unfold loopWrapper?
  cases a.loop? loop with
  | none => exact ⟨nofun, fun ⟨_, _, hl, _⟩ => absurd hl nofun⟩
  | some l =>
    dsimp only
    rw [Option.ite_none_left_eq_some, Bool.not_eq_true', Bool.not_eq_false]
    constructor
    · rintro ⟨hn, ⟨⟩⟩
      exact ⟨l, _, rfl, hn, rfl, rfl⟩
    · rintro ⟨_, _, ⟨⟩, hn, rfl, rfl⟩
      exact ⟨hn, rfl⟩

namespace Consistent

/-- What a wrapper covers is the scope of its block, which is not the body of a loop, or a scope of
    its loop. -/
theorem of_covered (h : a.Consistent) (hw : a.wrapper? x = some w) {i : ScopeId}
    (hi : i ∈ w.covered) :
    (∃ b, x = .block b ∧ i = b.mark.id ∧ a.HasScope i .block ∧ ∀ l ∈ a.loops, l.body ≠ some i) ∨
    ∃ l ∈ a.loops, l.loop = x.mark.id ∧ (l.body = some i ∨ l.header = some i) := by
  unfold wrapper? at hw
  split at hw
  case h_1 b =>
    obtain ⟨sc, hsc, hbody, -, rfl⟩ := blockWrapper?_eq_some.1 hw
    obtain ⟨hid, hkind⟩ := h.blocks _ (Table.mem_of_lookup hsc)
    obtain rfl := List.mem_singleton.1 hi
    dsimp only at hid hkind
    subst hid
    exact .inl ⟨b, rfl, rfl, hkind, hbody⟩
  case h_2 m hd b =>
    obtain ⟨l, params, hl, -, -, rfl⟩ := loopWrapper?_eq_some.1 hw
    have hid : l.loop = m.id := by simpa using List.find?_some hl
    refine .inr ⟨l, List.mem_of_find?_eq_some hl, hid, ?_⟩
    rcases List.mem_append.1 hi with hi | hi
    · split at hi
      · cases hi
      · exact .inr (Option.mem_toList.1 hi)
    · exact .inl (Option.mem_toList.1 hi)
  case h_3 => cases hw

/-- No scope is covered by the wrappers of two nodes. -/
theorem covered_unique (h : a.Consistent) (hv : a.wrapper? x = some v) (hw : a.wrapper? y = some w)
    {i : ScopeId} (hiv : i ∈ v.covered) (hiw : i ∈ w.covered) : x.mark.id = y.mark.id := by
  have hkinds : ∀ {l k : LoopScopes}, l ∈ a.loops → k ∈ a.loops → l.body = some i →
      k.header ≠ some i := fun hl hk hb hh =>
    absurd (h.kind_unique (h.bodies _ hl _ hb) (h.headers _ hk _ hh).2) (by decide)
  rcases h.of_covered hv hiv with ⟨b, rfl, hib, hkind, hbody⟩ | ⟨l, hl, hlx, hli⟩ <;>
    rcases h.of_covered hw hiw with ⟨c, rfl, hic, hkind', hbody'⟩ | ⟨k, hk, hky, hki⟩
  · exact hib.symm.trans hic
  · rcases hki with hki | hki
    · exact absurd hki (hbody k hk)
    · exact absurd (h.kind_unique hkind (h.headers _ hk _ hki).2) (by decide)
  · rcases hli with hli | hli
    · exact absurd hli (hbody' l hl)
    · exact absurd (h.kind_unique hkind' (h.headers _ hl _ hli).2) (by decide)
  · rw [← hlx, ← hky]
    rcases hli with hli | hli <;> rcases hki with hki | hki
    · rw [h.distinctBodies l hl k hk i hli hki]
    · exact absurd hki (hkinds hl hk hli)
    · exact absurd hli (hkinds hk hl hki)
    · exact (h.headers l hl i hli).1.symm.trans (h.headers k hk i hki).1

/-- What lives inside of a wrapper is a binding of a scope that it covers. -/
theorem of_hosted (h : a.Consistent) (hw : a.wrapper? x = some w) {i : BindingId}
    (hi : i ∈ w.locals ++ w.params) : ∃ d ∈ a.bindings, d.id = i ∧ d.scope ∈ w.covered := by
  unfold wrapper? at hw
  split at hw
  case h_1 b =>
    obtain ⟨sc, -, -, -, rfl⟩ := blockWrapper?_eq_some.1 hw
    obtain ⟨d, hd, hdi, rfl⟩ := h.mem_bindingIdsOf.1 (by simpa using hi)
    exact ⟨d, hd, hdi, List.mem_singleton.2 rfl⟩
  case h_2 m hd b =>
    obtain ⟨l, params, -, -, hparams, rfl⟩ := loopWrapper?_eq_some.1 hw
    rcases List.mem_append.1 hi with hi | hi
    · cases hb : l.body with
      | none => simp [hb] at hi
      | some sc =>
        obtain ⟨d, hd, hdi, rfl⟩ := h.mem_bindingIdsOf.1 (by simpa [hb] using hi)
        exact ⟨d, hd, hdi, by simp⟩
    · have hne : params.isEmpty = false := by simpa using List.ne_nil_of_mem hi
      dsimp only at hi
      rw [hparams] at hi
      cases hh : l.header with
      | none => simp [hh] at hi
      | some sc =>
        obtain ⟨d, hd, hdi, rfl⟩ := h.mem_bindingIdsOf.1
          (List.mem_filter.1 (by simpa [hh] using hi)).1
        exact ⟨d, hd, hdi, by simp [hne]⟩
  case h_3 => cases hw

theorem bindingIdsOf_nodup (h : a.Consistent) (id : ScopeId) : (a.bindingIdsOf id).Nodup := by
  unfold bindingIdsOf
  cases hs : a.scope? id with
  | none => exact .nil
  | some s => exact (h.listsBindings.bindingIds s (mem_of_scope? hs).1).1

/-- A wrapper covers no scope twice. -/
theorem covered_nodup (h : a.Consistent) (hw : a.wrapper? x = some w) : w.covered.Nodup := by
  unfold wrapper? at hw
  split at hw
  case h_1 b =>
    obtain ⟨sc, -, -, -, rfl⟩ := blockWrapper?_eq_some.1 hw
    exact List.nodup_singleton sc
  case h_2 m hd b =>
    obtain ⟨l, params, hl, -, -, rfl⟩ := loopWrapper?_eq_some.1 hw
    have hlm := List.mem_of_find?_eq_some hl
    refine List.nodup_append.2 ⟨?_, by cases l.body <;> simp, ?_⟩
    · split
      · exact .nil
      · cases l.header <;> simp
    · rintro i hi j hj rfl
      have hh : l.header = some i := by
        split at hi
        · cases hi
        · exact Option.mem_toList.1 hi
      exact absurd (h.kind_unique (h.bodies l hlm i (Option.mem_toList.1 hj))
        (h.headers l hlm i hh).2) (by decide)
  case h_3 => cases hw

/-- No binding lives twice inside of a wrapper. -/
theorem hosted_nodup (h : a.Consistent) (hw : a.wrapper? x = some w) :
    (w.locals ++ w.params).Nodup := by
  unfold wrapper? at hw
  split at hw
  case h_1 b =>
    obtain ⟨sc, -, -, -, rfl⟩ := blockWrapper?_eq_some.1 hw
    simpa using h.bindingIdsOf_nodup sc
  case h_2 m hd b =>
    obtain ⟨l, params, hl, -, rfl, rfl⟩ := loopWrapper?_eq_some.1 hw
    have hlm := List.mem_of_find?_eq_some hl
    have hnodup : ∀ o : Option ScopeId, ((o.map a.bindingIdsOf).getD []).Nodup := fun o => by
      cases o with
      | none => exact .nil
      | some i => exact h.bindingIdsOf_nodup i
    refine List.nodup_append.2 ⟨hnodup l.body, (hnodup l.header).filter _, ?_⟩
    rintro i hi j hj rfl
    cases hb : l.body with
    | none => simp [hb] at hi
    | some s =>
      cases hh : l.header with
      | none => simp [hh] at hj
      | some t =>
        -- The scopes of the body and of the header are of different kinds.
        obtain ⟨d, hd, hdi, rfl⟩ := h.mem_bindingIdsOf.1 (by simpa [hb] using hi)
        obtain ⟨e, he, hei, rfl⟩ := h.mem_bindingIdsOf.1
          (List.mem_filter.1 (by simpa [hh] using hj)).1
        obtain rfl := h.eq_of_id hd he (hdi.trans hei.symm)
        exact absurd (h.kind_unique (h.bodies l hlm _ hb) (h.headers l hlm _ hh).2) (by decide)
  case h_3 => cases hw

/-- A scope needs a wrapper if one of its own bindings is captured. -/
theorem needsWrapper_iff (h : a.Consistent) {id : ScopeId} :
    a.needsWrapper id ↔ ∃ d ∈ a.bindings, d.scope = id ∧ a.isCaptured d.id := by
  simp only [needsWrapper, List.any_eq_true, h.mem_bindingIdsOf]
  constructor
  · rintro ⟨_, ⟨d, hd, rfl, hs⟩, hc⟩
    exact ⟨d, hd, hs, hc⟩
  · rintro ⟨d, hd, hs, hc⟩
    exact ⟨d.id, ⟨d, hd, rfl, hs⟩, hc⟩

end Consistent

end Scoping

/-! ## Scopes and their places -/

/-- The block is the body of a loop. -/
def FunctionDef.IsLoopBody (fn : FunctionDef Mark) (b : Block Mark) : Prop :=
  ∃ p m h, (ofFunction fn).Contains p ∧ p.node = .stmt (.loop m h b)

namespace Scoping.Records

variable {fn : FunctionDef Mark} {a : Scoping} {globals : List Name} {p : Place} {b : Block Mark}
  {d : Binding}

/-- A scope is the enclosure at a place. -/
theorem place_of_scope (h : a.Records globals fn.acts) {i : ScopeId} {k : ScopeKind}
    (hs : a.HasScope i k) : ∃ p f, (ofFunction fn).Contains p ∧ p.opens = some f ∧
      p.node.enclosure? = some f ∧ p.node.mark.id = i ∧ f.kind = k := by
  obtain ⟨s, hs, rfl, rfl⟩ := hs
  obtain ⟨f, parent, hf, hfs⟩ := h.scopes s hs
  obtain ⟨p, hp, hpf, -⟩ := FunctionDef.opens_mem_acts.1 hf
  have hproper := hp.proper (proper_under _ _)
  exact ⟨p, f, hp, hpf, hproper.enclosure? hpf, (hproper.id hpf).symm.trans hfs.id.symm,
    hfs.kind.symm⟩

/-- The scope of a block is that of a block which declares something, and it is noted. -/
theorem block_of_scope (h : a.Records globals fn.acts) {i : ScopeId} (hs : a.HasScope i .block) :
    ∃ p b, (ofFunction fn).Contains p ∧ p.node = .block b ∧ b.mark.id = i ∧ b.lexicals ≠ [] ∧
      a.blockScopes.lookup i = some i := by
  obtain ⟨p, f, hp, hpf, henc, hid, hk⟩ := h.place_of_scope hs
  obtain ⟨b, hb, hne⟩ := Node.enclosure?_block henc hk
  have hb : p.node = .block b := hb.elim (fun hb => hb) fun hb => by
    rw [← hp.canonical rfl, hb]
    rfl
  have hmem := h.blocks f _ (FunctionDef.opens_mem_acts.2 ⟨p, hp, hpf, rfl⟩) hk
  rw [Node.enclosure?_id henc, hid] at hmem
  obtain ⟨j, hj⟩ := Table.exists_lookup.2 (List.mem_map_of_mem (f := (·.1)) hmem)
  obtain rfl : j = i := (h.consistent.blocks _ (Table.mem_of_lookup hj)).1
  exact ⟨p, b, hp, hb, by rw [← hid, hb]; rfl, hne, hj⟩

/-- The scope of the header of a loop is that of a loop whose header declares something. -/
theorem loop_of_scope (h : a.Records globals fn.acts) {i : ScopeId} (hs : a.HasScope i .loop) :
    ∃ p m hd b, (ofFunction fn).Contains p ∧ p.node = .stmt (.loop m hd b) ∧ m.id = i ∧
      (headerLexical? hd).isSome := by
  obtain ⟨p, f, hp, -, henc, hid, hk⟩ := h.place_of_scope hs
  obtain ⟨m, hd, b, hnode, hsome⟩ := Node.enclosure?_loop henc hk
  exact ⟨p, m, hd, b, hp, hnode, by rw [← hid, hnode]; rfl, hsome⟩

/-- A node whose number is that of the scope of a binding is an enclosure. -/
theorem enclosure_of_binding (h : a.Records globals fn.acts) (hn : (ofFunction fn).ids.Nodup)
    (hd : d ∈ a.bindings) (hp : (ofFunction fn).Contains p) (hid : p.node.mark.id = d.scope) :
    ∃ f, p.node.enclosure? = some f ∧ a.HasScope d.scope f.kind := by
  obtain ⟨s, hs, hsd, -⟩ := h.consistent.listed d hd
  obtain ⟨q, f, hq, -, henc, hqid, hk⟩ := h.place_of_scope ⟨s, hs, hsd, rfl⟩
  obtain rfl : q = p := Place.eq_of_id hn hq hp (hqid.trans hid.symm)
  exact ⟨f, henc, s, hs, hsd, hk.symm⟩

/-- A block that a binding belongs to declares something. -/
theorem block_of_binding (h : a.Records globals fn.acts) (hn : (ofFunction fn).ids.Nodup)
    (hd : d ∈ a.bindings) (hp : (ofFunction fn).Contains p) (hb : p.node = .block b)
    (hs : d.scope = b.mark.id) :
    b.lexicals ≠ [] ∧ a.blockScopes.lookup b.mark.id = some b.mark.id := by
  obtain ⟨f, henc, hf⟩ := h.enclosure_of_binding hn hd hp (by rw [hb, hs]; rfl)
  rw [hb] at henc
  obtain ⟨hne, rfl⟩ := Enclosure.ofBlock?_eq_some henc
  obtain ⟨-, -, -, -, -, -, hlookup⟩ := h.block_of_scope hf
  exact ⟨hne, hs ▸ hlookup⟩

/-- The header of a loop that a binding belongs to declares something. -/
theorem header_of_binding (h : a.Records globals fn.acts) (hn : (ofFunction fn).ids.Nodup)
    (hd : d ∈ a.bindings) (hp : (ofFunction fn).Contains p) {m : Mark} {hd : Header Mark}
    (hb : p.node = .stmt (.loop m hd b)) (hs : d.scope = m.id) : (headerLexical? hd).isSome := by
  obtain ⟨f, henc, -⟩ := h.enclosure_of_binding hn ‹_› hp (by rw [hb, hs]; rfl)
  rw [hb] at henc
  obtain ⟨l, hl, -⟩ := Enclosure.ofLoop?_eq_some henc
  rw [hl]
  rfl

/-- A block with names of its own is the body of a loop exactly if it is noted as one. -/
theorem isLoopBody_iff (h : a.Records globals fn.acts) (hn : (ofFunction fn).ids.Nodup)
    (hp : (ofFunction fn).Contains p) (hb : p.node = .block b) (hne : b.lexicals ≠ []) :
    fn.IsLoopBody b ↔ ∃ l ∈ a.loops, l.body = some b.mark.id := by
  have hown : b.own? = some b.mark.id := if_neg (by simpa using hne)
  rw [h.loops]
  constructor
  · rintro ⟨q, m, hd, hq, hnode⟩
    cases hsc : q.scope? with
    | none =>
      rw [Place.scope?_eq_none hq hsc] at hnode
      cases hnode
    | some sc =>
      refine ⟨⟨m.id, (headerLexical? hd).map fun _ => m.id, b.own?, sc⟩, ?_, hown⟩
      refine List.mem_filterMap.2 ⟨.notes _, FunctionDef.notes_mem_acts.2
        ⟨q, _, sc, hq, by rw [noted?, hnode], hsc, rfl⟩, rfl⟩
  · rintro ⟨l, hl, hlb⟩
    obtain ⟨x, hx, hxl⟩ := List.mem_filterMap.1 hl
    obtain rfl : x = .notes l := by
      cases x with
      | notes k => rw [Option.some.inj hxl]
      | _ => cases hxl
    obtain ⟨q, f, sc, hq, hf, -, rfl⟩ := FunctionDef.notes_mem_acts.1 hx
    unfold noted? at hf
    split at hf
    case h_2 => cases hf
    case h_1 m hd c hnode =>
      cases hf
      obtain ⟨g, -, hid⟩ := Block.own?_eq_some hlb
      have hc := hq.trans (.child (body_mem_children hnode) (.refl _))
      have hpc : under q.inner (.block c) = p := Place.eq_of_id hn hc hp
        (by rw [hb]; exact hid.symm)
      rw [← hpc] at hb
      cases hb
      exact ⟨q, m, hd, hq, hnode⟩

/-- What captures a binding stands inside of the scope of the binding. -/
theorem capturer_inside (h : a.Records globals fn.acts) (hn : (ofFunction fn).ids.Nodup)
    (hd : d ∈ a.bindings) (hp : (ofFunction fn).Contains p) (hid : p.node.mark.id = d.scope)
    {i : ScopeId} (hi : i ∈ a.capturersOf d.id) :
    ∃ q m ps body, p.Contains q ∧ q.node = .expr (.function m ps body) ∧ m.id = i := by
  obtain ⟨q, m, ps, body, hq, hnode, him, hout, -⟩ := (h.mem_capturersOf_iff hd).1 hi
  obtain ⟨f, hf, hfd⟩ := List.mem_map.1 hout
  obtain ⟨r, hr, hrq, hrf, -⟩ := hq.enclosed rfl hf
  obtain rfl : r = p := Place.eq_of_id hn hr hp
    (((hr.proper (proper_under _ _)).id hrf).symm.trans (hfd.trans hid.symm))
  exact ⟨q, m, ps, body, hrq, hnode, him⟩

end Scoping.Records

/-! ## Isolation -/

/-- A binding lives inside of a wrapper, and the place is what the wrapper is made of: a block, the
    body of a loop, or, for a binding in the header of a loop, the whole loop. -/
inductive Wrapper.Hosts (fn : FunctionDef Mark) (w : Wrapper) (d : Binding) : Place → Prop where
  | block {p : Place} {b : Block Mark} (place : (ofFunction fn).Contains p)
    (node : p.node = .block b)
    (plain : ¬ fn.IsLoopBody b) (wrapper : w.node = b.mark.id) (scope : d.scope = b.mark.id)
    (hosted : d.id ∈ w.locals) : Hosts fn w d p
  | body {p q : Place} {m : Mark} {h : Header Mark} {b : Block Mark}
    (loop : (ofFunction fn).Contains q)
    (loopNode : q.node = .stmt (.loop m h b)) (part : p ∈ q.children) (node : p.node = .block b)
    (wrapper : w.node = m.id) (scope : d.scope = b.mark.id) (hosted : d.id ∈ w.locals) :
    Hosts fn w d p
  | header {p : Place} {m : Mark} {h : Header Mark} {b : Block Mark}
    (place : (ofFunction fn).Contains p)
    (node : p.node = .stmt (.loop m h b)) (wrapper : w.node = m.id) (scope : d.scope = m.id)
    (hosted : d.id ∈ w.params) : Hosts fn w d p

/-- The place that a wrapper is made of has the number of the scope of a binding that lives in
    it. -/
theorem Wrapper.Hosts.place {fn : FunctionDef Mark} {w : Wrapper} {d : Binding} {p : Place}
    (h : w.Hosts fn d p) : (ofFunction fn).Contains p ∧ p.node.mark.id = d.scope := by
  cases h with
  | block hp hb _ _ hs => exact ⟨hp, by rw [hb, hs]; rfl⟩
  | body hq _ hc hb _ hs => exact ⟨hq.trans (.child hc (.refl _)), by rw [hb, hs]; rfl⟩
  | header hp hb _ hs => exact ⟨hp, by rw [hb, hs]; rfl⟩

/-- The binding lives inside of the wrapper that hosts it. -/
theorem Wrapper.Hosts.mem {fn : FunctionDef Mark} {w : Wrapper} {d : Binding} {p : Place}
    (h : w.Hosts fn d p) : d.id ∈ w.locals ++ w.params := by
  cases h with
  | block _ _ _ _ _ hd | body _ _ _ _ _ _ hd => exact List.mem_append_left _ hd
  | header _ _ _ _ hd => exact List.mem_append_right _ hd

/-- The wrappers isolate what is captured, and nothing else. -/
structure Analysis.Isolates (fn : FunctionDef Mark) (a : Analysis) : Prop where
  /-- No scope is covered by two wrappers. -/
  scopes : a.wrappedScopes.Nodup
  /-- No binding lives inside of two wrappers. -/
  bindings : a.wrappedBindings.Nodup
  /-- A captured binding of a block or of the header of a loop lives inside of a wrapper, and so
      does everything that captures it, or in the clauses of that header. -/
  captured : ∀ d ∈ a.scoping.bindings, ¬ a.scoping.HasScope d.scope .function →
    a.scoping.isCaptured d.id → ∃ w ∈ a.wrappers, ∃ p, w.Hosts fn d p ∧
      ∀ i ∈ a.scoping.capturersOf d.id, ∃ q m ps body, p.Contains q ∧
        q.node = .expr (.function m ps body) ∧ m.id = i
  /-- A block that is not the body of a loop has a wrapper if one of its own bindings is
      captured. -/
  blocks : ∀ p b, (ofFunction fn).Contains p → p.node = .block b → ¬ fn.IsLoopBody b →
    ((∃ w ∈ a.wrappers, w.node = b.mark.id) ↔
      ∃ d ∈ a.scoping.bindings, d.scope = b.mark.id ∧ a.scoping.isCaptured d.id)
  /-- A loop has a wrapper if a binding of its header or of its body is captured. -/
  loops : ∀ p m h b, (ofFunction fn).Contains p → p.node = .stmt (.loop m h b) →
    ((∃ w ∈ a.wrappers, w.node = m.id) ↔
      ∃ d ∈ a.scoping.bindings, (d.scope = m.id ∨ d.scope = b.mark.id) ∧ a.scoping.isCaptured d.id)
  /-- No nested function uses a binding of a block or of the header of a loop that lives inside of
      no wrapper. -/
  inlined : ∀ d ∈ a.scoping.bindings, ¬ a.scoping.HasScope d.scope .function →
    d.id ∉ a.wrappedBindings → ∀ p m ps body, (ofFunction fn).Contains p →
      p.node = .expr (.function m ps body) → d.scope ∈ p.around.map (·.id) →
        ∀ u, p.Contains u → ¬ u.Uses d

namespace FunctionDef.Analysed

variable {fn : FunctionDef Mark} {globals : List Name} {a : Analysis} {p : Place} {b : Block Mark}
  {d : Binding}

/-- A node has a wrapper exactly if one is made for it. -/
theorem exists_wrapper_iff (h : fn.Analysed globals a) {x : Node Mark} (hx : x ∈ fn.nodes) :
    (∃ w ∈ a.wrappers, w.node = x.mark.id) ↔ ∃ w, a.scoping.wrapper? x = some w := by
  rw [h.wrappers]
  constructor
  · rintro ⟨w, hw, hid⟩
    obtain ⟨y, hy, hyw⟩ := List.mem_filterMap.1 hw
    obtain rfl := node_unique h.nodup hy hx ((Scoping.wrapper?_node hyw).symm.trans hid)
    exact ⟨w, hyw⟩
  · rintro ⟨w, hw⟩
    exact ⟨w, List.mem_filterMap.2 ⟨x, hx, hw⟩, Scoping.wrapper?_node hw⟩

/-- Two wrappers are of two nodes. -/
theorem pairwise_wrappers (h : fn.Analysed globals a) {R : Wrapper → Wrapper → Prop}
    (hR : ∀ x y v w, a.scoping.wrapper? x = some v → a.scoping.wrapper? y = some w →
      x.mark.id ≠ y.mark.id → R v w) : a.wrappers.Pairwise R := by
  rw [h.wrappers, FunctionDef.wrappers, List.pairwise_filterMap]
  have hids := h.nodup
  rw [Node.ids, List.nodup_iff_pairwise_ne, List.pairwise_map] at hids
  exact hids.imp fun hne v hv w hw => hR _ _ v w hv hw hne

/-- Every wrapper is that of a node. -/
theorem of_mem_wrappers (h : fn.Analysed globals a) {w : Wrapper} (hw : w ∈ a.wrappers) :
    ∃ x, a.scoping.wrapper? x = some w := by
  rw [h.wrappers] at hw
  obtain ⟨x, -, hx⟩ := List.mem_filterMap.1 hw
  exact ⟨x, hx⟩

theorem wrappedScopes_nodup (h : fn.Analysed globals a) : a.wrappedScopes.Nodup := by
  refine List.nodup_flatMap.2
    ⟨fun w hw => ?_, h.pairwise_wrappers fun x y v w hv hw hne i hiv hiw =>
    hne (h.consistent.covered_unique hv hw hiv hiw)⟩
  obtain ⟨x, hx⟩ := h.of_mem_wrappers hw
  exact h.consistent.covered_nodup hx

theorem wrappedBindings_nodup (h : fn.Analysed globals a) : a.wrappedBindings.Nodup := by
  refine List.nodup_flatMap.2
    ⟨fun w hw => ?_, h.pairwise_wrappers fun x y v w hv hw hne i hiv hiw => ?_⟩
  · obtain ⟨x, hx⟩ := h.of_mem_wrappers hw
    exact h.consistent.hosted_nodup hx
  · -- Both wrappers would cover the scope of the binding.
    obtain ⟨d, hd, hdi, hds⟩ := h.consistent.of_hosted hv hiv
    obtain ⟨e, he, hei, hes⟩ := h.consistent.of_hosted hw hiw
    obtain rfl := h.consistent.eq_of_id hd he (hdi.trans hei.symm)
    exact hne (h.consistent.covered_unique hv hw hds hes)

/-- A block that is not the body of a loop has a wrapper exactly if one of its own bindings is
    captured. -/
theorem blockWrapper?_iff (h : fn.Analysed globals a) (hrec : a.scoping.Records globals fn.acts)
    (hp : (ofFunction fn).Contains p) (hb : p.node = .block b) (hno : ¬ fn.IsLoopBody b) :
    (∃ w, a.scoping.blockWrapper? b = some w) ↔
      ∃ d ∈ a.scoping.bindings, d.scope = b.mark.id ∧ a.scoping.isCaptured d.id := by
  rw [← h.consistent.needsWrapper_iff]
  constructor
  · rintro ⟨w, hw⟩
    obtain ⟨sc, hsc, -, hneeds, -⟩ := Scoping.blockWrapper?_eq_some.1 hw
    obtain rfl : sc = b.mark.id := (h.consistent.blocks _ (Table.mem_of_lookup hsc)).1
    exact hneeds
  · intro hneeds
    obtain ⟨d, hd, hds, -⟩ := h.consistent.needsWrapper_iff.1 hneeds
    obtain ⟨hne, hlookup⟩ := hrec.block_of_binding h.nodup hd hp hb hds
    refine ⟨_, Scoping.blockWrapper?_eq_some.2 ⟨_, hlookup, fun l hl hlb => hno ?_, hneeds, rfl⟩⟩
    exact (hrec.isLoopBody_iff h.nodup hp hb hne).2 ⟨l, hl, hlb⟩

/-- A loop has a wrapper exactly if a binding of its header or of its body is captured. -/
theorem loopWrapper?_iff (h : fn.Analysed globals a) (hrec : a.scoping.Records globals fn.acts)
    {m : Mark} {hd : Header Mark} (hp : (ofFunction fn).Contains p)
    (hnode : p.node = .stmt (.loop m hd b)) :
    (∃ w, a.scoping.loopWrapper? m.id b = some w) ↔ ∃ d ∈ a.scoping.bindings,
      (d.scope = m.id ∨ d.scope = b.mark.id) ∧ a.scoping.isCaptured d.id := by
  obtain ⟨sc, hl, -⟩ := h.noted _ (hnode ▸ hp.mem_nodes rfl)
  have hbody := hp.trans (.child (body_mem_children hnode) (.refl _))
  constructor
  · rintro ⟨w, hw⟩
    rcases hl.loopWrapper? with ⟨hnone, -⟩ | ⟨_, -, -, -, -, -, ⟨-, hneeds⟩ | ⟨-, hneeds⟩⟩
    · rw [hw] at hnone
      cases hnone
    all_goals obtain ⟨d, hd, hds, hc⟩ := h.consistent.needsWrapper_iff.1 hneeds
    · exact ⟨d, hd, .inl hds, hc⟩
    · exact ⟨d, hd, .inr hds, hc⟩
  · rintro ⟨d, hd, hds, hc⟩
    rcases hl.loopWrapper? with ⟨-, hheader, hblock⟩ | ⟨w, hw, -⟩
    · have hneeds : ∀ {id}, d.scope = id → a.scoping.needsWrapper id = true := fun hid =>
        h.consistent.needsWrapper_iff.2 ⟨d, hd, hid, hc⟩
      rcases hds with hds | hds
      · have := hheader (hrec.header_of_binding h.nodup hd hp hnode hds)
        rw [hneeds hds] at this
        cases this
      · have := hblock (hrec.block_of_binding h.nodup hd hbody rfl hds).1
        rw [hneeds hds] at this
        cases this
    · exact ⟨w, hw⟩

/-- A captured binding of a block or of the header of a loop lives inside of a wrapper. -/
theorem hosted_of_captured (h : fn.Analysed globals a) (hrec : a.scoping.Records globals fn.acts)
    (hd : d ∈ a.scoping.bindings) (hf : ¬ a.scoping.HasScope d.scope .function)
    (hc : a.scoping.isCaptured d.id) : ∃ w ∈ a.wrappers, ∃ p, w.Hosts fn d p := by
  have hlocal : ∀ {id}, d.scope = id → d.id ∈ a.scoping.bindingIdsOf id := fun hid =>
    h.consistent.mem_bindingIdsOf.2 ⟨d, hd, rfl, hid⟩
  obtain ⟨s, hs, hsd, -⟩ := h.consistent.listed d hd
  cases hk : s.kind with
  | function => exact absurd ⟨s, hs, hsd, hk⟩ hf
  | block =>
    obtain ⟨p, b, hp, hb, hid, hne, -⟩ := hrec.block_of_scope ⟨s, hs, hsd, hk⟩
    by_cases hbody : fn.IsLoopBody b
    · obtain ⟨q, m, hd', hq, hnode⟩ := hbody
      obtain ⟨w, hw⟩ := (h.loopWrapper?_iff hrec hq hnode).2 ⟨d, hd, .inr hid.symm, hc⟩
      obtain ⟨sc, hl, -⟩ := h.noted _ (hnode ▸ hq.mem_nodes rfl)
      obtain ⟨hww, -⟩ := h.of_wrappedLoop (hnode ▸ hq.mem_nodes rfl) hw
      rcases hl.loopWrapper? with ⟨hnone, -⟩ | ⟨v, hv, hvn, -, -, hvl, -⟩
      · rw [hw] at hnone
        cases hnone
      · obtain rfl : v = w := Option.some.inj (hv.symm.trans hw)
        refine ⟨v, hww, _, .body hq hnode (body_mem_children hnode) rfl hvn hid.symm ?_⟩
        rw [hvl, if_neg (by simpa using hne)]
        exact hlocal hid.symm
    · obtain ⟨w, hw⟩ := (h.blockWrapper?_iff hrec hp hb hbody).2 ⟨d, hd, hid.symm, hc⟩
      have hww : w ∈ a.wrappers := by
        rw [h.wrappers]
        exact List.mem_filterMap.2 ⟨_, hp.mem_nodes rfl, by rw [hb]; exact hw⟩
      obtain ⟨sc, hsc, -, -, rfl⟩ := Scoping.blockWrapper?_eq_some.1 hw
      obtain rfl : sc = b.mark.id := (h.consistent.blocks _ (Table.mem_of_lookup hsc)).1
      exact ⟨_, hww, p, .block hp hb hbody rfl hid.symm (hlocal hid.symm)⟩
  | loop =>
    obtain ⟨p, m, hd', b, hp, hnode, hid, hsome⟩ := hrec.loop_of_scope ⟨s, hs, hsd, hk⟩
    obtain ⟨w, hw⟩ := (h.loopWrapper?_iff hrec hp hnode).2 ⟨d, hd, .inl hid.symm, hc⟩
    obtain ⟨sc, hl, ho⟩ := h.noted _ (hnode ▸ hp.mem_nodes rfl)
    obtain ⟨hww, -⟩ := h.of_wrappedLoop (hnode ▸ hp.mem_nodes rfl) hw
    rcases hl.loopWrapper? with ⟨hnone, -⟩ | ⟨v, hv, hvn, -, hvp, -⟩
    · rw [hw] at hnone
      cases hnone
    · obtain rfl : v = w := Option.some.inj (hv.symm.trans hw)
      refine ⟨v, hww, p, .header hp hnode hvn hid.symm ?_⟩
      obtain ⟨l, hl'⟩ := Option.isSome_iff_exists.1 hsome
      obtain ⟨e, he, -, -, -, heo, hids⟩ := h.of_header ho hl'
      have hde : d.id = e.id := by simpa [hids] using hlocal hid.symm
      rw [hvp, Scoping.freshOf, if_pos hsome, hde, List.mem_filter,
        h.isPerIteration_eq he (headerLexical?_kind hl') heo, ← hde]
      exact ⟨hlocal hid.symm, hc⟩

/-- The wrappers of an analysed function isolate what is captured. -/
theorem isolates (h : fn.Analysed globals a) (hrec : a.scoping.Records globals fn.acts) :
    a.Isolates fn where
  scopes := h.wrappedScopes_nodup
  bindings := h.wrappedBindings_nodup
  captured d hd hf hc := by
    obtain ⟨w, hw, p, hp⟩ := h.hosted_of_captured hrec hd hf hc
    exact ⟨w, hw, p, hp, fun i hi => hrec.capturer_inside h.nodup hd hp.place.1 hp.place.2 hi⟩
  blocks p b hp hb hno := by
    have hx := h.exists_wrapper_iff (hb ▸ hp.mem_nodes rfl)
    exact hx.trans (h.blockWrapper?_iff hrec hp hb hno)
  loops p m hd b hp hnode := by
    have hx := h.exists_wrapper_iff (hnode ▸ hp.mem_nodes rfl)
    exact hx.trans (h.loopWrapper?_iff hrec hp hnode)
  inlined d hd hf hw p m ps body hp hnode hout u hu hud := by
    have hmem := (hrec.mem_capturersOf_iff hd).2 ⟨p, m, ps, body, hp, hnode, rfl, hout, u, hu, hud⟩
    have hc : a.scoping.isCaptured d.id = true := by
      simpa [Scoping.isCaptured] using List.ne_nil_of_mem hmem
    obtain ⟨w, hww, q, hq⟩ := h.hosted_of_captured hrec hd hf hc
    exact hw (List.mem_flatMap.2 ⟨w, hww, hq.mem⟩)

end FunctionDef.Analysed

/-- The wrappers of a function that passes the checks isolate exactly what is captured in it: no
    scope and no binding is in two of them, every captured binding of a block or of the header of a
    loop is in one, together with everything that captures it, no other block or loop has one, and
    what is in none is used by no nested function. -/
theorem FunctionDef.analyse_isolates {fn : FunctionDef Span} (hsrc : fn.IsSource)
    {globals : List Name} {hoisting : Bool} {a : Analysis}
    (h : fn.number.analyse globals hoisting = .ok a) : a.Isolates fn.number := by
  have hconsecutive := fn.numberFrom_consecutive 1
  obtain ⟨s, hs, -, rfl⟩ := FunctionDef.analyse_eq_ok.1 h
  exact (FunctionDef.analyse_analysed (fn.shaped_number.2 hsrc) hconsecutive h).isolates
    (FunctionDef.resolve_records hconsecutive hs).1

/-- The theorem for the function in `capturingHeader`, whose loop has a wrapper. -/
theorem FunctionDef.analyse_isolates_capturingHeader : ∃ a,
    capturingHeader.number.analyse ["g"] true = .ok a ∧ a.wrappers.map (·.params) = [[2]] ∧
      a.Isolates capturingHeader.number := by
  have hsrc : capturingHeader.IsSource := by
    simp [capturingHeader, FunctionDef.Shaped, Block.Shaped, Stmt.ShapedList, Stmt.Shaped,
      Header.Shaped, Expr.Shaped, Expr.ShapedList, Stmt.isInit, Stmt.isUpdate]
  have hparams : (capturingHeader.number.analyse ["g"] true).map (·.wrappers.map (·.params)) =
      .ok [[2]] := by rfl
  cases ha : capturingHeader.number.analyse ["g"] true with
  | error e =>
    rw [ha] at hparams
    cases hparams
  | ok a =>
    rw [ha] at hparams
    exact ⟨a, rfl, Except.ok.inj hparams, FunctionDef.analyse_isolates hsrc ha⟩

end FlatScope
