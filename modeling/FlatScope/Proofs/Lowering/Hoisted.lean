import FlatScope.Proofs.Lowering.Hoists

/-!
# Where lowered `var`s are declared

The `var`s at the top of a lowered function are those that are to be moved out of the wrappers in
it, each once, and every `var` of the function is declared at its top or by the rest of its code
(`LoweringPlan.HoistsVars`). The code of a wrapper declares none of the `var`s that are moved out of
it (`LoweringPlan.LeavesVars`): what it declares has a made-up name, or is a `let` or `const` that
is told from whatever is visible where the wrapper begins (`LoweringPlan.NamedApart`).

* `FunctionDef.lower_hoists`: this holds of every function and every wrapper in a lowered function,
  in which the declaration of a `var` in a wrapper has become an assignment.
-/

namespace FlatScope

open Node

namespace LoweringPlan

variable {p : LoweringPlan} {fn : FunctionDef Mark} {globals : List Name} {D : Demands} {r : Region}

/-- The `var`s at the top of a function are those of the wrappers in its code, each once, and every
    `var` of the function is declared in it. -/
structure HoistsVars (p : LoweringPlan) (ss : List (Stmt Mark)) (hoisted : List BindingId)
    (out : List (Stmt Span)) : Prop where
  distinct : (hoisted.map p.naming.nameOf).Nodup
  planned : ∀ b, b ∈ hoisted ↔ ∃ y ∈ Stmt.ownOfList ss, p.HoistsAt y b
  declared : ∀ v ∈ Stmt.varsOfList ss, ∃ b, p.analysis.scoping.declared? v.2.id = some b ∧
    p.naming.nameOf b.id ∈ (Stmt.varsOfList (p.hoistedDeclarations hoisted ++ out)).map (·.1)

/-- No `var` that is moved out of the code of a wrapper is declared in it. -/
def LeavesVars (p : LoweringPlan) (w : Wrapper) (code : List (Stmt Span)) : Prop :=
  ∀ b ∈ w.hoisted, p.naming.nameOf b ∉ (Stmt.varsOfList code).map (·.1)

/-! ## Every `var` is declared in its function -/

/-- A `var` is moved to the top of its function, or declared by the lowered code. -/
def DeclaredIn (p : LoweringPlan) (hoisted : List BindingId) (vars : List (Name × Span))
    (v : Name × Mark) : Prop :=
  ∃ b, p.analysis.scoping.declared? v.2.id = some b ∧
    (b.id ∈ hoisted ∨ p.naming.nameOf b.id ∈ vars.map (·.1))

theorem DeclaredIn.mono {bs cs : List BindingId} {vars ws : List (Name × Span)} {v : Name × Mark}
    (h : p.DeclaredIn bs vars v) (hb : ∀ b ∈ bs, b ∈ cs) (hv : ∀ x ∈ vars, x ∈ ws) :
    p.DeclaredIn cs ws v := by
  obtain ⟨b, hdecl, h⟩ := h
  refine ⟨b, hdecl, h.imp (hb _) fun h => ?_⟩
  obtain ⟨x, hx, he⟩ := List.mem_map.1 h
  exact List.mem_map.2 ⟨x, hv x hx, he⟩

/-- What is declared in a wrapper is moved out of it. -/
theorem Sound.declaredIn_wrapper (hp : p.Sound fn globals) {ss : List (Stmt Mark)} {fs : ScopeId}
    (hsrc : Stmt.AreSource ss) (hin : ∀ y ∈ Stmt.nodesOfList ss, y ∈ fn.nodes)
    (hvars : p.analysis.scoping.DeclaresVars fs (Stmt.varsOfList ss)) {vars : List (Name × Span)}
    {v : Name × Mark} (hv : v ∈ Stmt.varsOfList ss) :
    p.DeclaredIn (p.hoistsList true ss) vars v := by
  obtain ⟨d, hdecl, -⟩ := hvars v hv
  obtain ⟨i, hi, hd⟩ := Option.bind_eq_some_iff.1 hdecl
  obtain rfl := (Scoping.mem_of_binding? hd).2
  refine ⟨d, hdecl, .inl ?_⟩
  rw [hoistsList_true hp hsrc hin]
  exact List.mem_filterMap.2 ⟨v, hv, hi⟩

mutual

/-- The `var`s of a statement outside of wrappers. -/
theorem RendersStmt.declares (hp : p.Sound fn globals) :
    ∀ {s : Stmt Mark} {r : Region} {fs : ScopeId} {out : List (Stmt Span)}, s.IsSource →
    (∀ y ∈ s.nodes, y ∈ fn.nodes) → p.DrivesApart r → r.inWrapper = false →
    p.analysis.scoping.DeclaresVars fs s.vars → p.RendersStmt D r s out →
    ∀ v ∈ s.vars, p.DeclaredIn (p.hoists false s) (Stmt.varsOfList out) v
  | .declaration m n .var e, r, fs, out, _, _, hdr, hr, hvars, h, v, hv => by
    obtain rfl : v = (n, m) := List.mem_singleton.1 hv
    obtain ⟨b, hdecl, -, -, ho⟩ := hvars _ hv
    obtain ⟨e', rfl⟩ : ∃ e', out = p.rendersDeclaration r m b e' := by
      cases e with
      | none =>
        obtain ⟨c, hc, h⟩ := h
        obtain rfl := Option.some.inj (hc.symm.trans hdecl)
        exact ⟨_, h⟩
      | some e =>
        obtain ⟨c, e', hc, -, h⟩ := h
        obtain rfl := Option.some.inj (hc.symm.trans hdecl)
        exact ⟨_, h⟩
    obtain ⟨_, -, hb⟩ := Option.bind_eq_some_iff.1 hdecl
    refine ⟨b, hdecl, .inr ?_⟩
    rw [rendersDeclaration, if_neg (by simp [ho]), if_neg (by simp [hr]), nameOf,
      hdr.blocks b (Scoping.mem_of_binding? hb).1 ho]
    exact List.mem_cons_self
  | .declaration _ _ .letVar _, _, _, _, _, _, _, _, _, _, _, hv
  | .declaration _ _ .const _, _, _, _, _, _, _, _, _, _, _, hv
  | .assignment .., _, _, _, _, _, _, _, _, _, _, hv
  | .expression .., _, _, _, _, _, _, _, _, _, _, hv
  | .ret .., _, _, _, _, _, _, _, _, _, _, hv | .brk _, _, _, _, _, _, _, _, _, _, _, hv
  | .cont _, _, _, _, _, _, _, _, _, _, _, hv | .unknown .., _, _, _, _, _, _, _, _, _, _, hv =>
    absurd hv List.not_mem_nil
  | .block c, _, _, _, hsrc, hin, hdr, hr, hvars, h, v, hv => by
    have hsub : c.IsSource := hsrc
    obtain ⟨c', hc, rfl⟩ := h
    have hdeclared := RendersBlock.declares hp hsub hin hdr hr hvars hc v hv
    refine hdeclared.mono (fun _ hb => hb) fun x hx => ?_
    split
    · obtain ⟨k, ss⟩ := c'
      exact hx
    · exact List.mem_append_left _ hx
  | .branch _ _ t none, _, _, _, hsrc, hin, hdr, hr, hvars, h, v, hv => by
    obtain ⟨c', t', -, ht, rfl⟩ := h
    rw [Stmt.vars, List.append_nil] at hv hvars
    refine (RendersBlock.declares hp hsrc.2 (fun y hy => hin y (List.mem_cons_of_mem _
      (List.mem_append_right _ (List.mem_append_left _ hy)))) hdr hr hvars ht v hv).mono
        (fun _ hb => hb) fun x hx => ?_
    exact List.mem_append_left _ (List.mem_append_left _ hx)
  | .branch _ _ t (some e), _, _, _, hsrc, hin, hdr, hr, hvars, h, v, hv => by
    obtain ⟨c', t', e', -, ht, he, rfl⟩ := h
    rcases List.mem_append.1 hv with hv | hv
    · exact (RendersBlock.declares hp hsrc.2.1 (fun y hy => hin y (List.mem_cons_of_mem _
        (List.mem_append_right _ (List.mem_append_left _ hy)))) hdr hr
        (fun v hv => hvars v (List.mem_append_left _ hv)) ht v hv).mono
          (fun _ hb => List.mem_append_left _ hb)
          fun x hx => List.mem_append_left _ (List.mem_append_left _ hx)
    · exact (RendersBlock.declares hp hsrc.2.2 (fun y hy => hin y (List.mem_cons_of_mem _
        (List.mem_append_right _ (List.mem_append_right _ hy)))) hdr hr
        (fun v hv => hvars v (List.mem_append_right _ hv)) he v hv).mono
          (fun _ hb => List.mem_append_right _ hb)
          fun x hx => List.mem_append_left _ (List.mem_append_right _ hx)
  | .loop m hd (.mk k ss), r, _, _, hsrc, hin, hdr, hr, hvars, h, v, hv => by
    have hx : .stmt (.loop m hd (.mk k ss)) ∈ fn.nodes := hin _ List.mem_cons_self
    have hinh : ∀ y ∈ hd.nodes, y ∈ fn.nodes :=
      fun y hy => hin y (List.mem_cons_of_mem _ (List.mem_append_left _ hy))
    have hinb : ∀ y ∈ Stmt.nodesOfList ss, y ∈ fn.nodes := fun y hy =>
      hin y (Stmt.mem_nodes_body hy)
    have hvarsh := fun v hv => hvars v (List.mem_append_left (Block.mk k ss).vars hv)
    have hvarsb := fun v hv => hvars v (List.mem_append_right hd.vars hv)
    rw [RendersStmt] at h
    rw [hoists]
    cases hw : (p.loopPlan m.id).wrapper with
    | none =>
      rw [hw] at h
      obtain ⟨h', body, hh, hb, rfl⟩ := h
      rcases List.mem_append.1 hv with hv | hv
      · exact (RendersHeader.declares hp hsrc.1 hinh hdr hr hvarsh hh v hv).mono
          (fun _ hb => List.mem_append_left _ hb)
          fun x hx => List.mem_append_left _ (List.mem_append_left _ hx)
      · exact (RendersStmts.declares (r := r.loopBody) hp hsrc.2 hinb ⟨hdr.blocks, hdr.fresh⟩
          hr hvarsb hb v
          hv).mono (fun _ hb => List.mem_append_right _ hb)
            fun x hx => List.mem_append_left _ (List.mem_append_right _ hx)
    | some w =>
      rw [hw] at h
      obtain ⟨drivers, h', body, inner, callee, hdrivers, hh, -, -, -, hout⟩ := h
      rcases List.mem_append.1 hv with hv | hv
      · refine (RendersHeader.declares (r := r.loopHeader drivers) hp hsrc.1 hinh
          (hdr.loopHeader hp hx hdrivers) hr hvarsh hh v hv).mono
            (fun _ hb => List.mem_append_left _ hb) fun x hx => ?_
        rcases hout with ⟨-, rfl⟩ | ⟨n, -, -, rfl⟩
        · exact List.mem_append_left _ (List.mem_append_left _ hx)
        · exact List.mem_append_right _ (List.mem_append_left _ (List.mem_append_left _ hx))
      · exact (hp.declaredIn_wrapper hsrc.2 hinb hvarsb hv).mono
          (fun _ hb => List.mem_append_right _ hb)
          fun _ hx => hx

theorem RendersStmts.declares (hp : p.Sound fn globals) : ∀ {ss : List (Stmt Mark)} {r : Region}
    {fs : ScopeId} {out : List (Stmt Span)}, Stmt.AreSource ss →
    (∀ y ∈ Stmt.nodesOfList ss, y ∈ fn.nodes) →
    p.DrivesApart r → r.inWrapper = false →
    p.analysis.scoping.DeclaresVars fs (Stmt.varsOfList ss) →
    p.RendersStmts D r ss out →
    ∀ v ∈ Stmt.varsOfList ss, p.DeclaredIn (p.hoistsList false ss) (Stmt.varsOfList out) v
  | [], _, _, _, _, _, _, _, _, _, _, hv => absurd hv List.not_mem_nil
  | s :: ss, _, _, _, hsrc, hin, hdr, hr, hvars, h, v, hv => by
    obtain ⟨o, os, ho, hos, rfl⟩ := h
    rw [Stmt.varsOfList_append]
    rcases List.mem_append.1 hv with hv | hv
    · exact (RendersStmt.declares hp hsrc.1 (fun y hy => hin y (List.mem_append_left _ hy)) hdr hr
        (fun v hv => hvars v (List.mem_append_left _ hv)) ho v hv).mono
          (fun _ hb => List.mem_append_left _ hb) fun _ hx => List.mem_append_left _ hx
    · exact (RendersStmts.declares hp hsrc.2 (fun y hy => hin y (List.mem_append_right _ hy)) hdr hr
        (fun v hv => hvars v (List.mem_append_right _ hv)) hos v hv).mono
          (fun _ hb => List.mem_append_right _ hb) fun _ hx => List.mem_append_right _ hx

theorem RendersBlock.declares (hp : p.Sound fn globals) :
    ∀ {c : Block Mark} {r : Region} {fs : ScopeId} {x : Block Span}, c.IsSource →
    (∀ y ∈ c.nodes, y ∈ fn.nodes) → p.DrivesApart r → r.inWrapper = false →
    p.analysis.scoping.DeclaresVars fs c.vars → p.RendersBlock D r c x →
    ∀ v ∈ c.vars, p.DeclaredIn (p.hoistsBlock false c) x.vars v
  | .mk m ss, _, _, _, hsrc, hin, hdr, hr, hvars, h, v, hv => by
    have hin' : ∀ y ∈ Stmt.nodesOfList ss, y ∈ fn.nodes :=
      fun y hy => hin y (List.mem_cons_of_mem _ hy)
    rw [RendersBlock] at h
    rw [hoistsBlock]
    cases hw : p.analysis.wrapper? m.id with
    | none =>
      rw [hw] at h
      obtain ⟨out, hout, rfl⟩ := h
      exact RendersStmts.declares hp hsrc hin' hdr hr hvars hout v hv
    | some w => exact hp.declaredIn_wrapper hsrc hin' hvars hv

theorem RendersHeader.declares (hp : p.Sound fn globals) : ∀ {h : Header Mark} {r : Region}
    {fs : ScopeId} {x : Header Span}, h.IsSource → (∀ y ∈ h.nodes, y ∈ fn.nodes) → p.DrivesApart r →
    r.inWrapper = false → p.analysis.scoping.DeclaresVars fs h.vars → p.RendersHeader D r h x →
    ∀ v ∈ h.vars, p.DeclaredIn (p.hoistsHeader false h) x.vars v
  | .whileTrue .., _, _, _, _, _, _, _, _, _, _, hv
  | .counting _ none _ _, _, _, _, _, _, _, _, _, _, _, hv
  | .forOf _ _ none _, _, _, _, _, _, _, _, _, _, _, hv
  | .forOf _ _ (some .letVar) _, _, _, _, _, _, _, _, _, _, _, hv
  | .forOf _ _ (some .const) _, _, _, _, _, _, _, _, _, _, _, hv
  | .unknown .., _, _, _, _, _, _, _, _, _, _, hv => absurd hv List.not_mem_nil
  | .counting m (some i) c u, _, _, _, hsrc, hin, hdr, hr, hvars, h, v, hv => by
    obtain ⟨hi, -, -⟩ := Header.shaped_counting.1 hsrc
    obtain ⟨i', c', u', ⟨-, hi'⟩, -, -, rfl⟩ := rendersHeader_counting.1 h
    rw [Header.nodes_counting] at hin
    rw [hoistsHeader_counting]
    refine (RendersStmt.declares hp (hi i rfl).2
      (fun y hy => hin y (List.mem_cons_of_mem _ (List.mem_append_left _ hy))) hdr hr
      hvars (hi' i rfl) v
      hv).mono (fun _ hb => List.mem_append_left _ hb) fun x hx => ?_
    cases i' with
    | none => exact absurd hx List.not_mem_nil
    | some o => exact (List.mem_append.1 hx).resolve_right List.not_mem_nil
  | .forOf m n (some .var) e, _, _, _, _, _, hdr, hr, hvars, h, v, hv => by
    obtain rfl : v = (n, m) := List.mem_singleton.1 hv
    obtain ⟨b, hdecl, -, -, ho⟩ := hvars _ hv
    obtain ⟨e', n', k', -, ⟨c, hc, rfl, rfl⟩, rfl⟩ := h
    obtain rfl := Option.some.inj (hc.symm.trans hdecl)
    obtain ⟨_, -, hb⟩ := Option.bind_eq_some_iff.1 hdecl
    refine ⟨c, hdecl, .inr ?_⟩
    rw [if_neg (by simp [hr]), nameOf, hdr.blocks c (Scoping.mem_of_binding? hb).1 ho]
    exact List.mem_cons_self

end

/-! ## What a `var` means inside of its function -/

/-- What a name means in a block, it means around the block if it is a `var` or a parameter. -/
theorem Sound.lookup?_outside (hp : p.Sound fn globals) {c : Block Mark} {sc : ScopeId}
    (ho : p.analysis.scoping.OpensBlock c sc) {n : Name} {d : Binding}
    (hd : d.origin.isFunctionScoped)
    (h : p.analysis.scoping.lookup? (c.scopeIn sc) n = some d) :
    p.analysis.scoping.lookup? sc n = some d := by
  by_cases hne : c.lexicals = []
  · rwa [Block.scopeIn_of_nil hne] at h
  · rw [Block.scopeIn_of_ne_nil hne] at h
    refine (hp.analysed.consistent.of_lookup?_inner (ho.scope hne).2 h).resolve_left fun hs => ?_
    obtain ⟨-, -, -, hno⟩ := lexical_of_block hp ho hne (hp.analysed.consistent.of_lookup? h).1 hs
    exact Bool.false_ne_true (hno.symm.trans hd)

/-- What a name means in the header of a loop, it means around the loop if it is a `var` or a
    parameter. -/
theorem Sound.lookup?_outsideHeader (hp : p.Sound fn globals) {h : Header Mark} {loop : NodeId}
    {sc : ScopeId} (ho : p.analysis.scoping.OpensLoop loop h sc) {n : Name} {d : Binding}
    (hd : d.origin.isFunctionScoped)
    (hn : p.analysis.scoping.lookup? (h.scopeIn loop sc) n = some d) :
    p.analysis.scoping.lookup? sc n = some d := by
  have hcons := hp.analysed.consistent
  cases hlex : Resolve.headerLexical? h with
  | none => rwa [Header.scopeIn, hlex] at hn
  | some l =>
    rw [Header.scopeIn, hlex, Option.isSome_some, if_pos rfl] at hn
    refine (hcons.of_lookup?_inner (ho l hlex).1 hn).resolve_left fun hs => ?_
    obtain ⟨e, he, -, -, -, heo, hids⟩ := hp.analysed.of_header ho hlex
    have hid : d.id = e.id := by
      have := hcons.mem_bindingIdsOf.2 ⟨d, (hcons.of_lookup? hn).1, rfl, hs⟩
      simpa [hids] using this
    obtain rfl := hp.analysed.eq_of_id (hcons.of_lookup? hn).1 he hid
    have hno := Origin.not_functionScoped (k := l.kind) (o := d.origin) (by rw [heo]; rfl)
      (Resolve.headerLexical?_kind hlex)
    exact Bool.false_ne_true (hno.symm.trans hd)

/-- A `var` is known in a scope. -/
def KnownIn (p : LoweringPlan) (sc : ScopeId) (v : Name × Mark) : Prop :=
  ∃ d, p.analysis.scoping.declared? v.2.id = some d ∧ d.origin.isFunctionScoped ∧
    p.analysis.scoping.lookup? sc v.1 = some d

theorem known_of_declares {fs sc : ScopeId} {m : Mark} {n : Name}
    (h : p.analysis.scoping.Declares fs sc m.id n .var) : p.KnownIn sc (n, m) := by
  obtain ⟨d, hd, hl, hk⟩ := h
  exact ⟨d, hd, hk.2, hl⟩

mutual

/-- The `var`s of a statement are known in its scope. -/
theorem Sound.vars_known (hp : p.Sound fn globals) :
    ∀ {s : Stmt Mark} {fs sc : ScopeId} {inLoop : Bool}, p.analysis.scoping.ResolvedStmt globals fs
    sc inLoop s → ∀ v ∈ s.vars, p.KnownIn sc v
  | .declaration m n .var none, _, _, _, hres, v, hv
  | .declaration m n .var (some _), _, _, _, hres, v, hv => by
    obtain rfl : v = (n, m) := List.mem_singleton.1 hv
    exact known_of_declares hres.1
  | .declaration _ _ .letVar _, _, _, _, _, _, hv | .declaration _ _ .const _, _, _, _, _, _, hv
  | .assignment .., _, _, _, _, _, hv | .expression .., _, _, _, _, _, hv
  | .ret .., _, _, _, _, _, hv
  | .brk _, _, _, _, _, _, hv | .cont _, _, _, _, _, _, hv | .unknown .., _, _, _, _, _, hv =>
    absurd hv List.not_mem_nil
  | .block c, _, _, _, hres, v, hv => hp.vars_knownBlock (c := c) hres.2 v hv
  | .branch _ _ t none, _, _, _, hres, v, hv =>
    hp.vars_knownBlock hres.2.2 v ((List.mem_append.1 hv).resolve_right List.not_mem_nil)
  | .branch _ _ t (some e), _, _, _, hres, v, hv =>
    (List.mem_append.1 hv).elim (hp.vars_knownBlock hres.2.2.1 v)
      (hp.vars_knownBlock hres.2.2.2.2 v)
  | .loop m h c, _, _, _, hres, v, hv => by
    obtain ⟨-, ho, hresh, hresb⟩ := hres
    have hknown : p.KnownIn (h.scopeIn m.id _) v :=
      (List.mem_append.1 hv).elim (hp.vars_knownHeader hresh v) (hp.vars_knownBlock hresb v)
    obtain ⟨d, hdecl, hd, hl⟩ := hknown
    exact ⟨d, hdecl, hd, hp.lookup?_outsideHeader ho hd hl⟩

theorem Sound.vars_knownList (hp : p.Sound fn globals) : ∀ {ss : List (Stmt Mark)} {fs sc : ScopeId}
    {inLoop : Bool}, p.analysis.scoping.ResolvedStmts globals fs sc inLoop ss →
    ∀ v ∈ Stmt.varsOfList ss, p.KnownIn sc v
  | [], _, _, _, _, _, hv => absurd hv List.not_mem_nil
  | _ :: _, _, _, _, hres, v, hv =>
    (List.mem_append.1 hv).elim (hp.vars_known hres.1 v) (hp.vars_knownList hres.2 v)

theorem Sound.vars_knownBlock (hp : p.Sound fn globals) : ∀ {c : Block Mark} {fs sc : ScopeId}
    {inLoop : Bool}, p.analysis.scoping.ResolvedBlock globals fs sc inLoop c →
    ∀ v ∈ c.vars, p.KnownIn sc v
  | .mk _ _, _, _, _, hres, v, hv => by
    obtain ⟨d, hdecl, hd, hl⟩ := hp.vars_knownList hres.2 v hv
    exact ⟨d, hdecl, hd, hp.lookup?_outside hres.1 hd hl⟩

/-- The `var`s of the header of a loop are known where its clauses run. -/
theorem Sound.vars_knownHeader (hp : p.Sound fn globals) : ∀ {h : Header Mark} {fs sc : ScopeId}
    {loop : NodeId}, p.analysis.scoping.ResolvedHeader globals fs sc loop h →
    ∀ v ∈ h.vars, p.KnownIn (h.scopeIn loop sc) v
  | .counting _ (some i) _ _, _, _, _, hres, v, hv =>
    hp.vars_known ((Scoping.resolvedHeader_counting.1 hres).1 i rfl) v hv
  | .forOf m n (some .var) _, _, _, _, hres, v, hv => by
    obtain rfl : v = (n, m) := List.mem_singleton.1 hv
    exact known_of_declares hres.2.1
  | .whileTrue .., _, _, _, _, _, hv | .counting _ none _ _, _, _, _, _, _, hv
  | .forOf _ _ none _, _, _, _, _, _, hv | .forOf _ _ (some .letVar) _, _, _, _, _, _, hv
  | .forOf _ _ (some .const) _, _, _, _, _, _, hv | .unknown .., _, _, _, _, _, hv =>
    absurd hv List.not_mem_nil

end

/-! ## What the code of a wrapper declares -/

/-- The name of a variable in the code of the wrapper of a scope: it is made up, or that of a `let`
    or `const` of the scope or of an inlined one. -/
def NamedApart (p : LoweringPlan) (root : ScopeId) (x : Name) : Prop :=
  x ∉ p.naming.supply.taken ∨ ∃ c ∈ p.analysis.scoping.bindings, c.origin.isFunctionScoped = false ∧
    x = p.naming.nameOf c.id ∧ (c.scope = root ∨ p.analysis.Inlined c)

/-- The `let`s and `const`s of a scope have drivers, live in the wrapper of the scope `root`, or are
    inlined. -/
def LivesIn (p : LoweringPlan) (r : Region) (root sc : ScopeId) : Prop :=
  ∀ c ∈ p.analysis.scoping.bindings, c.scope = sc → c.origin.isFunctionScoped = false →
    (r.drivers.lookup c.id).isSome ∨ c.scope = root ∨ p.analysis.Inlined c

variable {root : ScopeId}

theorem LivesIn.named {sc : ScopeId} (h : p.LivesIn r root sc) (hdr : p.DrivesApart r) {c : Binding}
    (hc : c ∈ p.analysis.scoping.bindings) (hs : c.scope = sc)
    (hno : c.origin.isFunctionScoped = false) :
    p.NamedApart root (p.nameOf r c.id) := by
  rw [nameOf]
  cases hl : r.drivers.lookup c.id with
  | some x => exact .inl (hdr.fresh _ (Table.mem_of_lookup hl))
  | none =>
    refine .inr ⟨c, hc, hno, rfl, (h c hc hs hno).resolve_left ?_⟩
    rw [hl]
    exact Bool.false_ne_true

/-- A variable that a call of a wrapper declares has a made-up name. -/
theorem CallsBy.vars {exits : List Exit} {site : CallSite} {s : Span} {call : Expr Span}
    {out : List (Stmt Span)} (h : p.CallsBy r exits site s call out) :
    ∀ v ∈ Stmt.varsOfList out, p.NamedApart root v.1 := by
  rw [CallsBy] at h
  split at h
  · subst h
    exact fun v hv => absurd hv List.not_mem_nil
  · obtain ⟨sig, -, -, hnew, rfl⟩ := h
    intro v hv
    rw [Stmt.varsOfList, Stmt.varsOfList_eq_nil fun x hx =>
      (handlers_flat site sig exits _ s x hx).2] at hv
    obtain rfl := List.mem_singleton.1 hv
    exact .inl hnew

theorem exitStmts_vars (k : SignalKind) (v : Option (Expr Span)) (ws : WriteBacks) (s : Span) :
    Stmt.varsOfList (exitStmts k v ws s) = [] := by
  rw [exitStmts, Stmt.varsOfList_append, Stmt.varsOfList_eq_nil fun x hx =>
    (writeBackStmts_flat ws x hx).2]
  rfl

/-- Leaving a region declares nothing. -/
theorem leave_vars {e : Exit} {v : Option (Expr Span)} {s : Span} {plain : Stmt Span}
    (h : plain.vars = []) : Stmt.varsOfList (Lower.leave r e v s plain) = [] := by
  rw [Lower.leave]
  split
  · exact exitStmts_vars ..
  · rw [Stmt.varsOfList, h]
    rfl

/-- The end of a wrapper declares nothing. -/
theorem wrapperCode_vars (w : Wrapper) (ws : WriteBacks) (ss : List (Stmt Span)) :
    Stmt.varsOfList (Lower.wrapperCode w ws ss) = Stmt.varsOfList ss := by
  rw [Lower.wrapperCode, Stmt.varsOfList_append]
  split
  · rw [Stmt.varsOfList_eq_nil fun x hx => (writeBackStmts_flat ws x hx).2, List.append_nil]
  · rw [epilogue, exitStmts_vars, List.append_nil]

/-- A declaration in the code of a wrapper. -/
theorem Sound.declaration_named (hp : p.Sound fn globals) {fs sc : ScopeId} {m : Mark} {n : Name}
    {k : DeclKind} (hdecl : p.analysis.scoping.Declares fs sc m.id n k) (hdr : p.DrivesApart r)
    (hr : r.inWrapper = true) (hl : p.LivesIn r root sc) {b : Binding}
    (hb : p.analysis.scoping.declared? m.id = some b) {value : Option (Expr Span)} :
    ∀ v ∈ Stmt.varsOfList (p.rendersDeclaration r m b value), p.NamedApart root v.1 := by
  obtain ⟨c, hc, hdec, -, hk⟩ := Lower.declares_binding hp hdecl
  obtain rfl := Option.some.inj (hdec.symm.trans hb)
  intro v hv
  rw [rendersDeclaration] at hv
  rcases hk with ⟨-, hs, hno⟩ | ⟨-, -, hf⟩
  · rw [if_pos hno] at hv
    obtain rfl := List.mem_singleton.1 hv
    exact hl.named hdr hc hs hno
  · rw [if_neg (by simp [hf]), if_pos hr] at hv
    cases value <;> exact absurd hv List.not_mem_nil

mutual

/-- What a statement in the code of a wrapper declares. -/
theorem RendersStmt.named (hp : p.Sound fn globals) :
    ∀ {s : Stmt Mark} {r : Region} {fs sc : ScopeId} {inLoop : Bool} {out : List (Stmt Span)},
    s.IsSource → (∀ y ∈ s.nodes, y ∈ fn.nodes) →
    p.analysis.scoping.ResolvedStmt globals fs sc inLoop s → p.DrivesApart r → r.inWrapper = true →
    p.LivesIn r root sc → p.RendersStmt D r s out → ∀ v ∈ Stmt.varsOfList out, p.NamedApart root v.1
  | .declaration _ _ _ none, _, _, _, _, _, _, _, hres, hdr, hr, hl, h => by
    obtain ⟨b, hb, rfl⟩ := h
    exact hp.declaration_named hres.1 hdr hr hl hb
  | .declaration _ _ _ (some _), _, _, _, _, _, _, _, hres, hdr, hr, hl, h => by
    obtain ⟨b, e', hb, -, rfl⟩ := h
    exact hp.declaration_named hres.1 hdr hr hl hb
  | .assignment .., _, _, _, _, _, _, _, _, _, _, _, h => by
    obtain ⟨t', v', -, -, rfl⟩ := h
    exact fun v hv => absurd hv List.not_mem_nil
  | .expression .., _, _, _, _, _, _, _, _, _, _, _, h => by
    obtain ⟨e', -, rfl⟩ := h
    exact fun v hv => absurd hv List.not_mem_nil
  | .block c, r, _, _, _, _, hsrc, hin, hres, hdr, hr, hl, h => by
    have hsub : c.IsSource := hsrc
    obtain ⟨c', hc, rfl⟩ := h
    intro v hv
    refine RendersBlock.named hp hsub hin hres.1 hres.2 hdr hr hl hc v ?_
    split at hv
    · obtain ⟨k, ss⟩ := c'
      exact hv
    · exact (List.mem_append.1 hv).resolve_right List.not_mem_nil
  | .branch _ _ t none, _, _, _, _, _, hsrc, hin, hres, hdr, hr, hl, h => by
    obtain ⟨c', t', -, ht, rfl⟩ := h
    intro v hv
    refine RendersBlock.named hp hsrc.2 (fun y hy => hin y (List.mem_cons_of_mem _
      (List.mem_append_right _ (List.mem_append_left _ hy)))) hres.2.1 hres.2.2 hdr hr hl ht v ?_
    simpa [Stmt.varsOfList, Stmt.vars] using hv
  | .branch _ _ t (some e), _, _, _, _, _, hsrc, hin, hres, hdr, hr, hl, h => by
    obtain ⟨c', t', e', -, ht, he, rfl⟩ := h
    intro v hv
    have hv : v ∈ t'.vars ∨ v ∈ e'.vars := by simpa [Stmt.varsOfList, Stmt.vars] using hv
    rcases hv with hv | hv
    · exact RendersBlock.named hp hsrc.2.1 (fun y hy => hin y (List.mem_cons_of_mem _
        (List.mem_append_right _ (List.mem_append_left _ hy)))) hres.2.1 hres.2.2.1
        hdr hr hl ht v hv
    · exact RendersBlock.named hp hsrc.2.2 (fun y hy => hin y (List.mem_cons_of_mem _
        (List.mem_append_right _ (List.mem_append_right _ hy)))) hres.2.2.2.1 hres.2.2.2.2
        hdr hr hl he v hv
  | .loop m hd (.mk k ss), r, fs, sc, _, _, hsrc, hin, hres, hdr, hr, hl, h => by
    have hx : .stmt (.loop m hd (.mk k ss)) ∈ fn.nodes := hin _ List.mem_cons_self
    have hinh : ∀ y ∈ hd.nodes, y ∈ fn.nodes :=
      fun y hy => hin y (List.mem_cons_of_mem _ (List.mem_append_left _ hy))
    have hinb : ∀ y ∈ Stmt.nodesOfList ss, y ∈ fn.nodes := fun y hy =>
      hin y (Stmt.mem_nodes_body hy)
    obtain ⟨hhas, ho, hresh, hob, hresb⟩ := hres
    rw [RendersStmt] at h
    cases hw : (p.loopPlan m.id).wrapper with
    | none =>
      have hplain : p.analysis.scoping.loopWrapper? m.id (.mk k ss) = none :=
        (hp.analysed.wrapper? hx).symm.trans ((hp.loopPlan_wrapper hx).symm.trans hw)
      rw [hw] at h
      obtain ⟨h', body, hh, hb, rfl⟩ := h
      have hlh : p.LivesIn r root (hd.scopeIn m.id sc) := fun c hc hs hno => by
        rw [Header.scopeIn] at hs
        split at hs
        · exact .inr (.inr (hp.analysed.of_plainLoop hx hhas ho hob hplain hc (.inl ⟨‹_›, hs⟩)).1)
        · exact hl c hc hs hno
      have hlb : p.LivesIn r root ((Block.mk k ss).scopeIn (hd.scopeIn m.id sc)) :=
        fun c hc hs hno => by
        by_cases hne : (Block.mk k ss).lexicals = []
        · exact hlh c hc (by rwa [Block.scopeIn_of_nil hne] at hs) hno
        · rw [show (Block.mk k ss).scopeIn (hd.scopeIn m.id sc) = k.id from
            Block.scopeIn_of_ne_nil hne] at hs
          exact .inr (.inr (hp.analysed.of_plainLoop hx hhas ho hob hplain hc (.inr ⟨hne, hs⟩)).1)
      intro v hv
      have hv : v ∈ h'.vars ∨ v ∈ Stmt.varsOfList body := by
        simpa [Stmt.varsOfList, Stmt.vars, Block.vars] using hv
      rcases hv with hv | hv
      · exact RendersHeader.named hp hsrc.1 hinh hresh hdr hr hlh hh v hv
      · exact RendersStmts.named (r := r.loopBody) hp hsrc.2 hinb hresb ⟨hdr.blocks, hdr.fresh⟩
          hr hlb hb v hv
    | some w =>
      rw [hw] at h
      obtain ⟨drivers, h', body, inner, callee, hdrivers, hh, -, hcalls, -, hout⟩ := h
      have hfresh := (hp.of_wrappedLoop hx hhas hw).1
      have hlh : p.LivesIn (r.loopHeader drivers) root (hd.scopeIn m.id sc) := fun c hc hs hno => by
        cases hd' : drivers.lookup c.id with
        | some x =>
          refine .inl ?_
          rw [Region.loopHeader, Table.lookup_append_of_some hd']
          rfl
        | none =>
          rw [Table.lookup_eq_none, hdrivers.keys, hfresh] at hd'
          rw [Region.loopHeader, Table.lookup_append_of_none (Table.lookup_eq_none.2
            (by rwa [hdrivers.keys, hfresh]))]
          rw [Header.scopeIn] at hs
          split at hs
          · exact .inr (.inr (hp.analysed.of_sharedHeader hx ho ‹_› hc hs hd').1)
          · exact hl c hc hs hno
      intro v hv
      have hv : v.1 ∉ p.naming.supply.taken ∨ v ∈ h'.vars ∨ v ∈ Stmt.varsOfList inner := by
        rcases hout with ⟨-, rfl⟩ | ⟨n, hn, -, rfl⟩
        · exact .inr (by simpa [Stmt.varsOfList, Stmt.vars, Block.vars] using hv)
        · have hv : v = (n, m.span) ∨ v ∈ h'.vars ∨ v ∈ Stmt.varsOfList inner := by
            simpa [Stmt.varsOfList, Stmt.vars, Block.vars] using hv
          rcases hv with rfl | hv
          · exact .inl hn
          · exact .inr hv
      rcases hv with hv | hv | hv
      · exact .inl hv
      · exact RendersHeader.named (r := r.loopHeader drivers) hp hsrc.1 hinh hresh
          (hdr.loopHeader hp hx hdrivers) hr hlh hh v hv
      · exact hcalls.vars v hv
  | .ret _ none, _, _, _, _, _, _, _, _, _, _, _, h => by
    obtain rfl := h
    rw [leave_vars rfl]
    exact fun v hv => absurd hv List.not_mem_nil
  | .ret _ (some _), _, _, _, _, _, _, _, _, _, _, _, h => by
    obtain ⟨e', -, rfl⟩ := h
    rw [leave_vars rfl]
    exact fun v hv => absurd hv List.not_mem_nil
  | .brk _, _, _, _, _, _, _, _, _, _, _, _, h | .cont _, _, _, _, _, _, _, _, _, _, _, _, h => by
    obtain rfl := h
    intro v hv
    split at hv
    · exact absurd hv List.not_mem_nil
    · rw [leave_vars rfl] at hv
      exact absurd hv List.not_mem_nil
  | .unknown .., _, _, _, _, _, hsrc, _, _, _, _, _, _ => hsrc.elim

theorem RendersStmts.named (hp : p.Sound fn globals) : ∀ {ss : List (Stmt Mark)} {r : Region}
    {fs sc : ScopeId} {inLoop : Bool} {out : List (Stmt Span)}, Stmt.AreSource ss →
    (∀ y ∈ Stmt.nodesOfList ss, y ∈ fn.nodes) →
    p.analysis.scoping.ResolvedStmts globals fs sc inLoop ss →
    p.DrivesApart r → r.inWrapper = true → p.LivesIn r root sc → p.RendersStmts D r ss out →
    ∀ v ∈ Stmt.varsOfList out, p.NamedApart root v.1
  | [], _, _, _, _, _, _, _, _, _, _, _, h => by
    obtain rfl := h
    exact fun v hv => absurd hv List.not_mem_nil
  | _ :: _, _, _, _, _, _, hsrc, hin, hres, hdr, hr, hl, h => by
    obtain ⟨o, os, ho, hos, rfl⟩ := h
    intro v hv
    rw [Stmt.varsOfList_append] at hv
    rcases List.mem_append.1 hv with hv | hv
    · exact RendersStmt.named hp hsrc.1 (fun y hy => hin y (List.mem_append_left _ hy)) hres.1
        hdr hr hl ho v hv
    · exact RendersStmts.named hp hsrc.2 (fun y hy => hin y (List.mem_append_right _ hy))
        hres.2 hdr hr hl hos
        v hv

theorem RendersBlock.named (hp : p.Sound fn globals) : ∀ {c : Block Mark} {r : Region}
    {fs sc : ScopeId} {inLoop : Bool} {x : Block Span}, c.IsSource → (∀ y ∈ c.nodes, y ∈ fn.nodes) →
    p.analysis.scoping.NoLoopBody c → p.analysis.scoping.ResolvedBlock globals fs sc inLoop c →
    p.DrivesApart r → r.inWrapper = true → p.LivesIn r root sc → p.RendersBlock D r c x →
    ∀ v ∈ x.vars, p.NamedApart root v.1
  | .mk m ss, r, _, sc, _, _, hsrc, hin, hnl, hres, hdr, hr, hl, h => by
    have hx : .block (.mk m ss) ∈ fn.nodes := hin _ List.mem_cons_self
    rw [RendersBlock] at h
    cases hw : p.analysis.wrapper? m.id with
    | none =>
      have hplain : p.analysis.scoping.blockWrapper? (.mk m ss) = none :=
        (hp.analysed.wrapper? hx).symm.trans hw
      rw [hw] at h
      obtain ⟨out, hout, rfl⟩ := h
      have hlb : p.LivesIn r root ((Block.mk m ss).scopeIn sc) := fun c hc hs hno => by
        by_cases hne : (Block.mk m ss).lexicals = []
        · exact hl c hc (by rwa [Block.scopeIn_of_nil hne] at hs) hno
        · rw [show (Block.mk m ss).scopeIn sc = m.id from Block.scopeIn_of_ne_nil hne] at hs
          exact .inr (.inr (hp.analysed.of_plainBlock hx hres.1 hnl hplain hne hc hs).1)
      exact RendersStmts.named hp hsrc (fun y hy => hin y (List.mem_cons_of_mem _ hy)) hres.2
        hdr hr hlb hout
    | some w =>
      rw [hw] at h
      obtain ⟨body, out, -, hcalls, -, rfl⟩ := h
      exact hcalls.vars

theorem RendersHeader.named (hp : p.Sound fn globals) : ∀ {h : Header Mark} {r : Region}
    {fs sc : ScopeId} {loop : NodeId} {x : Header Span}, h.IsSource →
    (∀ y ∈ h.nodes, y ∈ fn.nodes) →
    p.analysis.scoping.ResolvedHeader globals fs sc loop h → p.DrivesApart r → r.inWrapper = true →
    p.LivesIn r root (h.scopeIn loop sc) → p.RendersHeader D r h x →
    ∀ v ∈ x.vars, p.NamedApart root v.1
  | .whileTrue .., _, _, _, _, _, _, _, _, _, _, _, h => by
    obtain ⟨c', -, rfl⟩ := h
    exact fun v hv => absurd hv List.not_mem_nil
  | .counting m i c u, _, _, _, _, _, hsrc, hin, hres, hdr, hr, hl, h => by
    obtain ⟨hi, -, -⟩ := Header.shaped_counting.1 hsrc
    obtain ⟨i', c', u', ⟨hnone, hi'⟩, -, -, rfl⟩ := rendersHeader_counting.1 h
    rw [Header.nodes_counting] at hin
    intro v hv
    cases i with
    | none =>
      rw [hnone rfl] at hv
      exact absurd hv List.not_mem_nil
    | some s =>
      refine RendersStmt.named hp (hi s rfl).2
        (fun y hy => hin y (List.mem_cons_of_mem _ (List.mem_append_left _ hy)))
        ((Scoping.resolvedHeader_counting.1 hres).1 s rfl) hdr hr hl (hi' s rfl) v ?_
      cases i' with
      | none => exact absurd hv List.not_mem_nil
      | some o => exact List.mem_append_left _ hv
  | .forOf m n k e, _, _, _, _, _, hsrc, hin, hres, hdr, hr, hl, h => by
    obtain ⟨e', n', k', -, hk, rfl⟩ := h
    intro v hv
    cases k with
    | none =>
      obtain ⟨rfl, rfl⟩ := hk
      exact absurd hv List.not_mem_nil
    | some k =>
      obtain ⟨b, hb, rfl, rfl⟩ := hk
      obtain ⟨sc', hdecl, hsc⟩ : ∃ sc', p.analysis.scoping.Declares _ sc' m.id n k ∧
          (k ≠ .var → sc' = (Header.forOf m n (some k) e).scopeIn _ _) := by
        cases k with
        | var => exact ⟨_, hres.2.1, fun h => absurd rfl h⟩
        | letVar | const => exact ⟨_, hres.2, fun _ => rfl⟩
      obtain ⟨c, hc, hdec, -, hk⟩ := Lower.declares_binding hp hdecl
      obtain rfl := Option.some.inj (hdec.symm.trans hb)
      rcases hk with ⟨hk, hs, hno⟩ | ⟨-, -, hf⟩
      · rw [hno] at hv
        obtain rfl := List.mem_singleton.1 hv
        exact hl.named hdr hc (hs.trans (hsc hk)) hno
      · rw [hf, hr] at hv
        exact absurd hv List.not_mem_nil
  | .unknown .., _, _, _, _, _, hsrc, _, _, _, _, _, _ => hsrc.elim

end

/-! ## All functions and wrappers -/

/-- What is to be moved out of a wrapper is not declared in its code. -/
theorem Sound.leavesVars (hp : p.Sound fn globals) {m : Mark} {ss : List (Stmt Mark)} {fs : ScopeId}
    {inLoop : Bool} {body : List (Stmt Span)} {w : Wrapper} (hsrc : Stmt.AreSource ss)
    (hin : ∀ y ∈ Stmt.nodesOfList ss, y ∈ fn.nodes)
    (hres : p.analysis.scoping.ResolvedStmts globals fs root inLoop ss) (hdr : p.DrivesApart r)
    (hr : r.inWrapper = true) (h : p.RendersStmts D r ss body)
    (hw : w.hoisted = p.analysis.scoping.hoistedIn (.mk m ss)) (ws : WriteBacks) :
    p.LeavesVars w (Lower.wrapperCode w ws body) := by
  intro b hb hm
  rw [wrapperCode_vars] at hm
  obtain ⟨x, hx, hxb⟩ := List.mem_map.1 hm
  rw [hw, Scoping.hoistedIn, List.mem_eraseDups] at hb
  obtain ⟨v, hv, hvb⟩ := List.mem_filterMap.1 hb
  obtain ⟨d, hdecl, hd, hl⟩ := hp.vars_knownList hres v hv
  obtain ⟨i, hi, hid⟩ := Option.bind_eq_some_iff.1 hdecl
  obtain rfl : i = b := Option.some.inj (hi.symm.trans hvb)
  obtain ⟨hdm, rfl⟩ := Scoping.mem_of_binding? hid
  obtain ⟨-, hdn, -⟩ := hp.analysed.consistent.of_lookup? hl
  have hlives : p.LivesIn r root root := fun c _ hs _ => .inr (.inl hs)
  -- a binding that lives in the wrapper is called like the `var` only if it hides it
  rcases RendersStmts.named hp hsrc hin hres hdr hr hlives h x hx with
    hnew | ⟨c, hc, hno, hxc, hroot⟩
  · refine hnew ?_
    rw [hxb, hp.naming]
    exact hp.analysed.apart.taken d hdm
  · rw [hxb, hp.naming] at hxc
    rcases hp.analysed.name_eq hdm hc hxc with rfl | ⟨hname, -, hinl⟩
    · exact Bool.false_ne_true (hno.symm.trans hd)
    · have hown := hp.analysed.consistent.lookup?_own hc
      rw [hroot.resolve_right hinl, ← hname, hdn, hl] at hown
      obtain rfl := Option.some.inj hown
      exact Bool.false_ne_true (hno.symm.trans hd)

/-- What is moved to the top of a function are `var`s of the function. -/
theorem Sound.of_hoists (hp : p.Sound fn globals) {ss : List (Stmt Mark)} {id : ScopeId}
    (hsrc : Stmt.AreSource ss) (hin : ∀ y ∈ Stmt.nodesOfList ss, y ∈ fn.nodes)
    (hvars : p.analysis.scoping.DeclaresVars id (Stmt.varsOfList ss)) {i : BindingId}
    (hi : i ∈ p.hoistsList false ss) : ∃ d ∈ p.analysis.scoping.bindings, d.id = i ∧
    d.scope = id := by
  have hi := hoistsList_mono hi
  rw [hoistsList_true hp hsrc hin] at hi
  obtain ⟨v, hv, hvi⟩ := List.mem_filterMap.1 hi
  obtain ⟨d, hdecl, -, hs, -⟩ := hvars v hv
  obtain ⟨j, hj, hd⟩ := Option.bind_eq_some_iff.1 hdecl
  obtain rfl : j = i := Option.some.inj (hj.symm.trans hvi)
  obtain ⟨hdm, hid⟩ := Scoping.mem_of_binding? hd
  exact ⟨d, hdm, hid, hs⟩

/-- That `var`s are moved out of wrappers to the tops of the functions. -/
def movesVars (p : LoweringPlan) : Demands := ⟨p.HoistsVars, fun w code _ _ => p.LeavesVars w code⟩

/-- Lowered functions have the `var`s of their wrappers at their tops. -/
theorem Sound.meets_movesVars (hp : p.Sound fn globals)
    (hrec : p.analysis.scoping.Records globals fn.acts) : p.Meets fn globals p.movesVars where
  function {r id ps k ss parent out} ho _ hdr hsrc hin h := by
    have hmem : ∀ {b}, b ∈ hoistAll [] (p.hoistsList false ss) ↔ b ∈ p.hoistsList false ss :=
      mem_hoistAll.trans ⟨fun h => h.resolve_left List.not_mem_nil, .inr⟩
    refine ⟨(hoistAll_nodup .nil).map_on fun i hi j hj he => ?_, fun b => ?_, fun v hv => ?_⟩
    · obtain ⟨d, hd, rfl, hds⟩ := hp.of_hoists hsrc hin ho.vars (hmem.1 hi)
      obtain ⟨e, he', rfl, hes⟩ := hp.of_hoists hsrc hin ho.vars (hmem.1 hj)
      rw [hp.scope_name_inj hd he' (hds.trans hes.symm) he]
    · exact hmem.trans (hp.mem_hoistsList hrec hsrc hin)
    · obtain ⟨b, hb, hdeclared⟩ := RendersStmts.declares (r := r.function) hp hsrc hin
        ⟨hdr.blocks, hdr.fresh⟩ rfl ho.vars h v hv
      refine ⟨b, hb, ?_⟩
      rw [Stmt.varsOfList_append, List.map_append, List.mem_append]
      refine hdeclared.imp_left fun hb => ?_
      rw [(hoistedDeclarations_flat (p := p) _).declares.mem_iff]
      exact Roles.mem_names (List.mem_map_of_mem (f := p.ownRole) (hmem.2 hb))
  block {r fs sc inLoop m ss w body call out} hres hdr hsrc hin hw h _ _ :=
    hp.leavesVars (r := r.wrapper []) hsrc (fun y hy => hin y (List.mem_cons_of_mem _ hy)) hres.2
      ⟨hdr.blocks, hdr.fresh⟩ rfl h (hp.hoisted_block (c := .mk m ss)
      (hin _ List.mem_cons_self) hw) _
  loop {r fs sc inLoop m b hd ss w drivers body callee out} hres hdr hsrc hin hw _ h _ := by
    have hx : .stmt (.loop m hd (.mk b ss)) ∈ fn.nodes := hin _ List.mem_cons_self
    exact hp.leavesVars (r := p.loopRegion r m drivers) hsrc
      (fun y hy => hin y (Stmt.mem_nodes_body hy)) hres.2.2.2.2
      ⟨hdr.blocks, hdr.fresh⟩ rfl h
      (hp.hoisted_loop hx ((hp.loopPlan_wrapper hx).symm.trans hw)) _

end LoweringPlan

/-- In what an analysed function is lowered to, every function has at its top the `var`s that are to
    be moved out of the wrappers in it, each once, and declares all its `var`s. No wrapper declares
    what is to be moved out of it: the declarations of these `var`s have become assignments. -/
theorem FunctionDef.lower_hoists {fn : FunctionDef Span} (hsrc : fn.IsSource) {globals : List Name}
    {hoisting : Bool} {a : Analysis} (h : fn.number.analyse globals hoisting = .ok a) :
    ∃ out, fn.number.lower a = .ok out ∧ LoweringPlan.RendersFunction ⟨a, .ofAnalysis a⟩
      (LoweringPlan.movesVars ⟨a, .ofAnalysis a⟩) fn.number out := by
  have hconsecutive := fn.numberFrom_consecutive 1
  have ha := FunctionDef.analyse_analysed (fn.shaped_number.2 hsrc) hconsecutive h
  obtain ⟨s, hs, -, rfl⟩ := FunctionDef.analyse_eq_ok.1 h
  exact ha.lower_renders (LoweringPlan.Sound.meets_movesVars ⟨ha, rfl⟩
    (FunctionDef.resolve_records hconsecutive hs).1)

/-- The function `function f(xs) { for (const x of xs) { var last = x; g(function () { return x; });
    } return last; }`, whose loop has a wrapper that declares a `var`. -/
def declaringLoop : FunctionDef Span :=
  let u := Span.unknown
  let x := Expr.name u "x"
  ⟨u, "f", ["xs"], .mk u [.loop u (.forOf u "x" (some .const) (.name u "xs"))
    (.mk u [.declaration u "last" .var (some x),
      .expression u (.call u (.name u "g") [.function u [] (.mk u [.ret u (some x)])])]),
    .ret u (some (.name u "last"))]⟩

/-- The theorem for the function in `declaringLoop`, whose loop has a wrapper out of which a `var`
    is moved. -/
theorem FunctionDef.lower_hoists_declaringLoop : ∃ a out,
    declaringLoop.number.analyse ["g"] true = .ok a ∧ a.wrappers.map (·.hoisted) = [[2]] ∧
      declaringLoop.number.lower a = .ok out ∧ LoweringPlan.RendersFunction ⟨a, .ofAnalysis a⟩
        (LoweringPlan.movesVars ⟨a, .ofAnalysis a⟩) declaringLoop.number out := by
  have hsrc : declaringLoop.IsSource := by
    simp [declaringLoop, FunctionDef.Shaped, Block.Shaped, Stmt.ShapedList, Stmt.Shaped,
      Header.Shaped, Expr.Shaped, Expr.ShapedList]
  have hhoisted : (declaringLoop.number.analyse ["g"] true).map (·.wrappers.map (·.hoisted)) =
      .ok [[2]] := by rfl
  cases ha : declaringLoop.number.analyse ["g"] true with
  | error e =>
    rw [ha] at hhoisted
    cases hhoisted
  | ok a =>
    rw [ha] at hhoisted
    obtain ⟨out, hout, hrenders⟩ := FunctionDef.lower_hoists hsrc ha
    exact ⟨a, out, rfl, Except.ok.inj hhoisted, hout, hrenders⟩

end FlatScope
