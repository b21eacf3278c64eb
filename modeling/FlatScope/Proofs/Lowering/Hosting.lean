import FlatScope.Proofs.Lowering.Piece

/-!
# Functions and wrappers host their code

The three places where variables live in lowered code: a function, with its parameters, the `var`s
moved to its top and the variables of its code; the wrapper of a block; and the wrapper of a loop,
whose parameters are bindings of the header. Each hosts its code.
-/

namespace FlatScope

/-- What a `let` or `const` declares belongs to no function. -/
theorem Origin.not_functionScoped {o : Origin} {k : DeclKind} (ho : o.kind? = some k)
    (hk : k.isBlockScoped) : o.isFunctionScoped = false := by
  cases o with
  | param => cases ho
  | declared j =>
    cases ho
    simp [isFunctionScoped, hk]
  | header j =>
    cases ho
    simp [isFunctionScoped, hk]

namespace LoweringPlan

variable {p : LoweringPlan} {fn : FunctionDef Mark} {globals : List Name} {r : Region}
  {fs n m : Nat} {st st' : LoweringState} {vars : List (Name × Mark)} {roles : Roles}
  {out : List (Stmt Span)}

/-- Two bindings of one scope have different names. -/
theorem Sound.scope_name_inj (hp : p.Sound fn globals) {d e : Binding}
    (hd : d ∈ p.analysis.scoping.bindings) (he : e ∈ p.analysis.scoping.bindings)
    (hs : d.scope = e.scope) (hn : p.naming.nameOf d.id = p.naming.nameOf e.id) : d = e := by
  rw [hp.naming] at hn
  rcases hp.analysed.name_eq hd he hn with rfl | ⟨hname, -⟩
  · rfl
  · exact hp.analysed.consistent.eq_of_name hd he hname hs

/-- A variable of a piece within a function or wrapper. -/
theorem Piece.pooled (hp : p.Sound fn globals) {sc k : Nat}
    (h : p.Piece r fs sc k m st st' vars roles) (hf : p.Fits r fs sc st) (hk : sc < k)
    {ρ : Name × Role} (hρ : ρ ∈ roles) :
    (∃ d ∈ p.analysis.scoping.bindings, ρ = p.ownRole d.id ∧
      (r.inWrapper = false ∧ d.scope = fs ∨ d.scope = sc ∨
        p.analysis.Inlined d ∧ sc < d.scope)) ∨
    ρ.1 ∉ st.supply.taken ∧ Roles.Synthesized ρ := by
  rcases h.each ρ hρ with ⟨d, hd, rfl, ⟨hw, hs⟩ | hs | ⟨hi, hl, -⟩⟩ | ⟨hn, -, hb, -⟩
  · have := hf.no_driver hp hd (k := .function) (by decide) (hs ▸ hf.function)
    exact .inl ⟨d, hd, role_of_none this, .inl ⟨hw, hs⟩⟩
  · have := hf.no_inner_driver hp hd (Nat.le_of_eq hs.symm)
    exact .inl ⟨d, hd, role_of_none this, .inr (.inl hs)⟩
  · have hlt : sc < d.scope := Nat.lt_of_lt_of_le hk hl
    have := hf.no_inner_driver hp hd (Nat.le_of_lt hlt)
    exact .inl ⟨d, hd, role_of_none this, .inr (.inr ⟨hi, hlt⟩)⟩
  · exact .inr ⟨hn, hb⟩

/-- The variables of a function host its code. -/
theorem Piece.hosts_function (hp : p.Sound fn globals) {id : ScopeId} {ps : List Name}
    {body : Block Mark} {parent : Option ScopeId}
    (ho : p.analysis.scoping.OpensFunction id ps body parent)
    (hf : p.Fits r id id st) (h : p.Piece r id id (id + 1) m st st' body.vars roles)
    (hst : st.hoisted = [])
    (hlow : p.LowersStmts r id body.statements out roles) :
    p.HostsFunction r id ps st'.hoisted roles := by
  have hcons := hp.analysed.consistent
  have hname : ∀ {b}, b ∈ p.analysis.scoping.bindings → b.scope = id →
      p.naming.nameOf b.id = b.name := fun hb hs => by
    rw [hp.naming]
    exact hp.analysed.name_of_function hb (hs ▸ hf.function)
  -- a variable is that of a binding of the function, or one of the code
  have heach : ∀ ρ ∈ p.paramRoles id ps ++ st'.hoisted.map p.ownRole ++ roles,
      (∃ d ∈ p.analysis.scoping.bindings, ρ = p.ownRole d.id ∧ d.scope = id) ∨ ρ ∈ roles := by
    intro ρ hρ
    rcases List.mem_append.1 hρ with hρ | hρ
    · rcases List.mem_append.1 hρ with hρ | hρ
      · obtain ⟨x, hx, rfl⟩ := List.mem_map.1 hρ
        obtain ⟨b, hb, hbs, -⟩ := ho.params x hx
        obtain ⟨hbm, hbn, -⟩ := hcons.of_lookup? hb
        refine .inl ⟨b, hbm, ?_, hbs⟩
        rw [ownRole, hname hbm hbs, hbn, hb]
        rfl
      · obtain ⟨i, hi, rfl⟩ := List.mem_map.1 hρ
        rcases h.hoisted i hi with hi | ⟨d, hd, rfl, hds⟩
        · rw [hst] at hi
          cases hi
        · exact .inl ⟨d, hd, rfl, hds⟩
    · exact .inr hρ
  have hmade : ∀ {x σ}, (x, σ) ∈ p.paramRoles id ps ++ st'.hoisted.map p.ownRole ++ roles →
      (∀ b, σ ≠ .holds (.binding b)) → (x, σ) ∈ roles := by
    intro x σ hx hσ
    rcases heach _ hx with ⟨d, -, he, -⟩ | hr
    · exact absurd (congrArg (·.2) he) (hσ d.id)
    · exact hr
  refine ⟨Pool.hosts (o := fun d => d.scope = id) ⟨fun ρ hρ => ?_, fun {x σ τ} hσ hτ hx => ?_,
    fun {x y b} hx hy => ?_, fun d hd e he hds hes hn => ?_, fun d hd hds => ?_,
    fun {n b} hb hbs => ?_⟩ hp hf (fun b hb => ?_), fun b hb => (h.hoisted b hb).resolve_left
      (by simp [hst])⟩
  · rcases heach ρ hρ with ⟨d, hd, he, hds⟩ | hρ
    · exact .inl ⟨d, hd, he, .inl hds⟩
    · rcases h.pooled hp hf (Nat.lt_succ_self id) hρ with
        ⟨d, hd, he, ⟨-, hs⟩ | hs | hi⟩ | hn
      · exact .inl ⟨d, hd, he, .inl hs⟩
      · exact .inl ⟨d, hd, he, .inl hs⟩
      · exact .inl ⟨d, hd, he, .inr hi⟩
      · exact .inr hn
  · have hin : ∀ {υ}, (x, υ) ∈ p.paramRoles id ps ++ st'.hoisted.map p.ownRole ++ roles →
        (x, υ) ∈ roles := fun hυ => by
      rcases heach _ hυ with ⟨d, hd, he, -⟩ | hr
      · have hxd : x = p.naming.nameOf d.id := congrArg (·.1) he
        exact absurd (hf.supply _ (hp.name_taken hd)) (hxd ▸ hx)
      · exact hr
    exact h.coherent (hin hσ) (hin hτ) hx
  · exact h.injective (hmade hx (by simp)) (hmade hy (by simp))
  · exact hp.scope_name_inj hd he (hds.trans hes.symm) hn
  · exact ⟨d, hds ▸ hcons.lookup?_own hd, hds⟩
  · obtain ⟨hbm, hbn, -⟩ := hcons.of_lookup? hb
    refine ⟨hf.no_driver hp hbm (k := .function) (by decide) (hbs ▸ hf.function), ?_⟩
    obtain ⟨s, hs, -, -, hnames⟩ := ho.scope
    obtain ⟨t, ht, htid, hmem⟩ := hcons.listed b hbm
    have hts : t = s := by
      have := hcons.scope?_of_mem ht
      rw [htid, hbs, hs] at this
      exact (Option.some.inj this).symm
    subst hts
    have hsame : ∀ {d}, d ∈ p.analysis.scoping.bindings → d.name = b.name → d.scope = id → d = b :=
      fun hd hdn hds => hcons.eq_of_name hd hbm hdn (hds.trans hbs.symm)
    have hdeclared : ∀ {i d}, p.analysis.scoping.declared? i = some d →
        d ∈ p.analysis.scoping.bindings := fun hd => by
      obtain ⟨j, -, hj⟩ := Option.bind_eq_some_iff.1 hd
      exact (Scoping.mem_of_binding? hj).1
    rcases (hnames b.name).1 (List.mem_map_of_mem (f := (·.1)) hmem) with hin | hin | hin
    · refine List.mem_append_left _ (List.mem_append_left _ (List.mem_map.2 ⟨b.name, hin, ?_⟩))
      rw [hbn, hb, ownRole, hname hbm hbs, hbn]
      rfl
    · obtain ⟨v, hv, hvn⟩ := List.mem_map.1 hin
      obtain ⟨d, hd, hdn, hds, -⟩ := ho.vars v hv
      obtain rfl := hsame (hdeclared hd) (hdn.trans hvn) hds
      obtain ⟨e, he, hcov⟩ := h.vars v hv
      rw [hd] at he
      cases he
      rcases hcov with ⟨-, hrole⟩ | hhoist
      · exact List.mem_append_right _ hrole
      · exact List.mem_append_left _ (List.mem_append_right _ (List.mem_map_of_mem hhoist))
    · obtain ⟨l, hl, hln⟩ := List.mem_map.1 hin
      obtain ⟨d, hd, hdn, hds, hdo⟩ := ho.lexicals l hl
      obtain rfl := hsame (hdeclared hd) (hdn.trans hln) hds
      obtain ⟨e, he, hrole⟩ := role_of_lexical hlow hl
      rw [hd] at he
      cases he
      rw [← role_of_none (hf.no_driver hp hbm (k := .function) (by decide)
        (hbs ▸ hf.function))]
      exact List.mem_append_right _ (hrole (Origin.not_functionScoped hdo (Block.lexicals_kind hl)))
  · rw [hcons.mem_bindingIdsOf]
    constructor
    · rintro ⟨c, hc, hid, hs⟩
      rwa [hp.analysed.eq_of_id hb hc hid.symm]
    · exact fun hs => ⟨b, hb, rfl, hs⟩

/-- A binding of the scope of a block is that of one of its `let`s and `const`s. -/
theorem lexical_of_block (hp : p.Sound fn globals) {b : Block Mark} {sc : ScopeId}
    (ho : p.analysis.scoping.OpensBlock b sc) (hne : b.lexicals ≠ []) {d : Binding}
    (hd : d ∈ p.analysis.scoping.bindings) (hs : d.scope = b.mark.id) : ∃ l ∈ b.lexicals,
      p.analysis.scoping.declared? l.mark.id = some d ∧ d.origin.isFunctionScoped = false := by
  have hcons := hp.analysed.consistent
  obtain ⟨-, s, hs', -, -, hnames⟩ := ho.scope hne
  obtain ⟨t, ht, htid, hmem⟩ := hcons.listed d hd
  have hts : t = s := by
    have := hcons.scope?_of_mem ht
    rw [htid, hs, hs'] at this
    exact (Option.some.inj this).symm
  subst hts
  have hin : d.name ∈ b.lexicals.map (·.name) := hnames ▸ List.mem_map_of_mem (f := (·.1)) hmem
  obtain ⟨l, hl, hln⟩ := List.mem_map.1 hin
  obtain ⟨e, he, hen, hes, heo⟩ := ho.lexicals l hl
  obtain ⟨j, -, hj⟩ := Option.bind_eq_some_iff.1 he
  obtain rfl := hcons.eq_of_name (Scoping.mem_of_binding? hj).1 hd (hen.trans hln)
    (hes.trans hs.symm)
  exact ⟨l, hl, he, Origin.not_functionScoped heo (Block.lexicals_kind hl)⟩

/-- A binding of the scope of a block is one of its `let`s and `const`s, and has a variable where it
    is declared. -/
theorem role_of_block (hp : p.Sound fn globals) {b : Block Mark} {sc : ScopeId}
    (ho : p.analysis.scoping.OpensBlock b sc) (hne : b.lexicals ≠ [])
    (hlow : p.LowersStmts r b.mark.id b.statements out roles) {d : Binding}
    (hd : d ∈ p.analysis.scoping.bindings) (hs : d.scope = b.mark.id) :
    d.origin.isFunctionScoped = false ∧ p.role r d.id ∈ roles := by
  obtain ⟨l, hl, he, hno⟩ := lexical_of_block hp ho hne hd hs
  obtain ⟨c, hc, hrole⟩ := role_of_lexical hlow hl
  rw [he] at hc
  cases hc
  exact ⟨hno, hrole hno⟩

/-- The variables of the wrapper of a block host its code. -/
theorem Piece.hosts_block (hp : p.Sound fn globals) {b : Block Mark} {sc : ScopeId}
    (ho : p.analysis.scoping.OpensBlock b sc) (hne : b.lexicals ≠ [])
    (hf : p.Fits r fs b.mark.id st) (hr : r.inWrapper = true)
    (h : p.Piece r fs b.mark.id (b.mark.id + 1) m st st' vars roles)
    (hlow : p.LowersStmts r b.mark.id b.statements out roles) :
    p.Hosts r b.mark.id (p.analysis.scoping.bindingIdsOf b.mark.id) roles := by
  have hcons := hp.analysed.consistent
  have hkind := FunctionDef.Analysed.hasScope_of_opens (ho.scope hne).2
  refine Pool.hosts (o := fun d => d.scope = b.mark.id) ⟨fun ρ hρ => ?_, h.coherent,
    h.injective, fun d hd e he hds hes hn => ?_, fun d hd hds => ?_,
    fun {n c} hc hcs => ?_⟩ hp hf (fun c hc => ?_)
  · rcases h.pooled hp hf (Nat.lt_succ_self _) hρ with
      ⟨d, hd, he, ⟨hw, -⟩ | hs | hi⟩ | hn
    · rw [hr] at hw
      cases hw
    · exact .inl ⟨d, hd, he, .inl hs⟩
    · exact .inl ⟨d, hd, he, .inr hi⟩
    · exact .inr hn
  · exact hp.scope_name_inj hd he (hds.trans hes.symm) hn
  · exact ⟨d, hds ▸ hcons.lookup?_own hd, hds⟩
  · obtain ⟨hcm, -, -⟩ := hcons.of_lookup? hc
    have hl := hf.no_driver hp hcm (k := .block) (by decide) (hcs ▸ hkind)
    exact ⟨hl, role_of_none hl ▸ (role_of_block hp ho hne hlow hcm hcs).2⟩
  · rw [hcons.mem_bindingIdsOf]
    constructor
    · rintro ⟨d, hd, hid, hs⟩
      rwa [hp.analysed.eq_of_id hc hd hid.symm]
    · exact fun hs => ⟨c, hc, rfl, hs⟩

/-- The variables of the wrapper of a loop host its code. -/
theorem Piece.hosts_loop (hp : p.Sound fn globals) {mark : Mark} {hd : Header Mark}
    {b : Block Mark} {sc : ScopeId} (hx : .stmt (.loop mark hd b) ∈ fn.nodes)
    (hl : p.analysis.scoping.HasLoop mark.id hd b sc)
    (ho : p.analysis.scoping.OpensLoop mark.id hd sc)
    (hb : p.analysis.scoping.OpensBlock b (hd.scopeIn mark.id sc)) {w : Wrapper}
    (hw : p.analysis.scoping.loopWrapper? mark.id b = some w)
    (hf : p.Fits r fs mark.id st) (hr : r.inWrapper = true) (hlt : mark.id < b.mark.id)
    (h : p.Piece r fs (b.scopeIn (hd.scopeIn mark.id sc)) (b.mark.id + 1) m st st' vars roles)
    (hlow : p.LowersStmts r (b.scopeIn (hd.scopeIn mark.id sc)) b.statements out roles) :
    p.Hosts r (b.scopeIn (hd.scopeIn mark.id sc)) (w.locals ++ w.params)
      (w.params.map p.ownRole ++ roles) := by
  have hcons := hp.analysed.consistent
  obtain ⟨w', hw', -, -, hparams, hlocals, hneeds⟩ := hl.loopWrapper?.resolve_left (by simp [hw])
  obtain rfl : w = w' := Option.some.inj (hw.symm.trans hw')
  obtain ⟨hwm, -⟩ := hp.analysed.of_wrappedLoop hx hw
  -- the bindings of the scopes of the header and of the body
  have hparam : ∀ {d}, d ∈ p.analysis.scoping.bindings → d.id ∈ w.params →
      d.scope = mark.id ∧ (Resolve.headerLexical? hd).isSome := by
    intro d hd hdp
    rw [hparams, Scoping.freshOf] at hdp
    split at hdp
    · rename_i hsome
      obtain ⟨c, hc, hid, hs⟩ := hcons.mem_bindingIdsOf.1 (List.mem_filter.1 hdp).1
      exact ⟨hp.analysed.eq_of_id hc hd hid ▸ hs, hsome⟩
    · cases hdp
  have hlocal : ∀ {d}, d ∈ p.analysis.scoping.bindings → d.id ∈ w.locals →
      d.scope = b.mark.id ∧ b.lexicals ≠ [] := by
    intro d hd hdl
    rw [hlocals] at hdl
    split at hdl
    · cases hdl
    · rename_i hne
      obtain ⟨c, hc, hid, hs⟩ := hcons.mem_bindingIdsOf.1 hdl
      exact ⟨hp.analysed.eq_of_id hc hd hid ▸ hs, by simpa using hne⟩
  -- a binding of the innermost scope lives in the wrapper
  have hinner : mark.id ≤ b.scopeIn (hd.scopeIn mark.id sc) ∧
      b.scopeIn (hd.scopeIn mark.id sc) ≤ b.mark.id ∧ ∀ d ∈ p.analysis.scoping.bindings,
        d.scope = b.scopeIn (hd.scopeIn mark.id sc) → d.id ∈ w.locals ++ w.params := by
    by_cases hne : b.lexicals = []
    · obtain ⟨hsome, hneed⟩ := hneeds.resolve_right fun hn => hn.1 hne
      have hin : b.scopeIn (hd.scopeIn mark.id sc) = mark.id := by
        simp [Block.scopeIn, hne, Header.scopeIn, hsome]
      rw [hin]
      refine ⟨Nat.le_refl _, Nat.le_of_lt hlt, fun d hdm hds => List.mem_append_right _ ?_⟩
      obtain ⟨l, hlex⟩ := Option.isSome_iff_exists.1 hsome
      obtain ⟨e, hem, -, -, -, heo, hids⟩ := hp.analysed.of_header ho hlex
      have hde : d.id = e.id := by
        have := hcons.mem_bindingIdsOf.2 ⟨d, hdm, rfl, hds⟩
        simpa [hids] using this
      have hcap : p.analysis.scoping.isCaptured e.id = true := by
        simpa [Scoping.needsWrapper, hids] using hneed
      rw [hparams, Scoping.freshOf, if_pos hsome, hids, hde]
      simpa [hp.analysed.isPerIteration_eq hem (Resolve.headerLexical?_kind hlex) heo] using hcap
    · have hin : b.scopeIn (hd.scopeIn mark.id sc) = b.mark.id := by
        simp [Block.scopeIn, hne]
      rw [hin]
      refine ⟨Nat.le_of_lt hlt, Nat.le_refl _, fun d hdm hds => List.mem_append_left _ ?_⟩
      rw [hlocals, if_neg (by simpa using hne)]
      exact hcons.mem_bindingIdsOf.2 ⟨d, hdm, rfl, hds⟩
  obtain ⟨hle, hle', hown⟩ := hinner
  have hf' := hf.mono hle fun _ hx => hx
  have hscope : ∀ {d}, d ∈ p.analysis.scoping.bindings → d.id ∈ w.locals ++ w.params →
      mark.id ≤ d.scope := by
    intro d hdm hdo
    rcases List.mem_append.1 hdo with hdl | hdp
    · rw [(hlocal hdm hdl).1]
      exact Nat.le_of_lt hlt
    · exact Nat.le_of_eq (hparam hdm hdp).1.symm
  have hin : ∀ {x σ}, (x, σ) ∈ w.params.map p.ownRole ++ roles →
      (x ∉ st.supply.taken ∨ ∀ i, σ ≠ .holds (.binding i)) → (x, σ) ∈ roles := by
    intro x σ hx hσ
    rcases List.mem_append.1 hx with hx | hx
    · obtain ⟨i, hi, he⟩ := List.mem_map.1 hx
      obtain ⟨d, hdm, rfl⟩ := (hp.analysed.sorted hwm).1 i (List.mem_append_right _ hi)
      rcases hσ with hσ | hσ
      · have hxd : p.naming.nameOf d.id = x := congrArg (·.1) he
        exact absurd (hf.supply _ (hp.name_taken hdm)) (hxd ▸ hσ)
      · exact absurd (congrArg (·.2) he).symm (hσ d.id)
    · exact hx
  refine Pool.hosts (o := fun d => d.id ∈ w.locals ++ w.params) ⟨fun ρ hρ => ?_,
    fun {x σ τ} hσ hτ hx => h.coherent (hin hσ (.inl hx)) (hin hτ (.inl hx)) hx,
    fun {x y i} hx hy => h.injective (hin hx (.inr (by simp))) (hin hy (.inr (by simp))),
    fun d hdm e hem hdo heo hn => ?_, fun d hdm hdo => ?_,
    fun {n c} hc hco => ?_⟩ hp hf (fun c hc => Iff.rfl)
  · rcases List.mem_append.1 hρ with hρ | hρ
    · obtain ⟨i, hi, rfl⟩ := List.mem_map.1 hρ
      obtain ⟨d, hdm, rfl⟩ := (hp.analysed.sorted hwm).1 i (List.mem_append_right _ hi)
      exact .inl ⟨d, hdm, rfl, .inl (List.mem_append_right _ hi)⟩
    · rcases h.pooled hp hf' (Nat.lt_succ_of_le hle') hρ with
        ⟨d, hdm, he, ⟨hwr, -⟩ | hs | hi⟩ | hn
      · rw [hr] at hwr
        cases hwr
      · exact .inl ⟨d, hdm, he, .inl (hown d hdm hs)⟩
      · exact .inl ⟨d, hdm, he, .inr hi⟩
      · exact .inr hn
  · rcases List.mem_append.1 hdo with hdl | hdp <;> rcases List.mem_append.1 heo with hel | hep
    · exact hp.scope_name_inj hdm hem ((hlocal hdm hdl).1.trans (hlocal hem hel).1.symm) hn
    · exact absurd (hp.naming ▸ hn) (hp.analysed.separated hwm hdl hep)
    · exact absurd (hp.naming ▸ hn.symm) (hp.analysed.separated hwm hel hdp)
    · exact hp.scope_name_inj hdm hem ((hparam hdm hdp).1.trans (hparam hem hep).1.symm) hn
  · by_cases hne : b.lexicals = []
    · rcases List.mem_append.1 hdo with hdl | hdp
      · exact absurd hne (hlocal hdm hdl).2
      · obtain ⟨hds, hsome⟩ := hparam hdm hdp
        refine ⟨d, ?_, hdo⟩
        rw [show b.scopeIn (hd.scopeIn mark.id sc) = d.scope by
          simp [Block.scopeIn, hne, Header.scopeIn, hsome, hds]]
        exact hcons.lookup?_own hdm
    · rw [Block.scopeIn_of_ne_nil hne] at *
      rcases List.mem_append.1 hdo with hdl | hdp
      · exact ⟨d, (hlocal hdm hdl).1 ▸ hcons.lookup?_own hdm, hdo⟩
      · obtain ⟨hds, hsome⟩ := hparam hdm hdp
        obtain ⟨-, s, hs, -, hparent, -⟩ := hb.scope hne
        have hup : p.analysis.scoping.lookup? mark.id d.name = some d :=
          hds ▸ hcons.lookup?_own hdm
        obtain ⟨hsm, hsid⟩ := Scoping.mem_of_scope? hs
        rw [hcons.lookup?_eq hs, hparent]
        cases hi : s.names.lookup d.name with
        | none => exact ⟨d, by simpa [Header.scopeIn, hsome] using hup, hdo⟩
        | some i =>
          obtain ⟨c, hc, -, -, hcs⟩ := hcons.binding?_of_named hsm hi
          exact ⟨c, hc, hown c (Scoping.mem_of_binding? hc).1 (hcs.trans hsid)⟩
  · obtain ⟨hcm, -, -⟩ := hcons.of_lookup? hc
    have hnone := hf.no_inner_driver hp hcm (hscope hcm hco)
    refine ⟨hnone, ?_⟩
    rcases List.mem_append.1 hco with hcl | hcp
    · obtain ⟨hcs, hne⟩ := hlocal hcm hcl
      rw [Block.scopeIn_of_ne_nil hne] at hlow
      exact List.mem_append_right _ (role_of_none hnone ▸ (role_of_block hp hb hne hlow hcm hcs).2)
    · exact List.mem_append_left _ (List.mem_map_of_mem hcp)

end LoweringPlan

end FlatScope
