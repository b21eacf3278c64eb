import FlatScope.Proofs.Lowering.Assigned

/-!
# All that lowered code sets is accounted for

`LoweringPlan.Accounts` is shown of each construct, given it of the parts of the construct, and then
of all code by induction over the syntax. What is to be shown of a piece of code is the same in
every region in which the variable is known for what it is (`LoweringPlan.Views`); it is said once
for each kind of code, by `ExprAccounted`, `StmtAccounted` and so on.
-/

namespace FlatScope

namespace LoweringPlan

variable {p : LoweringPlan} {fn : FunctionDef Mark} {globals : List Name} {x : Name} {σ : Role}
  {r : Region} {roles : Roles} {sc : ScopeId}

/-! ## What is proved of code -/

section Statements

variable (p : LoweringPlan) (fn : FunctionDef Mark) (globals : List Name) (x : Name) (σ : Role)

/-- Only the functions in an expression set the variable. -/
def ExprAccounted (e : Expr Mark) : Prop :=
  ∀ ⦃r : Region⦄ ⦃sc : ScopeId⦄ ⦃e' : Expr Span⦄ ⦃D : Binding → Prop⦄ ⦃P : BindingId → Prop⦄
    ⦃roles : Roles⦄,
    e.IsSource → p.analysis.scoping.ResolvedExpr globals sc e → (∀ y ∈ e.nodes, y ∈ fn.nodes) →
    p.Views fn x σ r sc → p.LowersExpr r e e' →
    p.Accounts fn x σ r D P (p.analysis.scoping.Lends e.nodes) roles e'.own

/-- Only the functions in expressions set the variable. -/
def ExprsAccounted (es : List (Expr Mark)) : Prop :=
  ∀ ⦃r : Region⦄ ⦃sc : ScopeId⦄ ⦃es' : List (Expr Span)⦄ ⦃D : Binding → Prop⦄
    ⦃P : BindingId → Prop⦄ ⦃roles : Roles⦄,
    Expr.AreSource es → p.analysis.scoping.ResolvedExprs globals sc es →
    (∀ y ∈ Expr.nodesOfList es, y ∈ fn.nodes) → p.Views fn x σ r sc → p.LowersExprs r es es' →
    p.Accounts fn x σ r D P (p.analysis.scoping.Lends (Expr.nodesOfList es)) roles
      (Expr.ownOfList es')

/-- A list of statements sets the variable where it declares it or gives its binding a value. -/
def StmtsAccounted (ss : List (Stmt Mark)) : Prop :=
  ∀ ⦃r : Region⦄ ⦃fs sc : ScopeId⦄ ⦃inLoop : Bool⦄ ⦃out : List (Stmt Span)⦄ ⦃roles : Roles⦄,
    Stmt.AreSource ss → p.analysis.scoping.ResolvedStmts globals fs sc inLoop ss →
    (∀ y ∈ Stmt.nodesOfList ss, y ∈ fn.nodes) → p.Views fn x σ r sc →
    (∀ τ, (x, τ) ∈ roles → σ = τ) → p.LowersStmts r sc ss out roles →
    p.Accounts fn x σ r (Scoping.Declared sc (ss.filterMap Stmt.lexical?) (Stmt.nodesOfList ss))
      (p.analysis.scoping.Gives (Stmt.nodesOfList ss))
      (p.analysis.scoping.Gives (Stmt.nodesOfList ss)) roles (Stmt.ownOfList out)

/-- A block sets the variable where it declares it or gives its binding a value. -/
def BlockAccounted (b : Block Mark) : Prop :=
  ∀ ⦃r : Region⦄ ⦃fs sc : ScopeId⦄ ⦃inLoop : Bool⦄ ⦃b' : Block Span⦄ ⦃roles : Roles⦄, b.IsSource →
    p.analysis.scoping.ResolvedBlock globals fs sc inLoop b → (∀ y ∈ b.nodes, y ∈ fn.nodes) →
    p.Views fn x σ r sc → (∀ τ, (x, τ) ∈ roles → σ = τ) → p.LowersBlock r sc b b' roles →
    p.Accounts fn x σ r (Scoping.Declared sc [] b.nodes) (p.analysis.scoping.Gives b.nodes)
      (p.analysis.scoping.Gives b.nodes) roles (Stmt.ownOfList b'.statements)

/-- A statement sets the variable where it declares it or gives its binding a value. -/
def StmtAccounted (s : Stmt Mark) : Prop :=
  ∀ ⦃r : Region⦄ ⦃fs sc : ScopeId⦄ ⦃inLoop : Bool⦄ ⦃out : List (Stmt Span)⦄ ⦃roles : Roles⦄,
    s.IsSource → p.analysis.scoping.ResolvedStmt globals fs sc inLoop s →
    (∀ y ∈ s.nodes, y ∈ fn.nodes) →
    p.Views fn x σ r sc → (∀ τ, (x, τ) ∈ roles → σ = τ) → p.LowersStmt r sc s out roles →
    p.Accounts fn x σ r (Scoping.Declared sc s.lexical?.toList s.nodes)
      (p.analysis.scoping.Gives s.nodes) (p.analysis.scoping.LendsAt s) roles (Stmt.ownOfList out)

/-- The header of a loop sets the variable where it declares it or gives its binding a value. -/
def HeaderAccounted (h : Header Mark) : Prop :=
  ∀ ⦃r : Region⦄ ⦃fs sc : ScopeId⦄ ⦃loop : NodeId⦄ ⦃h' : Header Span⦄ ⦃roles : Roles⦄, h.IsSource →
    p.analysis.scoping.ResolvedHeader globals fs sc loop h →
    p.analysis.scoping.OpensLoop loop h sc → (∀ y ∈ h.nodes, y ∈ fn.nodes) →
    p.Views fn x σ r sc → (∀ τ, (x, τ) ∈ roles → σ = τ) →
    p.LowersHeader r (h.scopeIn loop sc) h h' roles →
    p.Accounts fn x σ r
      (Scoping.Declared (h.scopeIn loop sc) (Resolve.headerLexical? h).toList h.nodes)
      (p.analysis.scoping.Gives h.nodes) (p.analysis.scoping.Lends h.nodes) roles h'.own

end Statements

/-! ## Functions and blocks -/

/-- A function: what it sets of the variables around it, it sets as a function among the nodes. -/
theorem accounted_function (hp : p.Sound fn globals) {m b : Mark} {ps : List Name}
    {ss : List (Stmt Mark)} (hstmts : p.StmtsAccounted fn globals x σ ss) :
    p.ExprAccounted fn globals x σ (.function m ps (.mk b ss)) := by
  intro r sc e' D P roles hsrc hres hin hs h
  obtain ⟨hoisted, out, inner, hss, hhosts, rfl⟩ := h
  obtain ⟨hopens, hres⟩ := hres
  have hcons := hp.analysed.consistent
  have hflat := (hoistedDeclarations_flat (p := p) hoisted).append (LowersStmts.flat hsrc hss)
  rw [Expr.own]
  refine .function fun ha => ?_
  have hx : x ∉ Roles.names (p.paramRoles m.id ps ++ hoisted.map p.ownRole ++ inner) := by
    rw [List.append_assoc, Roles.names_append, List.mem_append, not_or]
    exact ⟨by simpa [paramRoles, Roles.names] using ha.params,
      fun hin => ha.vars ((hflat.declares.mem_iff x).2 hin)⟩
  have hviews : p.Views fn x σ r.function m.id :=
    .ofOuter hhosts.toHosts hx (fun {n d} hd hown hdx => by
      rcases hcons.of_lookup?_inner hopens.scope hd with hsc | hd'
      · exact absurd (hcons.mem_bindingIdsOf.2 ⟨d, (hcons.of_lookup? hd).1, rfl, hsc⟩) hown
      · exact hs.known hd' hdx)
      (fun hn => hs.global (hcons.lookup?_outer hopens.scope hn)) (by simp [Region.function])
  rw [Roles.names_append, List.mem_append, not_or] at hx
  have hinner := hstmts hsrc hres (fun y hy => hin y (List.mem_cons_of_mem _
    (List.mem_cons_of_mem _ hy))) hviews (fun τ hτ => absurd (Roles.mem_names hτ) hx.2) hss
  have hcode := Accounts.append (.hoisted hoisted) hinner
  rw [← Stmt.ownOfList_append] at hcode
  exact ((hcode.reason hx.2 ha.assigns).region rfl).mono fun c hc =>
    ⟨m, ps, .mk b ss, List.mem_cons_self, fun _ hy => List.mem_cons_of_mem _ hy,
      hc.mono fun _ hy => List.mem_cons_of_mem _ hy⟩

/-- A block without a wrapper. -/
theorem accounted_plainBlock (hp : p.Sound fn globals) {m : Mark} {ss : List (Stmt Mark)}
    (hstmts : p.StmtsAccounted fn globals x σ ss) (hw : p.analysis.wrapper? m.id = none) :
    p.BlockAccounted fn globals x σ (.mk m ss) := by
  intro r fs sc inLoop b' roles hsrc hres hin hs hroles h
  obtain ⟨hopens, hres⟩ := hres
  obtain ⟨out, hss, rfl⟩ := (lowersBlock_plain hw).1 h
  exact (hstmts hsrc hres (fun y hy => hin y (List.mem_cons_of_mem _ hy))
    (hs.block hp hopens hss hroles) hroles hss).mono
    (fun _ h => h.mono (fun hl => .inr ⟨_, List.mem_cons_self,
      (Block.scopeIn_of_ne_nil (b := .mk m ss) hl).symm⟩) fun _ hy => List.mem_cons_of_mem _ hy)
    (fun _ h => h.mono fun _ hy => List.mem_cons_of_mem _ hy)
    (fun _ h => h.mono fun _ hy => List.mem_cons_of_mem _ hy) fun _ h => h

/-- A block with a wrapper: what it sets is set by a function. -/
theorem accounted_wrappedBlock (hp : p.Sound fn globals) {m : Mark} {ss : List (Stmt Mark)}
    {w : Wrapper} (hstmts : p.StmtsAccounted fn globals x σ ss)
    (hw : p.analysis.wrapper? m.id = some w) : p.BlockAccounted fn globals x σ (.mk m ss) := by
  intro r fs sc inLoop b' roles hsrc hres hin hs hroles h
  obtain ⟨hopens, hres⟩ := hres
  obtain ⟨out, inner, call, hss, hhosts, hc, rfl⟩ := (lowersBlock_wrapped hw).1 h
  have hx : .block (.mk m ss) ∈ fn.nodes := hin _ List.mem_cons_self
  have hwr : p.analysis.scoping.blockWrapper? (.mk m ss) = some w := by
    have := hp.analysed.wrapper? hx
    rwa [Node.mark, Block.mark, hw, Scoping.wrapper?, eq_comm] at this
  obtain ⟨hne, -, hlocals, -⟩ := hp.analysed.of_wrappedBlock hx hopens hwr
  have hcons := hp.analysed.consistent
  have hflat := wrapperCode_flat (LowersStmts.flat hsrc hss) w []
  rw [show (Block.mk m ss).scopeIn sc = m.id from Block.scopeIn_of_ne_nil hne] at hres
  refine .calls hc ?_ hs.writeBacks fun τ hτ => ⟨Roles.mem_names hτ, hroles τ hτ⟩
  rw [Expr.own, Expr.own, Expr.ownOfList, List.append_nil]
  refine .cons (by simp) rfl (.function fun ha => ?_)
  have hxi : x ∉ inner.names := fun hin => ha.vars ((hflat.declares.mem_iff x).2 hin)
  have hviews : p.Views fn x σ (r.wrapper []) m.id :=
    .ofOuter hhosts hxi (fun {n d} hd hown hdx => by
      rcases hcons.of_lookup?_inner (hopens.scope hne).2 hd with hsc | hd'
      · refine absurd ?_ hown
        rw [hlocals]
        exact hcons.mem_bindingIdsOf.2 ⟨d, (hcons.of_lookup? hd).1, rfl, hsc⟩
      · exact hs.known hd' hdx)
      (fun hn => hs.global (hcons.lookup?_outer (hopens.scope hne).2 hn))
        (by simp [Region.wrapper])
  have hinner := hstmts hsrc hres (fun y hy => hin y (List.mem_cons_of_mem _ hy)) hviews
    (fun τ hτ => absurd (Roles.mem_names hτ) hxi) hss
  exact (((hinner.wrapperCode w (by simp)).reason hxi ha.assigns).region rfl).mono fun c hc =>
    hc.mono fun _ hy => List.mem_cons_of_mem _ hy

theorem accounted_block (hp : p.Sound fn globals) {m : Mark} {ss : List (Stmt Mark)}
    (hstmts : p.StmtsAccounted fn globals x σ ss) :
    p.BlockAccounted fn globals x σ (.mk m ss) := by
  cases hw : p.analysis.wrapper? m.id with
  | none => exact accounted_plainBlock hp hstmts hw
  | some w => exact accounted_wrappedBlock hp hstmts hw

/-! ## Statements -/

theorem accounted_initialized (hp : p.Sound fn globals) {m : Mark} {n : Name} {k : DeclKind}
    {e : Expr Mark} (hvalue : p.ExprAccounted fn globals x σ e) :
    p.StmtAccounted fn globals x σ (.declaration m n k (some e)) := by
  intro r fs sc inLoop out roles hsrc hres hin hs hroles h
  obtain ⟨b, e', hb, he, h⟩ := h
  obtain ⟨⟨d, hd, hlook, hscope⟩, hre⟩ := hres
  obtain rfl := Option.some.inj (hb.symm.trans hd)
  obtain ⟨hbm, -⟩ := hp.analysed.consistent.of_lookup? hlook
  refine h.accounts hs hlook hbm (declared_of_declares hscope)
    (fun hf => .inr ⟨b, hbm, rfl, hf⟩) hroles ?_
  rintro _ ⟨⟩
  exact (hvalue hsrc hre (fun y hy => hin y (List.mem_cons_of_mem _ hy))
    hs he).widen fun _ h => .of_lends h fun _ hy => List.mem_cons_of_mem _ hy

/-- An assignment sets the variable if the target is a name that means its binding. -/
theorem accounted_assignment {m : Mark} {t v : Expr Mark}
    (htarget : p.ExprAccounted fn globals x σ t) (hvalue : p.ExprAccounted fn globals x σ v) :
    p.StmtAccounted fn globals x σ (.assignment m t v) := by
  intro r fs sc inLoop out roles hsrc hres hin hs _ h
  obtain ⟨t', v', ht, hv, rfl, rfl⟩ := h
  rw [Stmt.ownOfList, Stmt.ownOfList, List.append_nil, Stmt.own]
  have hvin : ∀ y ∈ v.nodes, y ∈ fn.nodes :=
    fun y hy => hin y (List.mem_cons_of_mem _ (List.mem_append_right _ hy))
  have hvsub : ∀ y ∈ v.nodes, y ∈ (Stmt.assignment m t v).nodes :=
    fun y hy => List.mem_cons_of_mem _ (List.mem_append_right _ hy)
  have htsub : ∀ y ∈ t.nodes, y ∈ (Stmt.assignment m t v).nodes :=
    fun y hy => List.mem_cons_of_mem _ (List.mem_append_left _ hy)
  cases t with
  | name k n =>
    rw [LowersExpr] at ht
    subst ht
    refine .consSets (by simp) (fun w hw => .inr (.inl ?_)) (.append (.cons (by simp) rfl .nil)
      ((hvalue hsrc.2 hres.2 hvin hs hv).widen fun _ h => .of_lends h hvsub))
    obtain ⟨b, hx, hσ, hb⟩ := hs.refName hres.1 (Prod.mk.inj (Option.some.inj hw)).1
    exact ⟨b, hx, hσ, .inl ⟨_, List.mem_cons_self, k.id, rfl, hb⟩⟩
  | index k b i =>
    have hres' : p.analysis.scoping.ResolvedExpr globals sc (.index k b i) := ⟨hres.1, hres.2.1⟩
    refine .cons (by simp) ?_ (.append
      ((htarget hsrc.1 hres' (fun y hy => hin y (htsub y hy)) hs ht).widen
        fun _ h => .of_lends h htsub)
      ((hvalue hsrc.2 hres.2.2 hvin hs hv).widen fun _ h => .of_lends h hvsub))
    obtain ⟨b', i', -, -, rfl⟩ := ht
    rfl
  | _ => simp only [Scoping.ResolvedStmt] at hres

theorem accounted_branch {m : Mark} {e : Expr Mark} {t : Block Mark}
    (hcond : p.ExprAccounted fn globals x σ e) (hthen : p.BlockAccounted fn globals x σ t) :
    p.StmtAccounted fn globals x σ (.branch m e t none) := by
  intro r fs sc inLoop out roles hsrc hres hin hs hroles h
  obtain ⟨e', ⟨k, ss⟩, he, ht, rfl⟩ := h
  obtain ⟨hre, -, hrt⟩ := hres
  rw [Stmt.ownOfList, Stmt.ownOfList, List.append_nil]
  have hsub : ∀ y ∈ t.nodes, y ∈ (Stmt.branch m e t none).nodes := fun y hy =>
    List.mem_cons_of_mem _ (List.mem_append_right _ (List.mem_append_left _ hy))
  have hesub : ∀ y ∈ e.nodes, y ∈ (Stmt.branch m e t none).nodes := fun y hy =>
    List.mem_cons_of_mem _ (List.mem_append_left _ hy)
  exact .branch
    ((hcond hsrc.1 hre (fun y hy => hin y (hesub y hy)) hs he).widen
      fun _ h => .of_lends h hesub)
    ((hthen hsrc.2 hrt (fun y hy => hin y (hsub y hy)) hs hroles ht).mono
      (fun _ h => h.mono (fun hl => absurd rfl hl) hsub) (fun _ h => h.mono hsub)
      (fun _ h => .of_gives rfl h hsub) fun _ h => h)

theorem accounted_branchElse {m : Mark} {e : Expr Mark} {t f : Block Mark}
    (hcond : p.ExprAccounted fn globals x σ e) (hthen : p.BlockAccounted fn globals x σ t)
    (helse : p.BlockAccounted fn globals x σ f) :
    p.StmtAccounted fn globals x σ (.branch m e t (some f)) := by
  intro r fs sc inLoop out roles hsrc hres hin hs hroles h
  obtain ⟨e', ⟨k, ss⟩, ⟨k', ss'⟩, ρt, ρf, he, ht, hf, rfl, rfl⟩ := h
  obtain ⟨hre, -, hrt, -, hrf⟩ := hres
  have htsub : ∀ y ∈ t.nodes, y ∈ (Stmt.branch m e t (some f)).nodes := fun y hy =>
    List.mem_cons_of_mem _ (List.mem_append_right _ (List.mem_append_left _ hy))
  have hfsub : ∀ y ∈ f.nodes, y ∈ (Stmt.branch m e t (some f)).nodes := fun y hy =>
    List.mem_cons_of_mem _ (List.mem_append_right _ (List.mem_append_right _ hy))
  have hesub : ∀ y ∈ e.nodes, y ∈ (Stmt.branch m e t (some f)).nodes := fun y hy =>
    List.mem_cons_of_mem _ (List.mem_append_left _ hy)
  rw [Stmt.ownOfList, Stmt.ownOfList, List.append_nil, Stmt.own, Block.own, Block.own]
  refine .cons (by simp) rfl (.append
    ((hcond hsrc.1 hre (fun y hy => hin y (hesub y hy)) hs he).widen
      fun _ h => .of_lends h hesub)
    (.append (.cons (by simp) rfl ?_) (.cons (by simp) rfl ?_)))
  · exact (hthen hsrc.2.1 hrt (fun y hy => hin y (htsub y hy)) hs
      (fun τ hτ => hroles τ (List.mem_append_left _ hτ)) ht).mono
      (fun _ h => h.mono (fun hl => absurd rfl hl) htsub) (fun _ h => h.mono htsub)
      (fun _ h => .of_gives rfl h htsub) fun n hn => by simp [hn]
  · exact (helse hsrc.2.2 hrf (fun y hy => hin y (hfsub y hy)) hs
      (fun τ hτ => hroles τ (List.mem_append_right _ hτ)) hf).mono
      (fun _ h => h.mono (fun hl => absurd rfl hl) hfsub) (fun _ h => h.mono hfsub)
      (fun _ h => .of_gives rfl h hfsub) fun n hn => by simp [hn]

/-! ## Loops -/

section Loop

variable {m b : Mark} {hd : Header Mark} {ss : List (Stmt Mark)}

/-- What the header of a loop declares belongs to the loop. -/
theorem declared_header {d : Binding}
    (h : Scoping.Declared (hd.scopeIn m.id sc) (Resolve.headerLexical? hd).toList hd.nodes d) :
    Scoping.Declared sc [] (Stmt.loop m hd (.mk b ss)).nodes d :=
  h.mono (fun hl => .inr ⟨_, List.mem_cons_self, by
    simp [Header.scopeIn, Option.isSome_iff_ne_none.2 (by simpa using hl), Node.mark, Stmt.mark]⟩)
    fun _ => Stmt.mem_nodes_header

/-- What the body of a loop declares belongs to its block. -/
theorem declared_body {d : Binding} (h : Scoping.Declared ((Block.mk b ss).scopeIn
      (hd.scopeIn m.id sc)) (ss.filterMap Stmt.lexical?) (Stmt.nodesOfList ss) d) :
    Scoping.Declared sc [] (Stmt.loop m hd (.mk b ss)).nodes d :=
  h.mono (fun hl => .inr ⟨.block (.mk b ss),
    List.mem_cons_of_mem _ (List.mem_append_right _ List.mem_cons_self),
    (Block.scopeIn_of_ne_nil (b := .mk b ss) hl).symm⟩) fun _ => Stmt.mem_nodes_body

/-- A loop without a wrapper. -/
theorem accounted_plainLoop (hp : p.Sound fn globals) (hhead : p.HeaderAccounted fn globals x σ hd)
    (hstmts : p.StmtsAccounted fn globals x σ ss) (hw : (p.loopPlan m.id).wrapper = none) :
    p.StmtAccounted fn globals x σ (.loop m hd (.mk b ss)) := by
  intro r fs sc inLoop out roles hsrc hres hin hs hroles h
  obtain ⟨-, hopens, hrh, hopensB, hrb⟩ := hres
  obtain ⟨h', body, ρh, ρb, hh, hb, rfl, rfl⟩ := (lowersStmt_plainLoop hw).1 h
  have hρh : ∀ τ, (x, τ) ∈ ρh → σ = τ := fun τ hτ => hroles τ (List.mem_append_left _ hτ)
  have hρb : ∀ τ, (x, τ) ∈ ρb → σ = τ := fun τ hτ => hroles τ (List.mem_append_right _ hτ)
  have hviews := (hs.header hp hopens hh hρh).loopBody.block hp hopensB hb hρb
  rw [Stmt.ownOfList, Stmt.ownOfList, List.append_nil, Stmt.own, Block.own]
  refine .cons (by simp) rfl (.append ?_ (.cons (by simp) rfl ?_))
  · exact (hhead hsrc.1 hrh hopens (fun y hy => hin y (Stmt.mem_nodes_header hy)) hs hρh hh).mono
      (fun _ => declared_header) (fun _ h => h.mono fun _ => Stmt.mem_nodes_header)
      (fun _ h => .of_gives rfl h.gives fun _ => Stmt.mem_nodes_header) fun n hn => by simp [hn]
  · exact ((hstmts hsrc.2 hrb (fun y hy => hin y (Stmt.mem_nodes_body hy)) hviews hρb hb).mono
      (fun _ => declared_body) (fun _ h => h.mono fun _ => Stmt.mem_nodes_body)
      (fun _ h => .of_gives rfl h fun _ => Stmt.mem_nodes_body) fun n hn => by simp [hn]).region rfl

/-- The variables of the header of a loop are among those of the loop. -/
theorem CallsLoop.header_roles {w : Wrapper} {drivers : List (BindingId × Name)}
    {h' : Header Span} {body : List (Stmt Span)} {ρh : Roles} {out : List (Stmt Span)}
    (h : p.CallsLoop r m b w drivers h' body ρh out roles) : ∀ z ∈ ρh, z ∈ roles := by
  intro z hz
  rw [CallsLoop] at h
  split at h
  · obtain ⟨_, _, _, -, -, rfl⟩ := h
    exact List.mem_append_left _ hz
  · obtain ⟨_, _, -, -, rfl⟩ := h
    exact List.mem_append_left _ hz

/-- A loop with a wrapper: the header sets its drivers, and what the body sets is set by a
    function. -/
theorem accounted_wrappedLoop (hp : p.Sound fn globals) {w : Wrapper}
    (hhead : p.HeaderAccounted fn globals x σ hd) (hstmts : p.StmtsAccounted fn globals x σ ss)
    (hw : (p.loopPlan m.id).wrapper = some w) :
    p.StmtAccounted fn globals x σ (.loop m hd (.mk b ss)) := by
  intro r fs sc inLoop out roles hsrc hres hin hs hroles h
  obtain ⟨hloop, hopens, hrh, hopensB, hrb⟩ := hres
  obtain ⟨drivers, h', body, ρh, ρb, hkeys, hh, hb, hhosts, hdrivers, hcalls⟩ :=
    (lowersStmt_wrappedLoop hw).1 h
  have hx : .stmt (.loop m hd (.mk b ss)) ∈ fn.nodes := hin _ List.mem_cons_self
  have hρh : ∀ τ, (x, τ) ∈ ρh → σ = τ := fun τ hτ => hroles τ (hcalls.header_roles _ hτ)
  have hdr : ∀ d ∈ drivers, d.2 = x → σ = .holds (.driver d.1) := fun d hd he =>
    hρh _ (he ▸ (hdrivers d hd).1)
  have hvh := hs.loopHeader hdr
  have hcode := wrapperCode_flat (LowersStmts.flat hsrc.2 hb) w
    (Lower.loopWriteBacks p (p.loopPlan m.id) drivers)
  refine hcalls.accounts hroles (fun hn => ?_) hs.writeBacks fun ha => ?_
  · exact (hhead hsrc.1 hrh hopens (fun y hy => hin y (Stmt.mem_nodes_header hy)) hvh hρh
      hh).of_loopHeader (fun _ h => h.mono fun _ => Stmt.mem_nodes_header)
      (fun _ h => .of_gives rfl h.gives fun _ => Stmt.mem_nodes_header)
      (fun _ => declared_header) hn (fun d hd => hn _ (Roles.mem_names (hdrivers d hd).1))
      fun d hd hl => ⟨m, _, _, hx, hkeys ▸ List.mem_map_of_mem hd, .inr hl⟩
  · -- the wrapper does not declare the variable, so the body knows it as the code around does
    have hxn : x ∉ Roles.names ((p.loopPlan m.id).fresh.map p.ownRole ++ ρb) := by
      rw [Roles.names_append, List.mem_append, not_or]
      refine ⟨by simpa [Roles.names, loopParams, ownRole] using ha.params,
        fun hin => ha.vars ((hcode.declares.mem_iff x).2 hin)⟩
    have hviews := (hvh.header hp hopens hh hρh).wrappedBody hp hx hloop hopensB hw hkeys hdr
      hhosts hxn
    rw [Roles.names_append, List.mem_append, not_or] at hxn
    have hacc := hstmts hsrc.2 hrb (fun y hy => hin y (Stmt.mem_nodes_body hy)) hviews
      (fun τ hτ => absurd (Roles.mem_names hτ) hxn.2) hb
    exact (((hacc.wrapperCode w hviews.writeBacks).reason hxn.2 ha.assigns).region rfl).mono
      fun c hc => .of_gives rfl hc fun _ => Stmt.mem_nodes_body

theorem accounted_loop (hp : p.Sound fn globals) (hhead : p.HeaderAccounted fn globals x σ hd)
    (hstmts : p.StmtsAccounted fn globals x σ ss) :
    p.StmtAccounted fn globals x σ (.loop m hd (.mk b ss)) := by
  cases hw : (p.loopPlan m.id).wrapper with
  | none => exact accounted_plainLoop hp hhead hstmts hw
  | some w => exact accounted_wrappedLoop hp hhead hstmts hw

end Loop

/-! ## Headers -/

theorem accounted_counting (hp : p.Sound fn globals) {m : Mark} {i : Option (Stmt Mark)}
    {c : Option (Expr Mark)} {u : Option (Stmt Mark)}
    (hinit : ∀ s, i = some s → p.StmtAccounted fn globals x σ s)
    (hcond : ∀ e, c = some e → p.ExprAccounted fn globals x σ e)
    (hupdate : ∀ s, u = some s → p.StmtAccounted fn globals x σ s) :
    p.HeaderAccounted fn globals x σ (.counting m i c u) := by
  intro r fs sc loop h' roles hsrc hres ho hin hs hroles h
  have hviews := hs.header hp ho h hroles
  obtain ⟨hsi, hsc, hsu⟩ := Header.shaped_counting.1 hsrc
  obtain ⟨hri, hrc, hru⟩ := Scoping.resolvedHeader_counting.1 hres
  obtain ⟨i', c', u', ρi, ρu, hi, hc, hu, rfl, rfl⟩ := lowersHeader_counting.1 h
  have hisub : ∀ s, i = some s → ∀ y ∈ s.nodes, y ∈ (Header.counting m i c u).nodes := by
    rintro s rfl y hy
    rw [Header.nodes_counting]
    exact List.mem_cons_of_mem _ (List.mem_append_left _ hy)
  have hcsub : ∀ e, c = some e → ∀ y ∈ e.nodes, y ∈ (Header.counting m i c u).nodes := by
    rintro e rfl y hy
    rw [Header.nodes_counting]
    exact List.mem_cons_of_mem _ (List.mem_append_right _ (List.mem_append_left _ hy))
  have husub : ∀ s, u = some s → ∀ y ∈ s.nodes, y ∈ (Header.counting m i c u).nodes := by
    rintro s rfl y hy
    rw [Header.nodes_counting]
    exact List.mem_cons_of_mem _ (List.mem_append_right _ (List.mem_append_right _ hy))
  rw [Header.own_counting]
  refine .cons (by simp) rfl (.append ?_ (.append ?_ ?_))
  · cases i with
    | none =>
      rw [(hi.1 rfl).1]
      exact .nil
    | some s =>
      exact (hinit s rfl (hsi s rfl).2 (hri s rfl)
        (fun y hy => hin y (hisub s rfl y hy))
        hviews (fun τ hτ => hroles τ (List.mem_append_left _ hτ)) (hi.2 s rfl)).clause
        (hsi s rfl).1
        (fun hl => hl) (hisub s rfl) fun z hz => List.mem_append_left _ hz
  · cases c with
    | none =>
      rw [hc.1 rfl]
      exact .nil
    | some e =>
      obtain ⟨e', he, rfl⟩ := hc.2 e rfl
      exact (hcond e rfl (hsc e rfl) (hrc e rfl) (fun y hy => hin y (hcsub e rfl y hy))
        hviews he).widen fun _ h => h.mono (hcsub e rfl)
  · cases u with
    | none =>
      rw [(hu.1 rfl).1]
      exact .nil
    | some s =>
      refine (hupdate s rfl (hsu s rfl).2 (hru s rfl)
        (fun y hy => hin y (husub s rfl y hy)) hviews
        (fun τ hτ => hroles τ (List.mem_append_right _ hτ)) (hu.2 s rfl)).clause
        (Resolve.isInit_of_isUpdate (hsu s rfl).1) (fun hl => absurd ?_ hl) (husub s rfl)
        fun z hz => List.mem_append_right _ hz
      cases s <;> first | rfl | cases (hsu _ rfl).1

/-- A loop over a sequence sets the variable that it binds in each iteration. -/
theorem accounted_forOf (hp : p.Sound fn globals) {m : Mark} {n : Name} {k : Option DeclKind}
    {e : Expr Mark} (he : p.ExprAccounted fn globals x σ e) :
    p.HeaderAccounted fn globals x σ (.forOf m n k e) := by
  intro r fs sc loop h' roles hsrc hres ho hin hs hroles h
  have hviews := hs.header hp ho h hroles
  obtain ⟨e', n', k', hseq, hel, rfl⟩ := h
  have hesub : ∀ y ∈ e.nodes, y ∈ (Header.forOf m n k e).nodes :=
    fun y hy => List.mem_cons_of_mem _ hy
  rw [Header.own]
  refine .consSets (by simp) (fun v hv => ?_) ((he hsrc hres.1
    (fun y hy => hin y (hesub y hy)) hs hseq).widen fun _ h => h.mono hesub)
  cases k with
  | none =>
    obtain ⟨rfl, rfl, rfl⟩ := hel
    obtain ⟨b, hx, hσ, hb⟩ := hs.refName hres.2 (Prod.mk.inj (Option.some.inj hv)).1
    exact .inr (.inl ⟨b, hx, hσ, .inl ⟨_, List.mem_cons_self, m.id, rfl, hb⟩⟩)
  | some k =>
    obtain ⟨b, hb, rfl, hel⟩ := hel
    have hdecl : p.analysis.scoping.Declares fs ((Header.forOf m n (some k) e).scopeIn loop sc)
        m.id n k := by
      cases k with
      | var => exact hres.2.1
      | letVar | const => exact hres.2
    obtain ⟨d, hd, hlook, hscope⟩ := hdecl
    obtain rfl := Option.some.inj (hb.symm.trans hd)
    obtain ⟨hbm, -⟩ := hp.analysed.consistent.of_lookup? hlook
    split at hel
    · obtain ⟨rfl, rfl⟩ := hel
      have hx : p.nameOf r b.id = x := (Prod.mk.inj (Option.some.inj hv)).1
      rename_i hfs
      rw [Bool.and_eq_true] at hfs
      exact .inr (.inl ⟨b.id, hx.symm, hviews.known hlook hx, .inr ⟨b, hbm, rfl, hfs.1⟩⟩)
    · obtain ⟨rfl, rfl⟩ := hel
      have hx : p.nameOf r b.id = x := (Prod.mk.inj (Option.some.inj hv)).1
      have hrole : (x, .holds (r.slot b.id)) ∈ [p.role r b.id] := by simp [role, hx]
      refine .inl ⟨Roles.mem_names hrole, ?_⟩
      obtain rfl := hroles _ hrole
      cases hsl : r.slot b.id with
      | driver => exact .inl trivial
      | binding c =>
        refine .inr ⟨b, hbm, ?_, ?_⟩
        · rw [Region.slot] at hsl
          split at hsl <;> cases hsl
          rfl
        · split at hscope
          · exact .inr (.inl ⟨by simp [Resolve.headerLexical?, *], hscope.1⟩)
          · exact .inl hscope.2

/-! ## All code -/

mutual

theorem LowersExpr.accounts (hp : p.Sound fn globals) :
    ∀ e : Expr Mark, p.ExprAccounted fn globals x σ e
  | .literal .. => by
    intro r sc e' D P roles _ _ _ _ h
    rw [LowersExpr] at h
    rw [h]
    exact .cons (by simp) rfl .nil
  | .name .. => by
    intro r sc e' D P roles _ _ _ _ h
    rw [LowersExpr] at h
    rw [h]
    exact .cons (by simp) rfl .nil
  | .unary _ _ e => by
    intro r sc e' D P roles hsrc hres hin hs h
    obtain ⟨f, hf, rfl⟩ := h
    rw [Expr.own]
    exact .cons (by simp) rfl ((LowersExpr.accounts hp e hsrc hres
      (fun y hy => hin y (List.mem_cons_of_mem _ hy)) hs hf).widen
        fun _ h => h.mono fun _ hy => List.mem_cons_of_mem _ hy)
  | .binary _ _ e f
  | .index _ e f => by
    intro r sc e' D P roles hsrc hres hin hs h
    obtain ⟨e', f', he, hf, rfl⟩ := h
    rw [Expr.own]
    exact .cons (by simp) rfl (.append
      ((LowersExpr.accounts hp e hsrc.1 hres.1
        (fun y hy => hin y (List.mem_cons_of_mem _ (List.mem_append_left _ hy))) hs he).widen
        fun _ h => h.mono fun _ hy => List.mem_cons_of_mem _ (List.mem_append_left _ hy))
      ((LowersExpr.accounts hp f hsrc.2 hres.2
        (fun y hy => hin y (List.mem_cons_of_mem _ (List.mem_append_right _ hy))) hs hf).widen
        fun _ h => h.mono fun _ hy => List.mem_cons_of_mem _ (List.mem_append_right _ hy)))
  | .call _ f args => by
    intro r sc e' D P roles hsrc hres hin hs h
    obtain ⟨f', args', hf, hargs, rfl⟩ := h
    rw [Expr.own]
    exact .cons (by simp) rfl (.append
      ((LowersExpr.accounts hp f hsrc.1 hres.1
        (fun y hy => hin y (List.mem_cons_of_mem _ (List.mem_append_left _ hy))) hs hf).widen
        fun _ h => h.mono fun _ hy => List.mem_cons_of_mem _ (List.mem_append_left _ hy))
      ((LowersExprs.accounts hp args hsrc.2 hres.2
        (fun y hy => hin y (List.mem_cons_of_mem _ (List.mem_append_right _ hy))) hs hargs).widen
        fun _ h => h.mono fun _ hy => List.mem_cons_of_mem _ (List.mem_append_right _ hy)))
  | .array _ es => by
    intro r sc e' D P roles hsrc hres hin hs h
    obtain ⟨es', hes, rfl⟩ := h
    rw [Expr.own]
    exact .cons (by simp) rfl ((LowersExprs.accounts hp es hsrc hres
      (fun y hy => hin y (List.mem_cons_of_mem _ hy)) hs hes).widen
        fun _ h => h.mono fun _ hy => List.mem_cons_of_mem _ hy)
  | .function _ _ (.mk _ ss) => accounted_function hp (LowersStmts.accounts hp ss)
  | .signal ..
  | .signalIs ..
  | .signalValue ..
  | .unknown .. => by
    intro r sc e' D P roles _ _ _ _ h
    simp only [LowersExpr] at h

theorem LowersExprs.accounts (hp : p.Sound fn globals) :
    ∀ es : List (Expr Mark), p.ExprsAccounted fn globals x σ es
  | [] => by
    intro r sc es' D P roles _ _ _ _ h
    rw [LowersExprs] at h
    rw [h]
    exact .nil
  | e :: es => by
    intro r sc es' D P roles hsrc hres hin hs h
    obtain ⟨e', es', he, hes, rfl⟩ := h
    rw [Expr.ownOfList]
    exact .append
      ((LowersExpr.accounts hp e hsrc.1 hres.1
        (fun y hy => hin y (List.mem_append_left _ hy)) hs he).widen
        fun _ h => h.mono fun _ hy => List.mem_append_left _ hy)
      ((LowersExprs.accounts hp es hsrc.2 hres.2
        (fun y hy => hin y (List.mem_append_right _ hy)) hs hes).widen
        fun _ h => h.mono fun _ hy => List.mem_append_right _ hy)

theorem LowersStmts.accounts (hp : p.Sound fn globals) :
    ∀ ss : List (Stmt Mark), p.StmtsAccounted fn globals x σ ss
  | [] => by
    intro r fs sc inLoop out roles _ _ _ _ _ h
    rw [h.1]
    exact .nil
  | s :: ss => by
    intro r fs sc inLoop out roles hsrc hres hin hs hroles h
    obtain ⟨o, os, ρ, ρs, ho, hos, rfl, rfl⟩ := h
    rw [Stmt.ownOfList_append]
    refine .append
      ((LowersStmt.accounts hp s hsrc.1 hres.1 (fun y hy => hin y (List.mem_append_left _ hy)) hs
        (fun τ hτ => hroles τ (List.mem_append_left _ hτ)) ho).mono
        (fun _ h => h.mono (fun hl => .inl ⟨?_, rfl⟩) fun _ hy => List.mem_append_left _ hy)
        (fun _ h => h.mono fun _ hy => List.mem_append_left _ hy)
        (fun _ h => h.1.mono fun _ hy => List.mem_append_left _ hy) fun y hy => by simp [hy])
      ((LowersStmts.accounts hp ss hsrc.2 hres.2 (fun y hy => hin y (List.mem_append_right _ hy)) hs
        (fun τ hτ => hroles τ (List.mem_append_right _ hτ)) hos).mono
        (fun _ h => h.mono (fun hl => .inl ⟨?_, rfl⟩) fun _ hy => List.mem_append_right _ hy)
        (fun _ h => h.mono fun _ hy => List.mem_append_right _ hy)
        (fun _ h => h.mono fun _ hy => List.mem_append_right _ hy) fun y hy => by simp [hy])
    · rw [List.filterMap_cons]
      cases hsl : s.lexical? with
      | none => simp [hsl] at hl
      | some l => simp
    · rw [List.filterMap_cons]
      cases s.lexical? with
      | none => exact hl
      | some l => simp

theorem LowersBlock.accounts (hp : p.Sound fn globals) :
    ∀ b : Block Mark, p.BlockAccounted fn globals x σ b
  | .mk _ ss => accounted_block hp (LowersStmts.accounts hp ss)

theorem LowersStmt.accounts (hp : p.Sound fn globals) :
    ∀ s : Stmt Mark, p.StmtAccounted fn globals x σ s
  | .declaration m n k none => by
    intro r fs sc inLoop out roles _ hres _ hs hroles h
    obtain ⟨b, hb, h⟩ := h
    obtain ⟨⟨d, hd, hlook, hscope⟩, -⟩ := hres
    obtain rfl := Option.some.inj (hb.symm.trans hd)
    obtain ⟨hbm, -⟩ := hp.analysed.consistent.of_lookup? hlook
    exact h.accounts hs hlook hbm (declared_of_declares hscope)
      (fun hf => .inr ⟨b, hbm, rfl, hf⟩) hroles (by simp)
  | .declaration _ _ _ (some e) => accounted_initialized hp (LowersExpr.accounts hp e)
  | .assignment _ t v => accounted_assignment (LowersExpr.accounts hp t) (LowersExpr.accounts hp v)
  | .expression m e => by
    intro r fs sc inLoop out roles hsrc hres hin hs _ h
    obtain ⟨e', he, rfl, rfl⟩ := h
    rw [Stmt.ownOfList, Stmt.ownOfList, List.append_nil, Stmt.own]
    exact .cons (by simp) rfl ((LowersExpr.accounts hp e hsrc hres
      (fun y hy => hin y (List.mem_cons_of_mem _ hy)) hs he).widen
        fun _ h => .of_lends h fun _ hy => List.mem_cons_of_mem _ hy)
  | .block b => by
    intro r fs sc inLoop out roles hsrc hres hin hs hroles h
    obtain ⟨b', hb, rfl⟩ := h
    have hgives : ∀ i, p.analysis.scoping.Gives b.nodes i →
        p.analysis.scoping.LendsAt (.block b) i := fun _ h => .of_gives rfl h fun _ h => h
    have hacc := (LowersBlock.accounts hp b hsrc hres.2 hin hs hroles hb).widen hgives
    split
    · exact hacc
    · obtain ⟨m, ss⟩ := b'
      rw [Stmt.ownOfList, Stmt.ownOfList, List.append_nil, Stmt.own, Block.own]
      exact .cons (by simp) rfl hacc
  | .branch _ c t none => accounted_branch (LowersExpr.accounts hp c) (LowersBlock.accounts hp t)
  | .branch _ c t (some e) => accounted_branchElse (LowersExpr.accounts hp c)
    (LowersBlock.accounts hp t) (LowersBlock.accounts hp e)
  | .loop _ h (.mk _ ss) => accounted_loop hp (LowersHeader.accounts hp h)
    (LowersStmts.accounts hp ss)
  | .ret m none => by
    intro r fs sc inLoop out roles _ _ _ hs _ h
    rw [h.1]
    exact .leave hs.writeBacks (by simp) (.cons (by simp) rfl .nil)
  | .ret m (some e) => by
    intro r fs sc inLoop out roles hsrc hres hin hs _ h
    obtain ⟨e', he, rfl, rfl⟩ := h
    have hacc {D P} :
        p.Accounts fn x σ r D P (p.analysis.scoping.LendsAt (.ret m (some e))) [] e'.own :=
      (LowersExpr.accounts hp e hsrc hres (fun y hy => hin y (List.mem_cons_of_mem _ hy)) hs
        he).widen fun _ h => .of_lends h fun _ hy => List.mem_cons_of_mem _ hy
    refine .leave hs.writeBacks ?_ (.cons (by simp) rfl hacc)
    rintro _ ⟨⟩
    exact hacc
  | .brk m
  | .cont m => by
    intro r fs sc inLoop out roles _ _ _ hs _ h
    rw [h.2]
    split
    · exact .cons (by simp) rfl .nil
    · exact .leave hs.writeBacks (by simp) (.cons (by simp) rfl .nil)
  | .unknown .. => by
    intro r fs sc inLoop out roles _ _ _ _ _ h
    simp only [LowersStmt] at h

theorem LowersHeader.accounts (hp : p.Sound fn globals) :
    ∀ h : Header Mark, p.HeaderAccounted fn globals x σ h
  | .whileTrue m c => by
    intro r fs sc loop h' roles hsrc hres _ hin hs _ h
    obtain ⟨c', hc, rfl, rfl⟩ := h
    rw [Header.own]
    exact .cons (by simp) rfl ((LowersExpr.accounts hp c hsrc hres
      (fun y hy => hin y (List.mem_cons_of_mem _ hy)) hs hc).widen
        fun _ h => h.mono fun _ hy => List.mem_cons_of_mem _ hy)
  | .counting _ i c u => by
    refine accounted_counting hp (fun s hs => ?_) (fun e he => ?_) fun s hs => ?_
    · cases i with
      | none => cases hs
      | some t =>
        have ht := LowersStmt.accounts hp t
        exact Option.some.inj hs ▸ ht
    · cases c with
      | none => cases he
      | some g =>
        have hg := LowersExpr.accounts hp g
        exact Option.some.inj he ▸ hg
    · cases u with
      | none => cases hs
      | some t =>
        have ht := LowersStmt.accounts hp t
        exact Option.some.inj hs ▸ ht
  | .forOf _ _ _ e => accounted_forOf hp (LowersExpr.accounts hp e)
  | .unknown .. => by
    intro r fs sc loop h' roles _ _ _ _ _ _ h
    simp only [LowersHeader] at h

end

end LoweringPlan

end FlatScope
