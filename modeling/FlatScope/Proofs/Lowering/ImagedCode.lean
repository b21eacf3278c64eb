import FlatScope.Proofs.Lowering.Imaged

/-!
# Lowered code is the image of its source

What is to be proved of a piece of code is said once for each kind of code (`ExprImaged`,
`StmtImaged` and so on). A lemma for each construct then takes it for the parts of the construct,
and the induction over the syntax puts the lemmas together.
-/

namespace FlatScope

open Node

namespace LoweringPlan

variable {p : LoweringPlan} {fn : FunctionDef Mark} {globals : List Name} {a : Scoping} {r : Region}
  {sc : ScopeId} {roles : Roles}

/-! ## What is proved of code -/

section Statements

variable (p : LoweringPlan) (fn : FunctionDef Mark) (globals : List Name) (a : Scoping)

/-- What an expression is lowered to is its image, in every region. -/
def ExprImaged (e : Expr Mark) : Prop :=
  ∀ ⦃r : Region⦄ ⦃sc f n m : Nat⦄ ⦃x : Expr Mark⦄, e.IsSource →
    p.analysis.scoping.ResolvedExpr globals sc e → Consecutive n e.nodes m →
    (∀ y ∈ e.nodes, y ∈ fn.nodes) → p.FreshDrivers fn r → p.LowersExpr r e (x.map Mark.span) →
    a.ResolvedExpr globals f x → p.Yields fn a (fun _ => False) n m [] (functions x.nodes)
      fun R => p.Mirrors R r sc f → p.ImagesExpr R r e x

/-- What expressions are lowered to are their images. -/
def ExprsImaged (es : List (Expr Mark)) : Prop :=
  ∀ ⦃r : Region⦄ ⦃sc f n m : Nat⦄ ⦃xs : List (Expr Mark)⦄,
    Expr.AreSource es → p.analysis.scoping.ResolvedExprs globals sc es →
    Consecutive n (Expr.nodesOfList es) m → (∀ y ∈ Expr.nodesOfList es, y ∈ fn.nodes) →
    p.FreshDrivers fn r → p.LowersExprs r es (Expr.mapList Mark.span xs) →
    a.ResolvedExprs globals f xs →
    p.Yields fn a (fun _ => False) n m [] (functions (Expr.nodesOfList xs))
      fun R => p.Mirrors R r sc f → p.ImagesExprs R r es xs

/-- What a list of statements is lowered to is its image. -/
def StmtsImaged (ss : List (Stmt Mark)) : Prop :=
  ∀ ⦃r : Region⦄ ⦃fs sc f : Nat⦄ ⦃i l : Bool⦄ ⦃n m : Nat⦄
    ⦃out : List (Stmt Mark)⦄ ⦃roles : Roles⦄, Stmt.AreSource ss →
    p.analysis.scoping.ResolvedStmts globals fs sc i ss →
    Consecutive n (Stmt.nodesOfList ss) m → (∀ y ∈ Stmt.nodesOfList ss, y ∈ fn.nodes) →
    p.FreshDrivers fn r → fs < n → sc < n →
    p.LowersStmts r sc ss (Stmt.mapList Mark.span out) roles →
    a.ResolvedStmts globals f f l out →
    p.Yields fn a (Around r fs sc (ss.filterMap Stmt.lexical? ≠ [])) n m roles
      (functions (Stmt.nodesOfList out)) fun R => (∀ x ∈ roles, R.Binds f x.1 x.2) →
        p.Mirrors R r sc f → p.ImagesStmts R r ss out

/-- What a block is lowered to is its image. -/
def BlockImaged (b : Block Mark) : Prop :=
  ∀ ⦃r : Region⦄ ⦃fs sc f : Nat⦄ ⦃i l : Bool⦄ ⦃n m : Nat⦄ ⦃x : Block Mark⦄
    ⦃roles : Roles⦄, b.IsSource → p.analysis.scoping.ResolvedBlock globals fs sc i b →
    Consecutive n b.nodes m → (∀ y ∈ b.nodes, y ∈ fn.nodes) → p.FreshDrivers fn r → fs < n →
    sc < n → p.LowersBlock r sc b (x.map Mark.span) roles →
    a.ResolvedStmts globals f f l x.statements →
    p.Yields fn a (Around r fs sc False) n m roles (functions (Stmt.nodesOfList x.statements))
      fun R => (∀ x ∈ roles, R.Binds f x.1 x.2) → p.Mirrors R r sc f → p.ImagesBlock R r b x

/-- What a statement is lowered to is its image. -/
def StmtImaged (s : Stmt Mark) : Prop :=
  ∀ ⦃r : Region⦄ ⦃fs sc f : Nat⦄ ⦃i l : Bool⦄ ⦃n m : Nat⦄
    ⦃out : List (Stmt Mark)⦄ ⦃roles : Roles⦄, s.IsSource →
    p.analysis.scoping.ResolvedStmt globals fs sc i s →
    Consecutive n s.nodes m → (∀ y ∈ s.nodes, y ∈ fn.nodes) →
    p.FreshDrivers fn r → fs < n → sc < n → p.LowersStmt r sc s (Stmt.mapList Mark.span out) roles →
    a.ResolvedStmts globals f f l out →
    p.Yields fn a (Around r fs sc s.lexical?.isSome) n m roles
      (functions (Stmt.nodesOfList out)) fun R => (∀ x ∈ roles, R.Binds f x.1 x.2) →
        p.Mirrors R r sc f → p.ImagesStmt R r s out

/-- What the header of a loop is lowered to is its image. -/
def HeaderImaged (h : Header Mark) : Prop :=
  ∀ ⦃r : Region⦄ ⦃fs sc f : Nat⦄ ⦃loop loop' : NodeId⦄ ⦃n m : Nat⦄
    ⦃x : Header Mark⦄ ⦃roles : Roles⦄, h.IsSource →
    p.analysis.scoping.ResolvedHeader globals fs sc loop h →
    p.analysis.scoping.OpensLoop loop h sc → Consecutive n h.nodes m →
    (∀ y ∈ h.nodes, y ∈ fn.nodes) → p.FreshDrivers fn r → fs < n → h.scopeIn loop sc < n →
    p.LowersHeader r (h.scopeIn loop sc) h (x.map Mark.span) roles →
    a.ResolvedHeader globals f f loop' x → x.IsFlat →
    p.Yields fn a (Around r fs loop (Resolve.headerLexical? h).isSome) n m roles
      (functions x.nodes) fun R => (∀ x ∈ roles, R.Binds f x.1 x.2) → p.Mirrors R r sc f →
        p.ImagesHeader R r h x

end Statements

/-! ## Expressions -/

/-- Two expressions, one after the other. -/
theorem ExprImaged.and (hp : p.Sound fn globals) {e g : Expr Mark}
    (he : p.ExprImaged fn globals a e) (hg : p.ExprImaged fn globals a g) {r : Region}
    {sc f n m : Nat} {x y : Expr Mark} (hsrc : e.IsSource ∧ g.IsSource)
    (hres : p.analysis.scoping.ResolvedExpr globals sc e ∧
      p.analysis.scoping.ResolvedExpr globals sc g)
    (hn : Consecutive n (e.nodes ++ g.nodes) m) (hin : ∀ y ∈ e.nodes ++ g.nodes, y ∈ fn.nodes)
    (hd : p.FreshDrivers fn r) (hx : p.LowersExpr r e (x.map Mark.span))
    (hy : p.LowersExpr r g (y.map Mark.span))
    (hresQ : a.ResolvedExpr globals f x ∧ a.ResolvedExpr globals f y) :
    p.Yields fn a (fun _ => False) n m [] (functions x.nodes ++ functions y.nodes) fun R =>
      (p.Mirrors R r sc f → p.ImagesExpr R r e x) ∧
        (p.Mirrors R r sc f → p.ImagesExpr R r g y) := by
  obtain ⟨q, hce, hcg⟩ := hn.of_append
  exact (he hsrc.1 hres.1 hce (fun y hy => hin y (List.mem_append_left _ hy)) hd hx hresQ.1).append
    hp (hg hsrc.2 hres.2 hcg (fun y hy => hin y (List.mem_append_right _ hy)) hd hy hresQ.2)
    (fun _ h => h.elim) hce.le hcg.le

theorem imaged_binary (hp : p.Sound fn globals) {k : Mark} {op : BinaryOp} {e g : Expr Mark}
    (he : p.ExprImaged fn globals a e) (hg : p.ExprImaged fn globals a g) :
    p.ExprImaged fn globals a (.binary k op e g) := by
  intro r sc f n m x hsrc hres hn hin hd h hresQ
  obtain ⟨e', g', hx, hy, h⟩ := h
  obtain ⟨k, y, z, rfl, rfl, rfl⟩ := Expr.of_map_binary h
  obtain ⟨-, -, hc⟩ := hn.of_cons
  exact (he.and hp hg hsrc hres hc (fun y hy => hin y (List.mem_cons_of_mem _ hy)) hd hx hy
    hresQ).under (by simp [Expr.nodes, function?]) fun R _ h hm => ⟨k, y, z, h.1 hm, h.2 hm, rfl⟩

theorem imaged_index (hp : p.Sound fn globals) {k : Mark} {e g : Expr Mark}
    (he : p.ExprImaged fn globals a e) (hg : p.ExprImaged fn globals a g) :
    p.ExprImaged fn globals a (.index k e g) := by
  intro r sc f n m x hsrc hres hn hin hd h hresQ
  obtain ⟨e', g', hx, hy, h⟩ := h
  obtain ⟨k, y, z, rfl, rfl, rfl⟩ := Expr.of_map_index h
  obtain ⟨-, -, hc⟩ := hn.of_cons
  exact (he.and hp hg hsrc hres hc (fun y hy => hin y (List.mem_cons_of_mem _ hy)) hd hx hy
    hresQ).under (by simp [Expr.nodes, function?]) fun R _ h hm => ⟨k, y, z, h.1 hm, h.2 hm, rfl⟩

theorem imaged_call (hp : p.Sound fn globals) {k : Mark} {g : Expr Mark} {args : List (Expr Mark)}
    (hg : p.ExprImaged fn globals a g) (hargs : p.ExprsImaged fn globals a args) :
    p.ExprImaged fn globals a (.call k g args) := by
  intro r sc f n m x hsrc hres hn hin hd h hresQ
  obtain ⟨g', args', hy, hzs, h⟩ := h
  obtain ⟨k, y, zs, rfl, rfl, rfl⟩ := Expr.of_map_call h
  obtain ⟨-, -, hc⟩ := hn.of_cons
  obtain ⟨q, hcg, hcargs⟩ := hc.of_append
  have hcallee := hg hsrc.1 hres.1 hcg
    (fun y hy => hin y (List.mem_cons_of_mem _ (List.mem_append_left _ hy))) hd hy hresQ.1
  have harguments := hargs hsrc.2 hres.2 hcargs
    (fun y hy => hin y (List.mem_cons_of_mem _ (List.mem_append_right _ hy))) hd hzs hresQ.2
  exact (hcallee.append hp harguments (fun _ h => h.elim) hcg.le hcargs.le).under
    (by simp [Expr.nodes, function?]) fun R _ h hm => ⟨k, y, zs, h.1 hm, h.2 hm, rfl⟩

/-- A function: its code is a region of its own, whose wrapper is gone. -/
theorem imaged_function (hp : p.Sound fn globals) (ha : a.Consistent) {m b : Mark} {ps : List Name}
    {ss : List (Stmt Mark)} (hcode : p.StmtsImaged fn globals a ss) :
    p.ExprImaged fn globals a (.function m ps (.mk b ss)) := by
  intro r sc f n k x hsrc hres hn hin hd h hresQ
  obtain ⟨hoisted, out, roles, hss, hhosts, h⟩ := h
  obtain ⟨q, c, code, rfl, hparts⟩ := Expr.of_map_function h
  obtain ⟨top, body, rfl, htop, rfl⟩ := Stmt.of_mapList_append hparts
  obtain ⟨hopens, hres⟩ := hres
  obtain ⟨hopensQ, hresQ⟩ := hresQ
  obtain ⟨hm, -, hc⟩ := hn.of_cons
  obtain rfl : n = m.id := hm
  obtain ⟨-, hlt, hc⟩ := hc.of_cons
  refine (HostsFunction.images hp ha (Q := fun R => p.Mirrors R r sc f) hhosts hopens hopensQ htop
    (LowersStmts.flat hsrc hss) (by have := hc.le; omega) (hcode (l := false)
      hsrc hres hc (fun y hy => hin y (List.mem_cons_of_mem _ (List.mem_cons_of_mem _ hy)))
      (show p.FreshDrivers fn r.function from hd) (by omega) (by omega) hss
      (Scoping.resolvedStmts_append.1 hresQ).2)
    fun R _ hm => ⟨fun n d hd hown => ⟨f, rfl, hm.known (hp.own_or_around hopens.scope hd hown)⟩,
      ?_⟩).mono (Nat.le_refl _) (Nat.le_refl _) (fun _ => .inl) (fun _ _ h => h) (.of_eq ?_)
    fun R _ h hm => ?_
  · rintro n hn hg _ ⟨⟩
    exact hm.global (hp.analysed.consistent.lookup?_outer hopens.scope hn) hg
  · simp [Expr.nodes, Block.nodes, function?]
  · obtain ⟨hroles, himages⟩ := h hm
    exact ⟨q, c, hoisted, top, body, htop, hroles, himages, rfl⟩

theorem imaged_exprs_cons (hp : p.Sound fn globals) {e : Expr Mark} {es : List (Expr Mark)}
    (he : p.ExprImaged fn globals a e) (hes : p.ExprsImaged fn globals a es) :
    p.ExprsImaged fn globals a (e :: es) := by
  intro r sc f n m xs hsrc hres hn hin hd h hresQ
  obtain ⟨e', es', hx, hxs, h⟩ := h
  obtain ⟨y, ys, rfl, rfl, rfl⟩ := Expr.of_mapList_cons h
  obtain ⟨q, hce, hces⟩ := hn.of_append
  have hhead := he hsrc.1 hres.1 hce (fun y hy => hin y (List.mem_append_left _ hy)) hd hx hresQ.1
  have htail := hes hsrc.2 hres.2 hces (fun y hy => hin y (List.mem_append_right _ hy)) hd hxs
    hresQ.2
  exact (hhead.append hp htail (fun _ h => h.elim) hce.le hces.le).mono (Nat.le_refl _)
    (Nat.le_refl _) (fun _ => .inl) (fun _ _ h => h) (.of_eq (functions_append ..).symm)
    fun R _ h hm => ⟨y, ys, h.1 hm, h.2 hm, rfl⟩

/-! ## Statements in a row, and blocks -/

theorem imaged_stmts_cons (hp : p.Sound fn globals) {s : Stmt Mark} {ss : List (Stmt Mark)}
    (hs : p.StmtImaged fn globals a s) (hss : p.StmtsImaged fn globals a ss) :
    p.StmtsImaged fn globals a (s :: ss) := by
  intro r fs sc f i l n m out roles hsrc hres hn hin hd hfs hsc h hresQ
  obtain ⟨o, os, ρ, ρs, hlow, hlows, h, rfl⟩ := h
  obtain ⟨y, ys, rfl, rfl, rfl⟩ := Stmt.of_mapList_append h
  obtain ⟨hq, hqs⟩ := Scoping.resolvedStmts_append.1 hresQ
  obtain ⟨k, hcs, hcss⟩ := hn.of_append
  have hall : ∀ t ∈ s :: ss, t.lexical?.isSome → (s :: ss).filterMap Stmt.lexical? ≠ [] :=
    fun t ht hlex he => by simp [List.filterMap_eq_nil_iff.1 he t ht] at hlex
  have hone := (hs hsrc.1 hres.1 hcs
    (fun y hy => hin y (List.mem_append_left _ hy)) hd hfs hsc hlow hq).around
    (hall s List.mem_cons_self)
  have hrest := (hss hsrc.2 hres.2 hcss
    (fun y hy => hin y (List.mem_append_right _ hy)) hd (Nat.lt_of_lt_of_le hfs hcs.le)
    (Nat.lt_of_lt_of_le hsc hcs.le) hlows hqs).around fun hne => by
      obtain ⟨t, ht⟩ := List.exists_mem_of_ne_nil _ hne
      obtain ⟨t', ht', hlex⟩ := List.mem_filterMap.1 ht
      exact hall t' (List.mem_cons_of_mem _ ht') (by simp [hlex])
  refine (hone.append hp hrest (Around.lt hfs hsc) hcs.le hcss.le).mono (Nat.le_refl _)
    (Nat.le_refl _) (fun _ => .inl) (fun _ _ h => h)
    (.of_eq (by rw [Stmt.nodesOfList_append, functions_append])) fun R _ h hroles hm => ?_
  exact ⟨y, ys, h.1 (fun x hx => hroles x (List.mem_append_left _ hx)) hm,
    h.2 (fun x hx => hroles x (List.mem_append_right _ hx)) hm, rfl⟩

/-- A block without a wrapper. -/
theorem imaged_plainBlock (hp : p.Sound fn globals) {k : Mark} {ss : List (Stmt Mark)}
    (hcode : p.StmtsImaged fn globals a ss) (hw : p.analysis.wrapper? k.id = none) :
    p.BlockImaged fn globals a (.mk k ss) := by
  intro r fs sc f i l n m x roles hsrc hres hn hin hd hfs hsc h hresQ
  obtain ⟨hopens, hss⟩ := hres
  obtain ⟨hk, hlt, hc⟩ := hn.of_cons
  obtain rfl : n = k.id := hk
  obtain ⟨out, hlow, hx⟩ := (lowersBlock_plain hw).1 h
  obtain ⟨q, ss', rfl, rfl⟩ := Block.of_map hx
  have B : p.Yields fn a (Around r fs sc False) k.id m roles (functions (Stmt.nodesOfList ss')) _ :=
    (hcode hsrc hss hc (fun y hy => hin y (List.mem_cons_of_mem _ hy)) hd (Nat.lt_succ_of_lt hfs)
      (Block.scopeIn_lt (Nat.lt_succ_self _) (Nat.lt_succ_of_lt hsc)) hlow hresQ).enclosed
      (Nat.le_succ _) fun hne => by
        rw [Block.scopeIn_of_ne_nil (b := .mk _ ss) hne]
        exact ⟨Nat.le_refl _, hlt⟩
  exact B.mono (Nat.le_refl _) (Nat.le_refl _) (fun _ => .inl) (fun _ _ h => h) (.refl _)
    fun R _ h hroles hm =>
      (imagesBlock_plain hw).2 ⟨q, ss', h hroles (hm.block hp hopens hlow hroles), rfl⟩

/-- A block with a wrapper: the scope of the block is that of the wrapper. -/
theorem imaged_wrappedBlock (hp : p.Sound fn globals) (ha : a.Consistent) {k : Mark}
    {ss : List (Stmt Mark)} {w : Wrapper} (hstmts : p.StmtsImaged fn globals a ss)
    (hw : p.analysis.wrapper? k.id = some w) : p.BlockImaged fn globals a (.mk k ss) := by
  intro r fs sc f i l n m x roles hsrc hres hn hin hd hfs hsc h hresQ
  obtain ⟨hopens, hss⟩ := hres
  obtain ⟨hk, hlt, hc⟩ := hn.of_cons
  obtain rfl : n = k.id := hk
  obtain ⟨out, inner, call, hlow, hhosts, hcalls, hx⟩ := (lowersBlock_wrapped hw).1 h
  obtain ⟨q, ss', rfl, rfl⟩ := Block.of_map hx
  have hcons := hp.analysed.consistent
  have hbw : p.analysis.scoping.blockWrapper? (.mk k ss) = some w :=
    (hp.analysed.wrapper? (hin _ List.mem_cons_self)).symm.trans hw
  obtain ⟨hne, -, hlocals, -⟩ := hp.analysed.of_wrappedBlock
    (hin _ List.mem_cons_self) hopens hbw
  rw [show (Block.mk k ss).scopeIn sc = k.id from Block.scopeIn_of_ne_nil hne] at hss
  -- the call, and the wrapper in it
  obtain ⟨hnone, x, hx, hrx, hfs', himages⟩ := hcalls.images hresQ
  obtain ⟨u, y, args, rfl, hy, hargs⟩ := Expr.of_map_call hx
  obtain rfl := Expr.of_mapList_nil hargs
  rw [wrapperCode_eq] at hy
  obtain ⟨g, c, code, rfl, hcode⟩ := Expr.of_map_function hy
  obtain ⟨body, ending, rfl, rfl, hend⟩ := Stmt.of_mapList_append hcode
  obtain ⟨hopensQ, hrbody⟩ := hrx.1
  have hplain : functions (Stmt.nodesOfList ending) = [] :=
    (Stmt.plain_mapList Mark.span).1 (hend ▸ wrapperEnd_plain _ w)
  have hflat : Stmt.FlatWith (Stmt.mapList Mark.span (body ++ ending)) inner :=
    hcode ▸ wrapperCode_flat (LowersStmts.flat hsrc hlow) w []
  have hstores := hhosts.storesCode ha hopensQ hflat (by simp)
  have hbody := hstmts (l := false) hsrc hss hc
    (fun y hy => hin y (List.mem_cons_of_mem _ hy))
    (show p.FreshDrivers fn (r.wrapper []) from hd) (by omega) (by omega) hlow
    (Scoping.resolvedStmts_append.1 hrbody).1
  refine (hbody.close (i := k.id) (U := Around r fs sc False) hp hstores (by omega) (by omega)
    (fun x hx => ?_) (fun x s hx => .inl hx)).mono (Nat.le_refl _) (Nat.le_refl _)
    (fun _ => .inl) (fun x s hx => absurd hx (hnone x s)) (.of_eq ?_) fun R hR h hroles hm => ?_
  · rcases hx with ⟨hx, -⟩ | ⟨-, rfl⟩
    · cases hx
    · omega
  · rw [show functions (Stmt.nodesOfList (Block.mk q ss').statements) = _ from hfs']
    simp [Expr.nodes, Expr.nodesOfList, Block.nodes, Stmt.nodesOfList_append, hplain, function?]
  · obtain ⟨hinnerRoles, hcodeImages⟩ := h
    have hmq : p.Mirrors R (r.wrapper []) k.id g.id := by
      subst hR
      refine hhosts.mirrors ha hopensQ.scope hstores hinnerRoles
        (fun {n d} hd hown => ⟨f, rfl, ?_⟩) ?_
      · exact hm.known (hp.own_or_around (hopens.scope hne).2 hd (hlocals ▸ hown))
      · rintro n hn hg _ ⟨⟩
        exact hm.global (hcons.lookup?_outer (hopens.scope hne).2 hn) hg
    exact (imagesBlock_wrapped hw).2 ⟨q, u, g, c, body, ending, ss',
      hcodeImages hinnerRoles hmq, hend, himages R hR hroles, rfl⟩

/-- A block is imaged when its statements are, in the scope that it opens. -/
theorem imaged_block (hp : p.Sound fn globals) (ha : a.Consistent) {k : Mark}
    {ss : List (Stmt Mark)} (hcode : p.StmtsImaged fn globals a ss) :
    p.BlockImaged fn globals a (.mk k ss) := by
  cases hw : p.analysis.wrapper? k.id with
  | none => exact imaged_plainBlock hp hcode hw
  | some w => exact imaged_wrappedBlock hp ha hcode hw

/-! ## Statements without a body -/

/-- The variable of a declaration belongs to a scope around it. -/
theorem FreshDrivers.declared (hd : p.FreshDrivers fn r) (hp : p.Sound fn globals) {m : Mark}
    {y : Name} {k : DeclKind} {v : Option (Expr Mark)} {b : Binding} {fs : ScopeId}
    (hlook : p.analysis.scoping.lookup? sc y = some b)
    (hscope : if k.isBlockScoped then b.scope = sc ∧ b.origin.kind? = some k
      else b.scope = fs ∧ b.origin.isFunctionScoped)
    (hroles : ∀ x s, (x, Role.holds s) ∈ roles →
      s = r.slot b.id ∧ (b.origin.isFunctionScoped → r.inWrapper = false)) :
    ∀ x s, (x, Role.holds s) ∈ roles →
      ∃ z, p.SlotOf fn z s ∧ Around r fs sc (Stmt.declaration m y k v).lexical?.isSome z := by
  intro x s hx
  obtain ⟨rfl, hw⟩ := hroles x s hx
  obtain ⟨z, hz, ho⟩ := hd.around hp hlook hscope hw
  refine ⟨z, hz, ho.imp_right fun h => ⟨?_, h.2⟩⟩
  rw [Stmt.lexical?, if_pos h.1]
  rfl

/-- A declaration without a value is an image when it names what its binding is named. -/
theorem imaged_declaration (hp : p.Sound fn globals) {m : Mark} {y : Name} {k : DeclKind} :
    p.StmtImaged fn globals a (.declaration m y k none) := by
  intro r fs sc f i l n _ out roles _ hres _ _ hd _ _ h hresQ
  obtain ⟨b, hb, h⟩ := h
  obtain ⟨⟨d, hd', hlook, hscope⟩, -⟩ := hres
  obtain rfl := Option.some.inj (hb.symm.trans hd')
  obtain ⟨hroles, v, hv, -, hfs, himages⟩ := h.images hlook hresQ
  obtain rfl := Option.map_eq_none_iff.1 hv
  exact .own hfs (hd.declared hp hlook hscope hroles) fun R hR _ hm => ⟨b, hb, himages R hR hm⟩

/-- A declaration with a value: its own role comes first, then the roles of the value. -/
theorem imaged_initialized (hp : p.Sound fn globals) {m : Mark} {y : Name} {k : DeclKind}
    {e : Expr Mark} (hvalue : p.ExprImaged fn globals a e) :
    p.StmtImaged fn globals a (.declaration m y k (some e)) := by
  intro r fs sc f i l n _ out roles hsrc hres hn hin hd hfs₀ hsc h hresQ
  obtain ⟨b, e', hb, he, h⟩ := h
  obtain ⟨⟨d, hd', hlook, hscope⟩, hre⟩ := hres
  obtain rfl := Option.some.inj (hb.symm.trans hd')
  obtain ⟨hroles, v, hv, hrv, hfs, himages⟩ := h.images hlook hresQ
  obtain ⟨z, rfl, rfl⟩ := Option.map_eq_some_iff.1 hv
  obtain ⟨-, -, hc⟩ := hn.of_cons
  have hown : p.Yields fn a (Around r fs sc (Stmt.declaration m y k (some e)).lexical?.isSome) n
      (n + 1) roles [] fun _ => True :=
    .own rfl (hd.declared hp hlook hscope hroles) fun _ _ => trivial
  have hz := hvalue hsrc hre hc (fun y hy => hin y (List.mem_cons_of_mem _ hy)) hd he (hrv z rfl)
  exact (hown.append hp hz.inside (Around.lt hfs₀ hsc) (Nat.le_succ n) hc.le).mono
    (Nat.le_refl _) (Nat.le_refl _) (fun _ => .inl) (fun _ _ h => List.mem_append_left _ h)
    (.of_eq hfs.symm) fun R hR h _ hm => ⟨b, z, hb, h.2 hm, himages R hR hm⟩

theorem imaged_assignment (hp : p.Sound fn globals) {m : Mark} {t v : Expr Mark}
    (htarget : p.ExprImaged fn globals a t) (hvalue : p.ExprImaged fn globals a v) :
    p.StmtImaged fn globals a (.assignment m t v) := by
  intro r fs sc f i l n _ out roles hsrc hres hn hin hd _ _ h hresQ
  obtain ⟨t', v', ht, hv, h, rfl⟩ := h
  obtain ⟨s, rfl, hs⟩ := Stmt.of_mapList_one h
  obtain ⟨k, y, z, rfl, rfl, rfl⟩ := Stmt.of_map_assignment hs
  obtain ⟨-, -, hc⟩ := hn.of_cons
  obtain ⟨q, hct, hcv⟩ := hc.of_append
  -- the target is used for writing if it is a name
  have hy : p.Yields fn a (fun _ => False) (n + 1) q [] (functions y.nodes) (fun R =>
      p.Mirrors R r sc f → p.ImagesExpr R r t y) ∧ a.ResolvedExpr globals f z := by
    cases t with
    | name _ _ =>
      rw [LowersExpr] at ht
      obtain ⟨k, rfl⟩ := Expr.of_map_name ht
      exact ⟨.plain rfl (by simp) fun R hR hm => ⟨k, rfl, hm.use hres.1 (hR ▸ hresQ.1.1)⟩,
        hresQ.1.2⟩
    | index q₀ b j =>
      have ht' := ht
      obtain ⟨b', j', -, -, hy⟩ := ht'
      obtain ⟨k, y₁, y₂, rfl, -, -⟩ := Expr.of_map_index hy
      obtain ⟨⟨hrb, hrj, hrz⟩, -⟩ := hresQ
      have hres' : p.analysis.scoping.ResolvedExpr globals sc (.index q₀ b j) :=
        ⟨hres.1, hres.2.1⟩
      exact ⟨htarget hsrc.1 hres' hct (fun y hy => hin y (List.mem_cons_of_mem _
        (List.mem_append_left _ hy))) hd ht ⟨hrb, hrj⟩, hrz⟩
    | _ => simp only [Scoping.ResolvedStmt] at hres
  have hrv : p.analysis.scoping.ResolvedExpr globals sc v := by
    cases t with
    | name _ _ => exact hres.2
    | index _ b j => exact hres.2.2
    | _ => simp only [Scoping.ResolvedStmt] at hres
  refine ((hy.1.append hp (hvalue hsrc.2 hrv hcv (fun y hy => hin y
    (List.mem_cons_of_mem _ (List.mem_append_right _ hy))) hd hv hy.2) (fun _ h => h.elim)
    hct.le hcv.le).mono (Nat.le_succ n) (Nat.le_refl _) (fun _ h => h.elim) (fun _ _ h => h)
    (.of_eq ?_) fun R _ h _ hm => ⟨k, y, z, h.1 hm, h.2 hm, rfl⟩)
  simp [Stmt.nodesOfList, Stmt.nodes, function?]

theorem imaged_expression {m : Mark} {e : Expr Mark} (he : p.ExprImaged fn globals a e) :
    p.StmtImaged fn globals a (.expression m e) := by
  intro r fs sc f i l n _ out roles hsrc hres hn hin hd _ _ h hresQ
  obtain ⟨e', hlow, h, rfl⟩ := h
  obtain ⟨s, rfl, hs⟩ := Stmt.of_mapList_one h
  obtain ⟨k, y, rfl, rfl⟩ := Stmt.of_map_expression hs
  obtain ⟨-, -, hc⟩ := hn.of_cons
  exact (he hsrc hres hc (fun y hy => hin y (List.mem_cons_of_mem _ hy)) hd hlow hresQ.1).mono
    (Nat.le_succ n) (Nat.le_refl _) (fun _ h => h.elim) (fun _ _ h => h)
    (.of_eq (by simp [Stmt.nodesOfList, Stmt.nodes, function?])) fun R _ h _ hm => ⟨k, y, h hm, rfl⟩

/-- A `return` of a value. In a wrapper the value leaves in a signal, behind the write-backs. -/
theorem imaged_ret {m : Mark} {e : Expr Mark} (hvalue : p.ExprImaged fn globals a e) :
    p.StmtImaged fn globals a (.ret m (some e)) := by
  intro r fs sc f i l n k out roles hsrc hres hn hin hd _ _ h hresQ
  obtain ⟨e', he, h, rfl⟩ := h
  obtain ⟨-, -, hc⟩ := hn.of_cons
  -- it remains to find the value among the statements, and that it is all they do
  suffices ∃ y : Expr Mark, y.map Mark.span = e' ∧ a.ResolvedExpr globals f y ∧
      functions y.nodes = functions (Stmt.nodesOfList out) ∧
      ∀ R, p.ImagesExpr R r e y → p.ImagesStmt R r (.ret m (some e)) out by
    obtain ⟨y, rfl, hqy, hfs, himages⟩ := this
    exact (hvalue hsrc hres hc (fun y hy => hin y (List.mem_cons_of_mem _ hy)) hd he hqy).mono
      (Nat.le_succ n) (Nat.le_refl _) (fun _ h => h.elim) (fun _ _ h => h) (.of_eq hfs)
      fun R _ h _ hm => himages R (h hm)
  rw [Lower.leave] at h
  split at h
  next hw =>
    obtain ⟨back, last, rfl, hback, hlast⟩ := Stmt.of_mapList_append h
    obtain ⟨s, rfl, hs⟩ := Stmt.of_mapList_one hlast
    obtain ⟨k, x, rfl, hx⟩ := Stmt.of_map_ret hs
    obtain ⟨k', y, rfl, hy⟩ := Expr.of_map_signal hx
    have hplain : functions (Stmt.nodesOfList back) = [] :=
      (Stmt.plain_mapList Mark.span).1 (hback ▸ writeBackStmts_plain _)
    refine ⟨y, hy, (Scoping.resolvedStmts_append.1 hresQ).2.1, ?_, fun R hR => ⟨k, y, hR, ?_⟩⟩
    · simp [Stmt.nodesOfList_append, hplain, Stmt.nodesOfList, Stmt.nodes, Expr.nodes, function?]
    · rw [if_pos hw]
      exact ⟨k', back, hback, rfl⟩
  next hw =>
    obtain ⟨s, rfl, hs⟩ := Stmt.of_mapList_one h
    obtain ⟨k, y, rfl, hy⟩ := Stmt.of_map_ret hs
    refine ⟨y, hy, hresQ.1, by simp [Stmt.nodesOfList, Stmt.nodes, function?],
      fun R hR => ⟨k, y, hR, ?_⟩⟩
    rw [if_neg hw]

/-! ## Statements with a body -/

theorem imaged_blockStmt {b : Block Mark} (hbody : p.BlockImaged fn globals a b) :
    p.StmtImaged fn globals a (.block b) := by
  intro r fs sc f i l n _ out roles hsrc hres hn hin hd hfs hsc h hresQ
  obtain ⟨c, hb, h⟩ := h
  by_cases hw : (p.analysis.wrapper? b.mark.id).isSome
  · rw [if_pos hw] at h
    obtain ⟨q, ss⟩ := c
    obtain rfl : Stmt.mapList Mark.span out = ss := h
    have hb' : p.LowersBlock r sc b ((Block.mk ⟨0, q⟩ out).map Mark.span) roles := hb
    exact (hbody hsrc hres.2 hn hin hd hfs hsc hb' hresQ).mono
      (Nat.le_refl _) (Nat.le_refl _) (fun _ h => .inl (h.imp_right fun h => h.1.elim))
      (fun _ _ h => h) (.refl _) fun R _ h hroles hm => ⟨_, h hroles hm, by rw [if_pos hw]; rfl⟩
  · rw [if_neg hw] at h
    obtain ⟨s, rfl, hs⟩ := Stmt.of_mapList_one h
    obtain ⟨x, rfl, rfl⟩ := Stmt.of_map_block hs
    exact (hbody hsrc hres.2 hn hin hd hfs hsc hb
      (Scoping.ResolvedBlock.statements hresQ.1.2 (LowersBlock.flat (b := b) hsrc hb).flat)).mono
      (Nat.le_refl _) (Nat.le_refl _) (fun _ h => .inl (h.imp_right fun h => h.1.elim))
      (fun _ _ h => h) (.of_eq (by simp [Stmt.nodesOfList, Stmt.nodes, Block.nodes_eq_cons,
        function?])) fun R _ h hroles hm => ⟨_, h hroles hm, by rw [if_neg hw]⟩

/-- An `if` without an `else`. -/
theorem imaged_branch (hp : p.Sound fn globals) {m : Mark} {c : Expr Mark} {t : Block Mark}
    (hcond : p.ExprImaged fn globals a c) (hthen : p.BlockImaged fn globals a t) :
    p.StmtImaged fn globals a (.branch m c t none) := by
  intro r fs sc f i l n _ out roles hsrc hres hn hin hd hfs hsc h hresQ
  obtain ⟨c', t', hc, ht, h⟩ := h
  obtain ⟨s, rfl, hs⟩ := Stmt.of_mapList_one h
  obtain ⟨k, y, z, o, rfl, rfl, rfl, ho⟩ := Stmt.of_map_branch hs
  obtain rfl := Option.map_eq_none_iff.1 ho
  obtain ⟨hrc, -, hrt⟩ := hres
  obtain ⟨⟨hqc, -, hqt⟩, -⟩ := hresQ
  obtain ⟨-, -, hnc⟩ := hn.of_cons
  obtain ⟨q, hce, hct⟩ := hnc.of_append
  rw [List.append_nil] at hct
  have htin : ∀ x ∈ t.nodes, x ∈ fn.nodes := fun x hx =>
    hin x (List.mem_cons_of_mem _ (List.mem_append_right _ (List.mem_append_left _ hx)))
  have hcond := hcond hsrc.1 hrc hce
    (fun x hx => hin x (List.mem_cons_of_mem _ (List.mem_append_left _ hx))) hd hc hqc
  have hthen := hthen hsrc.2 hrt hct htin hd
    (Nat.lt_of_lt_of_le (Nat.lt_succ_of_lt hfs) hce.le)
    (Nat.lt_of_lt_of_le (Nat.lt_succ_of_lt hsc) hce.le) ht
    (Scoping.ResolvedBlock.statements hqt (LowersBlock.flat hsrc.2 ht).flat)
  refine (hcond.inside.append hp hthen (Around.lt (Nat.lt_succ_of_lt hfs) (Nat.lt_succ_of_lt hsc))
    hce.le hct.le).mono (Nat.le_succ n) (Nat.le_refl _)
    (fun _ h => .inl (h.imp_right fun h => h.1.elim)) (fun _ _ h => h) (.of_eq ?_)
    fun R _ h hroles hm => ⟨k, y, z, h.1 hm, h.2 hroles hm, rfl⟩
  simp [Stmt.nodesOfList, Stmt.nodes, Block.nodes_eq_cons, function?]

/-- An `if` with its `else`. -/
theorem imaged_branchElse (hp : p.Sound fn globals) {m : Mark} {c : Expr Mark} {t e : Block Mark}
    (hcond : p.ExprImaged fn globals a c) (hthen : p.BlockImaged fn globals a t)
    (helse : p.BlockImaged fn globals a e) :
    p.StmtImaged fn globals a (.branch m c t (some e)) := by
  intro r fs sc f i l n _ out roles hsrc hres hn hin hd hfs hsc h hresQ
  obtain ⟨c', t', e', ρt, ρe, hc, ht, he, h, rfl⟩ := h
  obtain ⟨s, rfl, hs⟩ := Stmt.of_mapList_one h
  obtain ⟨k, y, z, o, rfl, rfl, rfl, ho⟩ := Stmt.of_map_branch hs
  obtain ⟨u, rfl, rfl⟩ := Option.map_eq_some_iff.1 ho
  obtain ⟨hrc, -, hrt, -, hre⟩ := hres
  obtain ⟨⟨hqc, -, hqt, -, hqe⟩, -⟩ := hresQ
  obtain ⟨-, -, hnc⟩ := hn.of_cons
  obtain ⟨q, hce, hcte⟩ := hnc.of_append
  obtain ⟨q', hct, hcu⟩ := hcte.of_append
  have hcond := hcond hsrc.1 hrc hce
    (fun x hx => hin x (List.mem_cons_of_mem _ (List.mem_append_left _ hx))) hd hc hqc
  have hfs₁ := Nat.lt_of_lt_of_le (Nat.lt_succ_of_lt hfs) hce.le
  have hsc₁ := Nat.lt_of_lt_of_le (Nat.lt_succ_of_lt hsc) hce.le
  have hthen := hthen hsrc.2.1 hrt hct
    (fun x hx => hin x (List.mem_cons_of_mem _
    (List.mem_append_right _ (List.mem_append_left _ hx)))) hd hfs₁ hsc₁ ht
    (Scoping.ResolvedBlock.statements hqt (LowersBlock.flat hsrc.2.1 ht).flat)
  have helse := helse hsrc.2.2 hre hcu
    (fun x hx => hin x (List.mem_cons_of_mem _
    (List.mem_append_right _ (List.mem_append_right _ hx)))) hd (Nat.lt_of_lt_of_le hfs₁ hct.le)
    (Nat.lt_of_lt_of_le hsc₁ hct.le) he
    (Scoping.ResolvedBlock.statements hqe (LowersBlock.flat hsrc.2.2 he).flat)
  refine (hcond.inside.append hp (hthen.append hp helse (Around.lt hfs₁ hsc₁) hct.le hcu.le)
    (Around.lt (Nat.lt_succ_of_lt hfs) (Nat.lt_succ_of_lt hsc)) hce.le hcte.le).mono
    (Nat.le_succ n) (Nat.le_refl _) (fun _ h => .inl (h.imp_right fun h => h.1.elim))
    (fun _ _ h => h) (.of_eq ?_) fun R _ h hroles hm => ⟨k, y, z, u, h.1 hm,
      h.2.1 (fun x hx => hroles x (List.mem_append_left _ hx)) hm,
      h.2.2 (fun x hx => hroles x (List.mem_append_right _ hx)) hm, rfl⟩
  simp [Stmt.nodesOfList, Stmt.nodes, Block.nodes_eq_cons, function?]

/-! ## Loops -/

section Loop

variable {m b : Mark} {hd : Header Mark} {ss : List (Stmt Mark)}

/-- A loop without a wrapper: the header and the body are in the region of the loop. -/
theorem imaged_plainLoop (hp : p.Sound fn globals) (hhead : p.HeaderImaged fn globals a hd)
    (hbody : p.StmtsImaged fn globals a ss) (hw : (p.loopPlan m.id).wrapper = none) :
    p.StmtImaged fn globals a (.loop m hd (.mk b ss)) := by
  intro r fs sc f i l n k out roles hsrc hres hn hin hfree hfs hsc h hresQ
  have hflat := LowersStmt.flat (s := .loop m hd (.mk b ss)) hsrc h
  obtain ⟨-, hopens, hrh, hopensB, hrb⟩ := hres
  obtain ⟨rfl, hnh, hnb, hlb, hlt⟩ := hn.of_loop
  have hhsc : hd.scopeIn m.id sc < m.id + 1 :=
    Header.scopeIn_lt (Nat.lt_succ_self _) (Nat.lt_succ_of_lt hsc)
  obtain ⟨h', body, ρh, ρb, hh, hb, hout, rfl⟩ := (lowersStmt_plainLoop hw).1 h
  obtain ⟨s, rfl, hs⟩ := Stmt.of_mapList_one hout
  obtain ⟨u, g, x, rfl, rfl, hx⟩ := Stmt.of_map_loop hs
  obtain ⟨c, ss', rfl, rfl⟩ := Block.of_map hx
  obtain ⟨hgf, hbf⟩ := ((Stmt.isFlat_map Mark.span _).1 hflat.flat.1 :
    (Stmt.loop u g (.mk c ss')).IsFlat)
  obtain ⟨⟨-, -, hqh, -, hqb⟩, -⟩ := hresQ
  rw [hgf.scopeIn, hbf.scopeIn] at hqb
  have H : p.Yields fn a (Around r fs sc False) m.id b.id ρh (functions g.nodes) _ :=
    (hhead hsrc.1 hrh hopens hnh (fun y hy => hin y (Stmt.mem_nodes_header hy)) hfree
      (Nat.lt_succ_of_lt hfs) hhsc hh hqh hgf).enclosed (Nat.le_succ _)
      fun _ => ⟨Nat.le_refl _, hlb⟩
  have B : p.Yields fn a (Around r fs sc False) b.id k ρb (functions (Stmt.nodesOfList ss')) _ :=
    (hbody hsrc.2 hrb hnb (fun y hy => hin y (Stmt.mem_nodes_body hy))
      (show p.FreshDrivers fn r.loopBody from hfree) (Nat.lt_succ_of_lt (Nat.lt_trans hfs hlb))
      (Block.scopeIn_lt (Nat.lt_succ_self _) (Nat.lt_succ_of_lt (Nat.lt_of_lt_of_le hhsc hlb))) hb
      hqb).enclosed (Nat.le_succ _) fun hne => by
        rw [Block.scopeIn_of_ne_nil (b := .mk _ ss) hne]
        exact ⟨Nat.le_refl _, hlt⟩
  refine (H.append hp B (Around.lt hfs hsc) (Nat.le_of_lt hlb) (Nat.le_of_lt hlt)).mono
    (Nat.le_refl _) (Nat.le_refl _) (fun _ h => .inl (h.imp_right fun h => h.1.elim))
    (fun _ _ h => h) (.of_eq ?_) fun R _ h hroles hm => ?_
  · simp [Stmt.nodesOfList, Stmt.nodes, Block.nodes, function?]
  · have hρh : ∀ x ∈ ρh, R.Binds f x.1 x.2 := fun x hx => hroles x (List.mem_append_left _ hx)
    have hρb : ∀ x ∈ ρb, R.Binds f x.1 x.2 := fun x hx => hroles x (List.mem_append_right _ hx)
    exact (imagesStmt_plainLoop hw).2 ⟨u, c, g, ss', h.1 hρh hm, h.2 hρb
      ((hm.header hp hopens hh hρh).loopBody.block hp hopensB hb hρb), rfl⟩

/-- In the header of a loop that keeps its variables for each iteration, these have drivers. -/
theorem FreshDrivers.loopHeader {drivers : List (BindingId × Name)} (hfree : p.FreshDrivers fn r)
    (hx : .stmt (.loop m hd (.mk b ss)) ∈ fn.nodes)
    (hkeys : drivers.map (·.1) = (p.loopPlan m.id).fresh) :
    p.FreshDrivers fn (r.loopHeader drivers) := by
  intro i hi
  rw [Region.loopHeader, List.lookup_append] at hi
  cases hl : drivers.lookup i with
  | some y =>
    refine ⟨m, _, _, hx, ?_⟩
    rw [← hkeys]
    exact Table.exists_lookup.1 ⟨y, hl⟩
  | none =>
    rw [hl] at hi
    exact hfree i hi

/-- What a wrapper keeps for each iteration is of the scope of the loop, and the header has a driver
    in its place. -/
theorem slotOf_fresh (hp : p.Sound fn globals) {drivers : List (BindingId × Name)}
    {h' : Header Span} {ρh : Roles} (hsrc : hd.IsSource)
    (hkeys : drivers.map (·.1) = (p.loopPlan m.id).fresh)
    (hfresh : (p.loopPlan m.id).fresh = p.analysis.scoping.freshOf m.id hd)
    (hh : p.LowersHeader (r.loopHeader drivers) sc hd h' ρh) {x : Name} {s : Slot}
    (hx : (x, Role.holds s) ∈ (p.loopPlan m.id).fresh.map p.ownRole) :
    p.SlotOf fn m.id s ∧ ∀ y, (y, Role.holds s) ∉ ρh := by
  obtain ⟨i, hi, he⟩ := List.mem_map.1 hx
  cases he
  refine ⟨?_, fun y hy => ?_⟩
  · have hi' := hi
    rw [hfresh, Scoping.freshOf] at hi'
    split at hi'
    · exact hp.analysed.consistent.mem_bindingIdsOf.1 (List.mem_filter.1 hi').1
    · cases hi'
  · obtain ⟨j, hj⟩ := hh.slots hsrc hy
    obtain ⟨y', hy'⟩ := Table.exists_lookup.2 (hkeys ▸ hi : i ∈ drivers.map (·.1))
    rw [Region.slot] at hj
    split at hj
    · cases hj
    next hnone =>
      cases hj
      rw [Region.loopHeader, Table.lookup_append_of_some hy'] at hnone
      exact hnone rfl

/-- A loop with a wrapper: the header is around the call, and the body is in the wrapper. -/
theorem imaged_wrappedLoop (hp : p.Sound fn globals) (ha : a.Consistent) {w : Wrapper}
    (hhead : p.HeaderImaged fn globals a hd) (hbody : p.StmtsImaged fn globals a ss)
    (hw : (p.loopPlan m.id).wrapper = some w) :
    p.StmtImaged fn globals a (.loop m hd (.mk b ss)) := by
  intro r fs sc f i l n k out roles hsrc hres hn hin hfree hfs hsc h hresQ
  have hflat := LowersStmt.flat (s := .loop m hd (.mk b ss)) hsrc h
  obtain ⟨hloop, hopens, hrh, hopensB, hrb⟩ := hres
  obtain ⟨rfl, hnh, hnb, hlb, hlt⟩ := hn.of_loop
  have hhsc : hd.scopeIn m.id sc < m.id + 1 :=
    Header.scopeIn_lt (Nat.lt_succ_self _) (Nat.lt_succ_of_lt hsc)
  have hx : .stmt (.loop m hd (.mk b ss)) ∈ fn.nodes := hin _ List.mem_cons_self
  obtain ⟨hfresh, -⟩ := hp.of_wrappedLoop hx hloop hw
  obtain ⟨drivers, h', body, ρh, ρb, hkeys, hh, hb, hhosts, hdrivers, hcalls⟩ :=
    (lowersStmt_wrappedLoop hw).1 h
  obtain ⟨hsub, hholds, g, u, c, loop, code, ending, rfl, rfl, hend, hgf, hqh, hqf, hperm,
    himages⟩ := hcalls.images ((Stmt.areFlat_map Mark.span out).1 hflat.flat) hresQ
  obtain ⟨hopensQ, hqb⟩ := hqf
  have hcode : Stmt.FlatWith (Stmt.mapList Mark.span (code ++ ending)) ρb := by
    have := wrapperCode_flat (LowersStmts.flat hsrc.2 hb) w
      (Lower.loopWriteBacks p (p.loopPlan m.id) drivers)
    rw [wrapperCode_eq] at this
    rwa [Stmt.mapList_append, hend]
  have hstores := hhosts.storesCode ha hopensQ hcode fun x => by
    rw [Roles.names_append, List.mem_append]
    simp [loopParams, Roles.names, ownRole]
  have H := hhead hsrc.1 hrh hopens hnh (fun y hy => hin y (Stmt.mem_nodes_header hy))
    (hfree.loopHeader hx hkeys) (Nat.lt_succ_of_lt hfs) hhsc hh hqh hgf
  have B := hbody hsrc.2 hrb hnb (fun y hy => hin y (Stmt.mem_nodes_body hy))
    (show p.FreshDrivers fn (p.loopRegion r m drivers) from hfree)
    (Nat.lt_succ_of_lt (Nat.lt_trans hfs hlb))
    (Block.scopeIn_lt (Nat.lt_succ_self _) (Nat.lt_succ_of_lt (Nat.lt_of_lt_of_le hhsc hlb))) hb
    (Scoping.resolvedStmts_append.1 hqb).1
  refine (H.loop hp B hstores hlb hlt (fun x hx => ?_) (fun x hx => ?_)
    (fun x s hx => ?_)).mono (Nat.le_refl _) (Nat.le_refl _) (fun x hx => ?_)
    (fun x s => hholds x s) hperm fun R hR h hroles hm => ?_
  · rcases hx with ⟨-, rfl⟩ | ⟨-, rfl⟩
    · exact Nat.le_of_lt hfs
    · exact Nat.le_refl _
  · rcases hx with ⟨hx, -⟩ | ⟨hne, rfl⟩
    · cases hx
    · exact Block.scopeIn_of_ne_nil hne
  · exact (List.mem_append.1 hx).symm.imp_right (slotOf_fresh hp hsrc.1 hkeys hfresh hh)
  · obtain ⟨hx, hne⟩ := hx
    rcases hx with hx | ⟨-, rfl⟩
    · exact .inl (.inl hx)
    · exact absurd rfl hne
  · obtain ⟨himagesH, hinnerRoles, himagesB⟩ := h
    have hρh : ∀ x ∈ ρh, R.Binds f x.1 x.2 := fun x hx => hroles x (hsub x hx)
    have hmh : p.Mirrors R (r.loopHeader drivers) sc f :=
      hm.loopHeader fun d hd => hρh _ (hdrivers d hd).1
    have hmb : p.Mirrors R (p.loopRegion r m drivers)
        ((Block.mk b ss).scopeIn (hd.scopeIn m.id sc)) u.id := by
      subst hR
      exact (hmh.header hp hopens hh hρh).wrappedBody hp hx hloop hopensB hw hkeys hhosts ha
        hopensQ.scope hstores hinnerRoles
    exact (imagesStmt_wrappedLoop hw).2 ⟨drivers, g, u, c, code, ending, hkeys, himagesH hρh hmh,
      himagesB (fun x hx => hinnerRoles x (List.mem_append_right _ hx)) hmb, hend,
      fun ρ hρ => hinnerRoles ρ (List.mem_append_left _ hρ), himages R hR hroles⟩

/-- A loop: plain, or with a wrapper that its header calls. -/
theorem imaged_loop (hp : p.Sound fn globals) (ha : a.Consistent)
    (hhead : p.HeaderImaged fn globals a hd) (hbody : p.StmtsImaged fn globals a ss) :
    p.StmtImaged fn globals a (.loop m hd (.mk b ss)) := by
  cases hw : (p.loopPlan m.id).wrapper with
  | none => exact imaged_plainLoop hp hhead hbody hw
  | some w => exact imaged_wrappedLoop hp ha hhead hbody hw

end Loop


/-! ## Headers -/

section Clauses

variable {r : Region} {fs sc f l : ScopeId} {n m : Nat} {q : Prop} {ρ : Roles}

/-- A first or last clause of a `for`, if there is one. -/
theorem yields_clause {i y : Option (Stmt Mark)}
    (hi : ∀ s, i = some s → p.StmtImaged fn globals a s) (hsrc : ∀ s, i = some s → s.IsSource)
    (hres : ∀ s, i = some s → p.analysis.scoping.ResolvedStmt globals fs sc false s)
    (hn : Consecutive n (i.elim [] Stmt.nodes) m)
    (hin : ∀ x ∈ i.elim [] Stmt.nodes, x ∈ fn.nodes) (hd : p.FreshDrivers fn r) (hfs : fs < n)
    (hsc : sc < n)
    (hlow : (i = none → y.map (Stmt.map Mark.span) = none ∧ ρ = []) ∧
      ∀ s, i = some s → p.LowersStmt r sc s (y.map (Stmt.map Mark.span)).toList ρ)
    (hq : ∀ t, y = some t → a.ResolvedStmt globals f f false t)
    (hlex : ∀ s, i = some s → s.lexical?.isSome → q ∧ sc = l) :
    p.Yields fn a (Around r fs l q) n m ρ (functions (y.elim [] Stmt.nodes)) fun R =>
      (∀ x ∈ ρ, R.Binds f x.1 x.2) → p.Mirrors R r sc f →
        (i = none → y = none) ∧ ∀ s, i = some s → p.ImagesStmt R r s y.toList := by
  cases i with
  | none =>
    obtain ⟨hy, rfl⟩ := hlow.1 rfl
    obtain rfl := Option.map_eq_none_iff.1 hy
    exact .plain rfl (by simp) fun R _ _ _ => ⟨fun _ => rfl, by simp⟩
  | some s =>
    obtain ⟨hlow, hq⟩ := clause_of_map (hlow.2 s rfl) hq
    exact (hi s rfl (hsrc s rfl) (hres s rfl) hn hin hd hfs hsc hlow hq).clause (hlex s rfl)

/-- The condition of a `for`, if there is one. -/
theorem yields_condition {c z : Option (Expr Mark)}
    (hc : ∀ e, c = some e → p.ExprImaged fn globals a e) (hsrc : ∀ e, c = some e → e.IsSource)
    (hres : ∀ e, c = some e → p.analysis.scoping.ResolvedExpr globals sc e)
    (hn : Consecutive n (c.elim [] Expr.nodes) m)
    (hin : ∀ x ∈ c.elim [] Expr.nodes, x ∈ fn.nodes) (hd : p.FreshDrivers fn r)
    (hlow : (c = none → z.map (Expr.map Mark.span) = none) ∧
      ∀ e, c = some e → ∃ e', p.LowersExpr r e e' ∧ z.map (Expr.map Mark.span) = some e')
    (hq : ∀ t, z = some t → a.ResolvedExpr globals f t) :
    p.Yields fn a (fun _ => False) n m [] (functions (z.elim [] Expr.nodes)) fun R =>
      p.Mirrors R r sc f →
        (c = none → z = none) ∧ ∀ e, c = some e → ∃ e', p.ImagesExpr R r e e' ∧ z = some e' := by
  cases c with
  | none =>
    obtain rfl := Option.map_eq_none_iff.1 (hlow.1 rfl)
    exact .plain rfl (by simp) fun R _ _ => ⟨fun _ => rfl, by simp⟩
  | some e =>
    obtain ⟨e', he, hz⟩ := hlow.2 e rfl
    obtain ⟨t, rfl, rfl⟩ := Option.map_eq_some_iff.1 hz
    refine (hc e rfl (hsrc e rfl) (hres e rfl) hn hin hd he (hq t rfl)).mono (Nat.le_refl _)
      (Nat.le_refl _) (fun _ => .inl) (fun _ _ h => h) (.refl _) fun R _ h hm => ⟨by simp, ?_⟩
    rintro _ ⟨⟩
    exact ⟨t, h hm, rfl⟩

end Clauses

/-- The header of a `while` has one condition. -/
theorem imaged_whileTrue {k : Mark} {e : Expr Mark} (he : p.ExprImaged fn globals a e) :
    p.HeaderImaged fn globals a (.whileTrue k e) := by
  intro r fs sc f loop loop' n m x roles hsrc hres _ hn hin hd _ _ h hresQ _
  obtain ⟨e', hlow, h, rfl⟩ := h
  obtain ⟨k, y, rfl, rfl⟩ := Header.of_map_whileTrue h
  obtain ⟨-, -, hc⟩ := hn.of_cons
  exact (he hsrc hres hc (fun y hy => hin y (List.mem_cons_of_mem _ hy)) hd hlow hresQ).mono
    (Nat.le_succ n) (Nat.le_refl _) (fun _ h => h.elim) (fun _ _ h => h)
    (.of_eq (by simp [Header.nodes, function?])) fun R _ h _ hm => ⟨k, y, h hm, rfl⟩

/-- The header of a counting loop is imaged clause by clause. -/
theorem imaged_counting (hp : p.Sound fn globals) {k : Mark} {i : Option (Stmt Mark)}
    {c : Option (Expr Mark)} {u : Option (Stmt Mark)}
    (hinit : ∀ s, i = some s → p.StmtImaged fn globals a s)
    (hcond : ∀ e, c = some e → p.ExprImaged fn globals a e)
    (hupdate : ∀ s, u = some s → p.StmtImaged fn globals a s) :
    p.HeaderImaged fn globals a (.counting k i c u) := by
  intro r fs sc f loop loop' n m x roles hsrc hres ho hn hin hd hfs hsc h hresQ hflat
  have hlow := h
  obtain ⟨hsi, hsc', hsu⟩ := Header.shaped_counting.1 hsrc
  obtain ⟨hri, hrc, hru⟩ := Scoping.resolvedHeader_counting.1 hres
  obtain ⟨i', c', u', ρi, ρu, hi, hc, hu, hx, rfl⟩ := lowersHeader_counting.1 h
  obtain ⟨q, y, z, v, rfl, rfl, rfl, rfl⟩ := Header.of_map_counting hx
  obtain ⟨hqi, hqc, hqu⟩ := Scoping.resolvedHeader_counting.1 hresQ
  rw [hflat.scopeIn] at hqi hqc hqu
  rw [Header.nodes_counting] at hn hin
  obtain ⟨-, -, hn⟩ := hn.of_cons
  obtain ⟨n₁, hni, hn⟩ := hn.of_append
  obtain ⟨n₂, hnc, hnu⟩ := hn.of_append
  have hle₁ := Nat.le_trans (Nat.le_succ n) hni.le
  have hle₂ := Nat.le_trans hle₁ hnc.le
  have I := yields_clause (l := loop) hinit (fun s hs => (hsi s hs).2) hri hni
    (fun y hy => hin y (List.mem_cons_of_mem _ (List.mem_append_left _ hy))) hd
    (Nat.lt_succ_of_lt hfs) (Nat.lt_succ_of_lt hsc) hi hqi
    (q := (Resolve.headerLexical? (.counting k i c u)).isSome) fun s hs hlex => by
      subst hs
      exact ⟨hlex, if_pos hlex⟩
  have C := yields_condition hcond hsc' hrc hnc (fun y hy => hin y
    (List.mem_cons_of_mem _ (List.mem_append_right _ (List.mem_append_left _ hy)))) hd hc hqc
  have U := yields_clause (l := loop) hupdate (fun s hs => (hsu s hs).2) hru hnu
    (fun y hy => hin y
      (List.mem_cons_of_mem _ (List.mem_append_right _ (List.mem_append_right _ hy)))) hd
    (Nat.lt_of_lt_of_le hfs hle₂) (Nat.lt_of_lt_of_le hsc hle₂) hu hqu
    (q := (Resolve.headerLexical? (.counting k i c u)).isSome) fun s hs hlex => by
      -- the last clause is no declaration
      have := (hsu s hs).1
      cases s <;> simp [Stmt.lexical?, Stmt.isUpdate] at hlex this
  have hlt : ∀ n', n ≤ n' → ∀ x,
      Around r fs loop (Resolve.headerLexical? (Header.counting k i c u)).isSome x → x < n' := by
    rintro n' hle x (⟨-, rfl⟩ | ⟨hl, rfl⟩)
    · exact Nat.lt_of_lt_of_le hfs hle
    · rw [Header.scopeIn, if_pos hl] at hsc
      exact Nat.lt_of_lt_of_le hsc hle
  refine (I.append hp (C.inside.append hp U (hlt _ hle₁) hnc.le hnu.le)
    (hlt _ (Nat.le_succ n)) hni.le (Nat.le_trans hnc.le hnu.le)).mono (Nat.le_succ n)
    (Nat.le_refl _) (fun _ => .inl) (fun _ _ h => h) (.of_eq ?_) fun R _ h hroles hm => ?_
  · rw [Header.nodes_counting]
    simp [function?]
  · have hm' := hm.header hp ho hlow hroles
    exact imagesHeader_counting.2 ⟨q, y, z, v,
      h.1 (fun x hx => hroles x (List.mem_append_left _ hx)) hm', h.2.1 hm',
      h.2.2 (fun x hx => hroles x (List.mem_append_right _ hx)) hm', rfl⟩

/-- The header of a `for`-`of` names its variable and has one sequence. -/
theorem imaged_forOf (hp : p.Sound fn globals) {k : Mark} {y : Name} {j : Option DeclKind}
    {e : Expr Mark} (he : p.ExprImaged fn globals a e) :
    p.HeaderImaged fn globals a (.forOf k y j e) := by
  intro r fs sc f loop loop' n m x roles hsrc hres ho hn hin hd hfs hsc h hresQ hflat
  have hlow := h
  obtain ⟨e', n', k', hseq, hel, hx⟩ := h
  obtain ⟨l, z, rfl, rfl⟩ := Header.of_map_forOf hx
  obtain ⟨-, -, hc⟩ := hn.of_cons
  have hseq := he hsrc hres.1 hc (fun y hy => hin y (List.mem_cons_of_mem _ hy)) hd hseq hresQ.1
  have hfsq : functions z.nodes = functions (Header.forOf l n' k' z).nodes := by
    simp [Header.nodes, function?]
  cases j with
  | none =>
    obtain ⟨rfl, rfl, rfl⟩ := hel
    refine hseq.mono (Nat.le_succ n) (Nat.le_refl _) (fun _ h => h.elim) (fun _ _ h => h)
      (.of_eq hfsq) fun R hR h _ hm => ⟨l, _, none, z, h hm, ⟨rfl, ?_⟩, rfl⟩
    subst hR
    exact hm.use hres.2 hresQ.2
  | some j =>
    obtain ⟨b, hb, rfl, hel⟩ := hel
    have hdecl : p.analysis.scoping.Declares fs ((Header.forOf k y (some j) e).scopeIn loop sc)
        k.id y j := by
      cases j with
      | var => exact hres.2.1
      | letVar | const => exact hres.2
    obtain ⟨d, hd', hlook, hscope⟩ := hdecl
    obtain rfl := Option.some.inj (hb.symm.trans hd')
    have hown : p.Yields fn a
        (Around r fs loop (Resolve.headerLexical? (.forOf k y (some j) e)).isSome) n
        (n + 1) roles []
        fun _ => True := by
      refine .own rfl (fun x s hx => ?_) fun _ _ => trivial
      split at hel
      · rw [hel.2] at hx
        cases hx
      next hno =>
        rw [hel.2, List.mem_singleton, role, Prod.mk.injEq, Role.holds.injEq] at hx
        obtain ⟨-, rfl⟩ := hx
        obtain ⟨z, hz, ho⟩ := hd.around hp hlook hscope fun hf => by simpa [hf] using hno
        refine ⟨z, hz, ho.imp_right fun h => ?_⟩
        have hlex : (Resolve.headerLexical? (.forOf k y (some j) e)).isSome := by
          rw [Resolve.headerLexical?, if_pos h.1]
          rfl
        rw [Header.scopeIn, if_pos hlex] at h
        exact ⟨hlex, h.2⟩
    refine (hown.append hp hseq.inside (fun x hx => ?_) (Nat.le_succ n) hc.le).mono
      (Nat.le_refl _)
      (Nat.le_refl _) (fun _ => .inl) (fun _ _ h => List.mem_append_left _ h) (.of_eq hfsq)
      fun R hR h hroles hm => ⟨l, _, k', z, h.2 hm, ⟨b, hb, ?_⟩, rfl⟩
    · rcases hx with ⟨-, rfl⟩ | ⟨hl, rfl⟩
      · exact hfs
      · rwa [Header.scopeIn, if_pos hl] at hsc
    · have hm' := hm.header hp ho hlow hroles
      subst hR
      split at hel
      next hw =>
        obtain ⟨rfl, -⟩ := hel
        rw [if_pos hw]
        exact ⟨rfl, hm'.refers hlook hresQ.2⟩
      next hw =>
        obtain ⟨rfl, -⟩ := hel
        rw [if_neg hw]
        exact ⟨rfl, hm'.declares hlook hresQ.2.1⟩

/-! ## All code -/

mutual

/-- Every lowered expression is imaged. -/
theorem LowersExpr.images (hp : p.Sound fn globals) (ha : a.Consistent) :
    ∀ e : Expr Mark, p.ExprImaged fn globals a e
  | .literal _ _ => by
    intro r sc f n m x _ _ _ _ _ h _
    rw [LowersExpr] at h
    obtain ⟨k, rfl⟩ := Expr.of_map_literal h
    exact .plain rfl (by simp) fun R _ _ => ⟨k, rfl⟩
  | .name _ _ => by
    intro r sc f n m x _ hres _ _ _ h hresQ
    rw [LowersExpr] at h
    obtain ⟨k, rfl⟩ := Expr.of_map_name h
    exact .plain rfl (by simp) fun R hR hm => ⟨k, rfl, hm.use hres (hR ▸ hresQ)⟩
  | .unary _ _ e => by
    intro r sc f n m x hsrc hres hn hin hd h hresQ
    obtain ⟨e', he, h⟩ := h
    obtain ⟨k, y, rfl, rfl⟩ := Expr.of_map_unary h
    obtain ⟨-, -, hc⟩ := hn.of_cons
    exact (LowersExpr.images hp ha e hsrc hres hc
      (fun y hy => hin y (List.mem_cons_of_mem _ hy)) hd he hresQ).under
      (by simp [Expr.nodes, function?]) fun R _ h hm => ⟨k, y, h hm, rfl⟩
  | .binary _ _ e g => imaged_binary hp (LowersExpr.images hp ha e) (LowersExpr.images hp ha g)
  | .call _ g args => imaged_call hp (LowersExpr.images hp ha g) (LowersExprs.images hp ha args)
  | .array _ es => by
    intro r sc f n m x hsrc hres hn hin hd h hresQ
    obtain ⟨es', hes, h⟩ := h
    obtain ⟨k, ys, rfl, rfl⟩ := Expr.of_map_array h
    obtain ⟨-, -, hc⟩ := hn.of_cons
    exact (LowersExprs.images hp ha es hsrc hres hc
      (fun y hy => hin y (List.mem_cons_of_mem _ hy)) hd hes hresQ).under
      (by simp [Expr.nodes, function?]) fun R _ h hm => ⟨k, ys, h hm, rfl⟩
  | .index _ e g => imaged_index hp (LowersExpr.images hp ha e) (LowersExpr.images hp ha g)
  | .function _ _ (.mk _ ss) => imaged_function hp ha (LowersStmts.images hp ha ss)
  | .signal ..
  | .signalIs ..
  | .signalValue ..
  | .unknown .. => by
    intro r sc f n m x _ _ _ _ _ h _
    simp only [LowersExpr] at h
termination_by structural x => x

theorem LowersExprs.images (hp : p.Sound fn globals) (ha : a.Consistent) :
    ∀ es : List (Expr Mark), p.ExprsImaged fn globals a es
  | [] => by
    intro r sc f n m xs _ _ _ _ _ h _
    rw [LowersExprs] at h
    obtain rfl := Expr.of_mapList_nil h
    exact .plain rfl (by simp) fun R _ _ => rfl
  | e :: es => imaged_exprs_cons hp (LowersExpr.images hp ha e) (LowersExprs.images hp ha es)
termination_by structural x => x

/-- All lowered statements are imaged. -/
theorem LowersStmts.images (hp : p.Sound fn globals) (ha : a.Consistent) :
    ∀ ss : List (Stmt Mark), p.StmtsImaged fn globals a ss
  | [] => by
    intro r fs sc f i l n m out roles _ _ _ _ _ _ _ h _
    obtain ⟨h, rfl⟩ := h
    obtain rfl := Stmt.of_mapList_nil h
    exact .plain rfl (by simp) fun R _ _ _ => rfl
  | s :: ss => imaged_stmts_cons hp (LowersStmt.images hp ha s) (LowersStmts.images hp ha ss)
termination_by structural x => x

/-- Every lowered block is imaged. -/
theorem LowersBlock.images (hp : p.Sound fn globals) (ha : a.Consistent) :
    ∀ b : Block Mark, p.BlockImaged fn globals a b
  | .mk _ ss => imaged_block hp ha (LowersStmts.images hp ha ss)
termination_by structural x => x

/-- Every lowered statement is imaged. -/
theorem LowersStmt.images (hp : p.Sound fn globals) (ha : a.Consistent) :
    ∀ s : Stmt Mark, p.StmtImaged fn globals a s
  | .declaration _ _ _ none => imaged_declaration hp
  | .declaration _ _ _ (some e) => imaged_initialized hp (LowersExpr.images hp ha e)
  | .assignment _ t v =>
    imaged_assignment hp (LowersExpr.images hp ha t) (LowersExpr.images hp ha v)
  | .expression _ e => imaged_expression (LowersExpr.images hp ha e)
  | .block b => imaged_blockStmt (LowersBlock.images hp ha b)
  | .branch _ c t none => imaged_branch hp (LowersExpr.images hp ha c) (LowersBlock.images hp ha t)
  | .branch _ c t (some e) => imaged_branchElse hp (LowersExpr.images hp ha c)
    (LowersBlock.images hp ha t) (LowersBlock.images hp ha e)
  | .loop _ h (.mk _ ss) => imaged_loop hp ha (LowersHeader.images hp ha h)
    (LowersStmts.images hp ha ss)
  | .ret m none => by
    intro r fs sc f i l n _ out roles _ _ _ _ _ _ _ h _
    obtain ⟨h, rfl⟩ := h
    refine .plain ((Stmt.plain_mapList Mark.span).1 ?_) (by simp) fun R _ _ _ => h
    rw [h]
    exact leave_plain r .ret m.span rfl
  | .ret _ (some e) => imaged_ret (LowersExpr.images hp ha e)
  | .brk m => by
    intro r fs sc f i l n _ out roles _ _ _ _ _ _ _ h _
    obtain ⟨rfl, h⟩ := h
    refine .plain ((Stmt.plain_mapList Mark.span).1 ?_) (by simp) fun R _ _ _ => h
    rw [h]
    split
    · rfl
    · exact leave_plain r .brk m.span rfl
  | .cont m => by
    intro r fs sc f i l n _ out roles _ _ _ _ _ _ _ h _
    obtain ⟨rfl, h⟩ := h
    refine .plain ((Stmt.plain_mapList Mark.span).1 ?_) (by simp) fun R _ _ _ => h
    rw [h]
    split
    · rfl
    · exact leave_plain r .cont m.span rfl
  | .unknown .. => by
    intro r fs sc f i l n _ out roles _ _ _ _ _ _ _ h _
    simp only [LowersStmt] at h
termination_by structural x => x

/-- Every lowered header is imaged. -/
theorem LowersHeader.images (hp : p.Sound fn globals) (ha : a.Consistent) :
    ∀ h : Header Mark, p.HeaderImaged fn globals a h
  | .whileTrue _ e => imaged_whileTrue (LowersExpr.images hp ha e)
  | .counting _ i c u => by
    refine imaged_counting hp (fun s hs => ?_) (fun e he => ?_) fun s hs => ?_
    · cases i with
      | none => cases hs
      | some t =>
        have ht := LowersStmt.images hp ha t
        exact Option.some.inj hs ▸ ht
    · cases c with
      | none => cases he
      | some g =>
        have hg := LowersExpr.images hp ha g
        exact Option.some.inj he ▸ hg
    · cases u with
      | none => cases hs
      | some t =>
        have ht := LowersStmt.images hp ha t
        exact Option.some.inj hs ▸ ht
  | .forOf _ _ _ e => imaged_forOf hp (LowersExpr.images hp ha e)
  | .unknown .. => by
    intro r fs sc f loop loop' n m x roles _ _ _ _ _ _ _ _ h _ _
    simp only [LowersHeader] at h
termination_by structural x => x

end

end LoweringPlan

end FlatScope
