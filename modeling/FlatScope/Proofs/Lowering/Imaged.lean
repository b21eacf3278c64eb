import FlatScope.Proofs.Lowering.Identity
import FlatScope.Proofs.Lowering.Mirrored

/-!
# Lowered code keeps what names mean
-/

namespace FlatScope

open Node

/-- What a variable of a scope is for, where it is declared. -/
theorem Reading.Binds.declares {R : Reading} {f : ScopeId} {x : Name} {ρ : Role} (h : R.Binds f x ρ)
    {fs : ScopeId} {j : NodeId} {k : DeclKind} (hj : R.scoping.Declares fs f j x k) :
    R.Declares j ρ := by
  obtain ⟨d, hd, hdl, -⟩ := hj
  obtain ⟨b, hb, hρ⟩ := h.shows
  obtain rfl := Option.some.inj (hdl.symm.trans hb)
  exact ⟨d, hd, hρ⟩

theorem Scoping.resolvedStmts_append {a : Scoping} {globals : List Name}
    {fs sc : ScopeId} {l : Bool} :
    ∀ {ss ts : List (Stmt Mark)}, a.ResolvedStmts globals fs sc l (ss ++ ts) ↔
      a.ResolvedStmts globals fs sc l ss ∧ a.ResolvedStmts globals fs sc l ts
  | [], _ => by simp [ResolvedStmts]
  | s :: ss, ts => by
    rw [List.cons_append, ResolvedStmts, ResolvedStmts, @resolvedStmts_append _ _ _ _ _
      ss, and_assoc]

/-- The statements of a flat block are resolved where the block stands. -/
theorem Scoping.ResolvedBlock.statements {a : Scoping} {globals : List Name} {fs sc : ScopeId}
    {l : Bool} {b : Block Mark} (h : a.ResolvedBlock globals fs sc l b)
    (hb : Stmt.AreFlat (b.map Mark.span).statements) :
    a.ResolvedStmts globals fs sc l b.statements := by
  obtain ⟨k, ss⟩ := b
  obtain ⟨-, h⟩ := h
  rwa [((Block.isFlat_map Mark.span (.mk k ss)).1 hb).scopeIn] at h

/-- The nodes of a block are the block and those of its statements. -/
theorem Block.nodes_eq_cons {α : Type} (b : Block α) :
    b.nodes = .block b :: Stmt.nodesOfList b.statements := by
  obtain ⟨k, ss⟩ := b
  rfl

theorem Stmt.mapList_append {α β : Type} (f : α → β) (ss ts : List (Stmt α)) :
    Stmt.mapList f (ss ++ ts) = Stmt.mapList f ss ++ Stmt.mapList f ts := by
  simp only [Stmt.mapList_eq, List.map_append]

/-! ## What the lowering adds to code -/

section Calls

variable {p : LoweringPlan} {a : Scoping} {globals : List Name} {r : Region}
    {f : ScopeId} {l : Bool}
  {out : List (Stmt Mark)} {roles : Roles}

/-- The call of a wrapper, and its image. -/
theorem Region.Calls.images {exits : List Exit} {site : CallSite} {span : Span} {c : Expr Span}
    (h : r.Calls exits site span c (Stmt.mapList Mark.span out) roles)
    (hres : a.ResolvedStmts globals f f l out) :
    (∀ x s, (x, Role.holds s) ∉ roles) ∧ ∃ call : Expr Mark, call.map Mark.span = c ∧
      a.ResolvedExpr globals f call ∧ functions (Stmt.nodesOfList out) = functions call.nodes ∧
      ∀ R : Reading, R.scoping = a → (∀ x ∈ roles, R.Binds f x.1 x.2) →
        LoweringPlan.ImagesCall R r exits site span call out := by
  rw [Region.Calls] at h
  split at h
  · obtain ⟨hout, rfl⟩ := h
    obtain ⟨s, rfl, hs⟩ := Stmt.of_mapList_one hout
    obtain ⟨k, call, rfl, hcall⟩ := Stmt.of_map_expression hs
    refine ⟨by simp, call, hcall, hres.1, by simp [Stmt.nodesOfList, Stmt.nodes, function?],
      fun R _ _ => ?_⟩
    rw [LoweringPlan.ImagesCall, if_pos ‹_›]
    exact ⟨k, rfl⟩
  · obtain ⟨sig, h, rfl⟩ := h
    obtain ⟨-, hout⟩ := signalCall_ok h
    obtain ⟨s, rest, rfl, hs, hrest⟩ := Stmt.of_mapList_cons hout
    obtain ⟨k, v, rfl, hv⟩ := Stmt.of_map_declaration hs
    obtain ⟨call, rfl, hcall⟩ := Option.map_eq_some_iff.1 hv
    refine ⟨by simp, call, hcall, hres.1.2, ?_, ?_⟩
    · have hplain : Stmt.Plain rest := (Stmt.plain_mapList Mark.span).1
        (hrest ▸ site.handlers_plain ..)
      rw [Stmt.nodesOfList, functions_append,
        show functions (Stmt.nodesOfList rest) = [] from hplain]
      simp [Stmt.nodes, function?]
    · rintro R rfl hroles
      rw [LoweringPlan.ImagesCall, if_neg ‹_›]
      exact ⟨k, sig, rest, rfl, hrest,
        Reading.Binds.declares (hroles (sig, .signal) List.mem_cons_self) hres.1.1⟩

end Calls

namespace LoweringPlan

variable {p : LoweringPlan} {fn : FunctionDef Mark} {globals : List Name} {a : Scoping} {r : Region}
  {sc f : ScopeId} {l : Bool} {out : List (Stmt Mark)} {roles : Roles}

/-- A declaration that stays one, and its image. -/
theorem imagesDeclaration_of_declaration {m : Mark} {b : Binding} {v u : Option (Expr Span)}
    (hno : ¬ (b.origin.isFunctionScoped && r.inWrapper))
    (hout : Stmt.mapList Mark.span out = [.declaration m.span (p.nameOf r b.id) .var u])
    (hu : u = v ∨ v = none ∧ ∃ c, u = some (.literal c .undefined)) {n : Name}
    (hb : p.analysis.scoping.lookup? sc n = some b) (hres : a.ResolvedStmts globals f f l out) :
    ∃ w : Option (Expr Mark), w.map (Expr.map Mark.span) = v ∧
      (∀ e, w = some e → a.ResolvedExpr globals f e) ∧
      functions (Stmt.nodesOfList out) = w.elim [] (functions ·.nodes) ∧
      ∀ R : Reading, R.scoping = a → p.Mirrors R r sc f → p.ImagesDeclaration R r b w out := by
  obtain ⟨s, rfl, hs⟩ := Stmt.of_mapList_one hout
  obtain ⟨k, x, rfl, hx⟩ := Stmt.of_map_declaration hs
  have hdecl : a.Declares f f k.id (p.nameOf r b.id) .var := by
    cases x with
    | none => exact hres.1.1
    | some => exact hres.1.1
  have himages : ∀ w : Option (Expr Mark),
      (w = none → x = none ∨ ∃ u, x = some (.literal u .undefined)) →
      (∀ e, w = some e → x = some e) → ∀ R : Reading, R.scoping = a → p.Mirrors R r sc f →
        p.ImagesDeclaration R r b w [.declaration k (p.nameOf r b.id) .var x] := by
    rintro w hnone hsome R rfl hR
    rw [ImagesDeclaration.eq_def, if_neg hno]
    refine ⟨k, x, rfl, hR.declares hb hdecl, ?_⟩
    cases w with
    | none => exact hnone rfl
    | some e => exact hsome e rfl
  rcases hu with rfl | ⟨rfl, c, rfl⟩
  · refine ⟨x, hx, ?_, ?_, himages x .inl fun _ => id⟩
    · rintro e rfl
      exact hres.1.2
    · cases x <;> simp [Stmt.nodesOfList, Stmt.nodes, function?]
  · obtain ⟨e, rfl, he⟩ := Option.map_eq_some_iff.1 hx
    obtain ⟨k', rfl⟩ := Expr.of_map_literal he
    exact ⟨none, rfl, by simp, by simp [Stmt.nodesOfList, Stmt.nodes, Expr.nodes, function?],
      himages none (fun _ => .inr ⟨k', rfl⟩) (by simp)⟩

/-- A declaration with its value, and its image. -/
theorem LowersDeclaration.images {m : Mark} {b : Binding} {v : Option (Expr Span)}
    (h : p.LowersDeclaration r m b v (Stmt.mapList Mark.span out) roles) {n : Name}
    (hb : p.analysis.scoping.lookup? sc n = some b) (hres : a.ResolvedStmts globals f f l out) :
    (∀ x s, (x, Role.holds s) ∈ roles →
      s = r.slot b.id ∧ (b.origin.isFunctionScoped → r.inWrapper = false)) ∧
    ∃ w : Option (Expr Mark), w.map (Expr.map Mark.span) = v ∧
      (∀ e, w = some e → a.ResolvedExpr globals f e) ∧
      functions (Stmt.nodesOfList out) = w.elim [] (functions ·.nodes) ∧
      ∀ R : Reading, R.scoping = a → p.Mirrors R r sc f → p.ImagesDeclaration R r b w out := by
  have hrole : ∀ x s, (x, Role.holds s) ∈ [p.role r b.id] → s = r.slot b.id := by
    intro x s hx
    rw [List.mem_singleton, role, Prod.mk.injEq, Role.holds.injEq] at hx
    exact hx.2
  rw [LowersDeclaration] at h
  split at h
  next hno =>
    obtain ⟨hout, rfl⟩ := h
    refine ⟨fun x s hx => ⟨hrole x s hx, fun hf => absurd hf (by simp [hno])⟩,
      imagesDeclaration_of_declaration (by simp [hno]) hout ?_ hb hres⟩
    cases v with
    | none => exact .inr ⟨rfl, _, rfl⟩
    | some e => exact .inl rfl
  next hf =>
    rw [Bool.not_eq_false] at hf
    split at h
    next hw =>
      obtain ⟨hout, rfl⟩ := h
      have hin : b.origin.isFunctionScoped && r.inWrapper := by rw [hf, hw]; rfl
      refine ⟨by simp, ?_⟩
      cases v with
      | none =>
        obtain rfl := Stmt.of_mapList_nil hout
        refine ⟨none, rfl, by simp, rfl, fun R _ _ => ?_⟩
        rw [ImagesDeclaration, if_pos hin]
      | some e =>
        obtain ⟨s, rfl, hs⟩ := Stmt.of_mapList_one hout
        obtain ⟨k, t, e', rfl, ht, he⟩ := Stmt.of_map_assignment hs
        obtain ⟨t, rfl⟩ := Expr.of_map_name ht
        refine ⟨some e', congrArg some he, ?_, ?_, ?_⟩
        · rintro _ ⟨⟩
          exact hres.1.2
        · simp [Stmt.nodesOfList, Stmt.nodes, Expr.nodes, function?]
        · rintro R rfl hR
          rw [ImagesDeclaration, if_pos hin]
          exact ⟨k, t, rfl, hR.refers hb hres.1.1⟩
    next hw =>
      obtain ⟨hout, rfl⟩ := h
      exact ⟨fun x s hx => ⟨hrole x s hx, fun _ => by simpa using hw⟩,
        imagesDeclaration_of_declaration (by simp [hw]) hout (.inl rfl) hb hres⟩

/-! ## Functions and wrappers -/

/-- The variables of a function or wrapper in the lowered code are those that its scope declares. -/
theorem Hosts.storesCode {own : List BindingId} (h : p.Hosts r sc own roles) (ha : a.Consistent)
    {k c : Mark} {ps : List Name} {code : List (Stmt Mark)} {parent : Option ScopeId}
    (ho : a.OpensFunction k.id ps (.mk c code) parent) {rs : Roles}
    (hflat : Stmt.FlatWith (Stmt.mapList Mark.span code) rs)
    (hroles : ∀ x, x ∈ roles.names ↔ x ∈ ps ∨ x ∈ rs.names) : p.Stores a (k.id, roles) := by
  refine h.stores ha ho ((Stmt.areFlat_map Mark.span code).1 hflat.flat) fun x => ?_
  rw [hroles, ← hflat.declares.mem_iff, Stmt.varsOfList_map, List.map_map]
  rfl

/-- A binding that is known in an inner scope is one of the scope, or known around it. -/
theorem Sound.own_or_around (hp : p.Sound fn globals) {id : ScopeId} {kind : ScopeKind}
    {names : List Name → Prop} (ho : p.analysis.scoping.Opens id kind (some sc) names) {n : Name}
    {b : Binding} (hb : p.analysis.scoping.lookup? id n = some b)
    (hown : b.id ∉ p.analysis.scoping.bindingIdsOf id) :
    p.analysis.scoping.lookup? sc n = some b := by
  have hcons := hp.analysed.consistent
  refine (hcons.of_lookup?_inner ho hb).resolve_left fun hs => hown ?_
  exact hcons.mem_bindingIdsOf.2 ⟨b, (hcons.of_lookup? hb).1, rfl, hs⟩

/-- The variables of the header of a loop hold what its region has slots for. -/
theorem LowersHeader.slots {h : Header Mark} {h' : Header Span} (hsrc : h.IsSource)
    (hlow : p.LowersHeader r sc h h' roles) {x : Name} {s : Slot} (hx : (x, Role.holds s) ∈ roles) :
    ∃ b, s = r.slot b := by
  -- a header holds what its declaration holds, and nothing else
  have hdecl : ∀ {m : Mark} {b : Binding} {v : Option (Expr Span)} {out : List (Stmt Span)}
      {rs : Roles}, p.LowersDeclaration r m b v out rs → (x, Role.holds s) ∈ rs →
      ∃ b, s = r.slot b := by
    intro m b v out rs h hx
    rw [LowersDeclaration] at h
    have hone : rs = [p.role r b.id] ∨ rs = [] := by
      split at h
      · exact .inl h.2
      · split at h
        · exact .inr h.2
        · exact .inl h.2
    rcases hone with rfl | rfl
    · rw [List.mem_singleton, role, Prod.mk.injEq, Role.holds.injEq] at hx
      exact ⟨b.id, hx.2⟩
    · cases hx
  cases h with
  | whileTrue =>
    obtain ⟨_, -, -, rfl⟩ := hlow
    cases hx
  | counting m i c u =>
    obtain ⟨hsi, -, hsu⟩ := Header.shaped_counting.1 hsrc
    obtain ⟨i', c', u', ρi, ρu, hi, -, hu, -, rfl⟩ := lowersHeader_counting.1 hlow
    rcases List.mem_append.1 hx with hx | hx
    · cases i with
      | none =>
        rw [(hi.1 rfl).2] at hx
        cases hx
      | some s =>
        have hlow := hi.2 s rfl
        cases s with
        | declaration _ _ _ v =>
          cases v with
          | none =>
            obtain ⟨b, -, h⟩ := hlow
            exact hdecl h hx
          | some e =>
            obtain ⟨b, e', -, -, h⟩ := hlow
            exact hdecl h hx
        | assignment =>
          obtain ⟨_, _, -, -, -, rfl⟩ := hlow
          cases hx
        | expression =>
          obtain ⟨_, -, -, rfl⟩ := hlow
          cases hx
        | _ => exact absurd (hsi _ rfl).1 (by simp [Stmt.isInit])
    · cases u with
      | none =>
        rw [(hu.1 rfl).2] at hx
        cases hx
      | some s =>
        obtain ⟨_, -, -, rfl⟩ := (hu.2 s rfl).isUpdate (hsu s rfl).1
        cases hx
  | forOf m n k e =>
    obtain ⟨e', n', k', -, hel, -⟩ := hlow
    cases k with
    | none =>
      obtain ⟨-, -, rfl⟩ := hel
      cases hx
    | some k =>
      obtain ⟨b, -, -, hel⟩ := hel
      split at hel
      · rw [hel.2] at hx
        cases hx
      · rw [hel.2, List.mem_singleton, role, Prod.mk.injEq, Role.holds.injEq] at hx
        exact ⟨b.id, hx.2⟩
  | unknown => simp only [LowersHeader] at hlow

/-- The end of a wrapper comes behind its code. -/
theorem wrapperCode_eq (w : Wrapper) (ws : WriteBacks) (ss : List (Stmt Span)) :
    Lower.wrapperCode w ws ss = ss ++ Lower.wrapperCode w ws [] := rfl

/-- The function that the wrapper of a loop is. -/
theorem wrapper_of_map {m b : Mark} {w : Wrapper} {drivers : List (BindingId × Name)}
    {body : List (Stmt Span)} {x : Expr Mark} (hx : x.map Mark.span =
      .function m.span (p.loopParams m) (p.loopCode m b w drivers body)) :
    ∃ (k c : Mark) (code ending : List (Stmt Mark)),
      x = .function k (p.loopParams m) (.mk c (code ++ ending)) ∧
      Stmt.mapList Mark.span code = body ∧ Stmt.mapList Mark.span ending =
        Lower.wrapperCode w (Lower.loopWriteBacks p (p.loopPlan m.id) drivers) [] ∧
      functions x.nodes = k :: functions (Stmt.nodesOfList code) := by
  rw [loopCode, wrapperCode_eq] at hx
  obtain ⟨k, c, ss, rfl, hss⟩ := Expr.of_map_function hx
  obtain ⟨code, ending, rfl, hcode, hend⟩ := Stmt.of_mapList_append hss
  have hplain : Stmt.Plain ending :=
    (Stmt.plain_mapList Mark.span).1 (hend ▸ wrapperEnd_plain _ w)
  refine ⟨k, c, code, ending, rfl, hcode, hend, ?_⟩
  simp [Expr.nodes, Block.nodes, Stmt.nodesOfList_append, function?,
    show functions (Stmt.nodesOfList ending) = [] from hplain]

/-- A loop whose body calls its wrapper, and its image. -/
theorem CallsLoop.images {m b : Mark} {w : Wrapper} {drivers : List (BindingId × Name)}
    {h' : Header Span} {body : List (Stmt Span)} {ρh : Roles}
    (h : p.CallsLoop r m b w drivers h' body ρh (Stmt.mapList Mark.span out) roles)
    (hflat : Stmt.AreFlat out) (hres : a.ResolvedStmts globals f f l out) :
    (∀ x ∈ ρh, x ∈ roles) ∧ (∀ x s, (x, Role.holds s) ∈ roles → (x, Role.holds s) ∈ ρh) ∧
    ∃ (g : Header Mark) (k c : Mark) (loop : NodeId) (code ending : List (Stmt Mark)),
      g.map Mark.span = h' ∧ Stmt.mapList Mark.span code = body ∧
      Stmt.mapList Mark.span ending =
        Lower.wrapperCode w (Lower.loopWriteBacks p (p.loopPlan m.id) drivers) [] ∧
      g.IsFlat ∧ a.ResolvedHeader globals f f loop g ∧
      a.ResolvedExpr globals f (.function k (p.loopParams m) (.mk c (code ++ ending))) ∧
      (functions g.nodes ++ k :: functions (Stmt.nodesOfList code)).Perm
        (functions (Stmt.nodesOfList out)) ∧
      ∀ R : Reading, R.scoping = a → (∀ x ∈ roles, R.Binds f x.1 x.2) →
        p.ImagesLoop R r m w.exits drivers g
          (.function k (p.loopParams m) (.mk c (code ++ ending))) out := by
  have hargs : ∀ {args : List (Expr Mark)}, Expr.mapList Mark.span args = loopArgs m drivers →
      functions (Expr.nodesOfList args) = [] := by
    intro args h
    have hmap : functions ((Expr.nodesOfList args).map (Node.map Mark.span)) =
        (functions (Expr.nodesOfList args)).map Mark.span := functions_map Mark.span
    rw [← Expr.nodesOfList_map, h, loopArgs_plain] at hmap
    exact List.map_eq_nil_iff.1 hmap.symm
  -- the loop itself
  have hloop : ∀ {s : Stmt Mark} {call : List (Stmt Span)}, s.map Mark.span =
      .loop m.span h' (.mk m.span call) → s.IsFlat → a.ResolvedStmt globals f f l s →
      ∃ (k d : Mark) (g : Header Mark) (ss : List (Stmt Mark)), s = .loop k g (.mk d ss) ∧
        g.map Mark.span = h' ∧ Stmt.mapList Mark.span ss = call ∧ g.IsFlat ∧
        a.ResolvedHeader globals f f k.id g ∧ a.ResolvedStmts globals f f true ss := by
    intro s call hs hflat hres
    obtain ⟨k, g, body, rfl, hg, hb⟩ := Stmt.of_map_loop hs
    obtain ⟨d, ss, rfl, hss⟩ := Block.of_map hb
    obtain ⟨hgf, hbf⟩ := hflat
    obtain ⟨-, -, hrh, -, hrb⟩ := hres
    rw [hgf.scopeIn, hbf.scopeIn] at hrb
    exact ⟨k, d, g, ss, rfl, hg, hss, hgf, hrh, hrb⟩
  rw [CallsLoop] at h
  split at h
  next hhoist =>
    obtain ⟨name, call, ρc, hc, hout, rfl⟩ := h
    obtain ⟨s, ss, rfl, hs, hss⟩ := Stmt.of_mapList_cons hout
    obtain ⟨s', rfl, hs'⟩ := Stmt.of_mapList_one hss
    obtain ⟨d, v, rfl, hv⟩ := Stmt.of_map_declaration hs
    obtain ⟨x, rfl, hx⟩ := Option.map_eq_some_iff.1 hv
    obtain ⟨k, c, code, ending, rfl, hcode, hend, hfs⟩ := wrapper_of_map hx
    obtain ⟨l', d', g, ss', rfl, hg, rfl, hgf, hrh, hrb⟩ := hloop hs' hflat.2.1 hres.2.1
    obtain ⟨hnone, x', hx', -, hfs', himages⟩ := hc.images hrb
    obtain ⟨k', y, args, rfl, hy, hxs⟩ := Expr.of_map_call hx'
    obtain ⟨fk, rfl⟩ := Expr.of_map_name hy
    refine ⟨fun x hx => List.mem_append_left _ hx, fun x s hx => ?_, g, k, c, l'.id,
      code, ending, hg, hcode, hend, hgf, hrh, hres.1.2, ?_, fun R hR hroles => ?_⟩
    · rcases List.mem_append.1 hx with hx | hx
      · exact hx
      · rcases List.mem_cons.1 hx with hx | hx
        · cases hx
        · exact absurd hx (hnone x s)
    · have hcall : functions (Stmt.nodesOfList ss') = [] := by
        rw [hfs']
        simp [Expr.nodes, function?, hargs hxs]
      rw [Stmt.nodesOfList, Stmt.nodesOfList, Stmt.nodesOfList]
      simp only [Stmt.nodes, Block.nodes, functions_append, functions_cons, hcall, hfs, function?,
        Option.toList_none, List.nil_append, List.append_nil]
      exact List.perm_append_comm
    · refine ⟨l', d', k', args, ss', hxs, ?_⟩
      rw [if_pos hhoist]
      refine ⟨d, fk, name, p.loopParams m, p.loopCode m b w drivers body, rfl,
        himages R hR fun x hx => ?_, ?_⟩
      · exact hroles x (List.mem_append_right _ (List.mem_cons_of_mem _ hx))
      · subst hR
        exact Reading.Binds.declares
          (hroles _ (List.mem_append_right _ List.mem_cons_self)) hres.1.1
  next hhoist =>
    obtain ⟨call, ρc, hc, hout, rfl⟩ := h
    obtain ⟨s, rfl, hs⟩ := Stmt.of_mapList_one hout
    obtain ⟨l', d', g, ss', rfl, hg, rfl, hgf, hrh, hrb⟩ := hloop hs hflat.1 hres.1
    obtain ⟨hnone, x', hx', hrx, hfs', himages⟩ := hc.images hrb
    obtain ⟨k', y, args, rfl, hy, hxs⟩ := Expr.of_map_call hx'
    obtain ⟨k, c, code, ending, rfl, hcode, hend, hfs⟩ := wrapper_of_map hy
    refine ⟨fun x hx => List.mem_append_left _ hx, fun x s hx => ?_, g, k, c, l'.id,
      code, ending, hg, hcode, hend, hgf, hrh, hrx.1, ?_, fun R hR hroles => ?_⟩
    · exact (List.mem_append.1 hx).resolve_right (hnone x s)
    · have hcall : functions (Stmt.nodesOfList ss') = k :: functions (Stmt.nodesOfList code) := by
        rw [hfs', Expr.nodes, functions_cons, functions_append, hfs, hargs hxs]
        simp [function?]
      rw [Stmt.nodesOfList, Stmt.nodesOfList]
      simp [Stmt.nodes, Block.nodes, hcall, function?]
    · refine ⟨l', d', k', args, ss', hxs, ?_⟩
      rw [if_neg hhoist]
      exact ⟨rfl, himages R hR fun x hx => hroles x (List.mem_append_right _ hx)⟩

/-- The early exit of a region contains no function. -/
theorem leave_plain (r : Region) (e : Exit) (span : Span) {s : Stmt Span}
    (hs : functions s.nodes = []) : Stmt.Plain (Lower.leave r e none span s) := by
  rw [Lower.leave]
  split
  · exact exitStmts_plain r.writeBacks span (some e)
  · exact Stmt.plain_of_forall (by simpa using hs)

/-! ## Code -/

/-- The scopes around a piece of code whose bindings may have their variables in it: that of the
    function, if no wrapper is around the piece, and that of the piece, if it declares something
    there. -/
def Around (r : Region) (fs sc : ScopeId) (l : Prop) (x : Nat) : Prop :=
  r.inWrapper = false ∧ x = fs ∨ l ∧ x = sc

theorem Around.lt {fs : ScopeId} {n : Nat} {q : Prop} (hfs : fs < n) (hsc : sc < n) :
    ∀ x, Around r fs sc q x → x < n
  | _, .inl h => h.2 ▸ hfs
  | _, .inr h => h.2 ▸ hsc

/-- A piece that may declare something in the scope around it. -/
theorem Yields.around {fs : ScopeId} {n m : Nat} {q q' : Prop} {fs' : List Mark}
    {P : Reading → Prop} (h : p.Yields fn a (Around r fs sc q) n m roles fs' P) (hq : q → q') :
    p.Yields fn a (Around r fs sc q') n m roles fs' P :=
  h.mono (Nat.le_refl n) (Nat.le_refl m) (fun _ h => .inl (h.imp_right fun h => ⟨hq h.1, h.2⟩))
    (fun _ _ h => h) (.refl _) fun _ _ h => h

/-- A piece that declares nothing in the scopes around it. -/
theorem Yields.inside {fs : ScopeId} {n m : Nat} {q : Prop} {fs' : List Mark} {P : Reading → Prop}
    (h : p.Yields fn a (fun _ => False) n m roles fs' P) :
    p.Yields fn a (Around r fs sc q) n m roles fs' P :=
  h.mono (Nat.le_refl n) (Nat.le_refl m) (fun _ h => h.elim) (fun _ _ h => h) (.refl _)
    fun _ _ h => h

/-- A clause of a `for` that is a statement. -/
theorem clause_of_map {s : Stmt Mark} {s' : Option (Stmt Mark)}
    (hlow : p.LowersStmt r sc s (s'.map (Stmt.map Mark.span)).toList roles)
    (hq : ∀ t, s' = some t → a.ResolvedStmt globals f f false t) :
    p.LowersStmt r sc s (Stmt.mapList Mark.span s'.toList) roles ∧
      a.ResolvedStmts globals f f false s'.toList := by
  cases s' with
  | none => exact ⟨hlow, trivial⟩
  | some t => exact ⟨hlow, hq t rfl, trivial⟩

/-- A clause of a `for` that is a statement, and its image. -/
theorem Yields.clause {fs loop : ScopeId} {n m : Nat} {q q' : Prop} {s : Stmt Mark}
    {s' : Option (Stmt Mark)} {P : Reading → Prop}
    (h : p.Yields fn a (Around r fs sc q) n m roles
    (functions (Stmt.nodesOfList s'.toList)) fun R =>
      (∀ x ∈ roles, R.Binds f x.1 x.2) → P R → p.ImagesStmt R r s s'.toList)
    (hq : q → q' ∧ sc = loop) :
    p.Yields fn a (Around r fs loop q') n m roles (functions (s'.elim [] Stmt.nodes)) fun R =>
      (∀ x ∈ roles, R.Binds f x.1 x.2) → P R → (some s = none → s' = none) ∧
        ∀ t, some s = some t → p.ImagesStmt R r t s'.toList := by
  refine h.mono (Nat.le_refl n) (Nat.le_refl m)
    (fun x hx => .inl (hx.imp_right fun h => ⟨(hq h.1).1, h.2.trans (hq h.1).2⟩)) (fun _ _ h => h)
    (.of_eq (by cases s' <;> simp [Stmt.nodesOfList])) fun R _ h hroles hP => ⟨by simp, ?_⟩
  rintro _ ⟨⟩
  exact h hroles hP

/-- A piece whose own declarations are in a scope that starts with it. -/
theorem Yields.enclosed {fs s : ScopeId} {i n m : Nat} {q : Prop} {fs' : List Mark}
    {P : Reading → Prop} (h : p.Yields fn a (Around r fs s q) n m roles fs' P) (hn : i ≤ n)
    (hq : q → i ≤ s ∧ s < m) : p.Yields fn a (Around r fs sc False) i m roles fs' P := by
  refine h.mono hn (Nat.le_refl m) (fun x hx => ?_) (fun _ _ h => h) (.refl _) fun _ _ h => h
  rcases hx with hx | ⟨hx, rfl⟩
  · exact .inl (.inl hx)
  · exact .inr (hq hx)

/-- The variable of a declaration is for a binding of a scope around it. -/
theorem FreshDrivers.around (h : p.FreshDrivers fn r) (hp : p.Sound fn globals) {fs : ScopeId}
    {n : Name} {k : DeclKind} {b : Binding} (hb : p.analysis.scoping.lookup? sc n = some b)
    (hscope : if k.isBlockScoped then b.scope = sc ∧ b.origin.kind? = some k
      else b.scope = fs ∧ b.origin.isFunctionScoped)
    (hw : b.origin.isFunctionScoped → r.inWrapper = false) :
    ∃ x, p.SlotOf fn x (r.slot b.id) ∧ Around r fs sc k.isBlockScoped x := by
  refine ⟨b.scope, h.slotOf (hp.analysed.consistent.of_lookup? hb).1, ?_⟩
  split at hscope
  · exact .inr ⟨‹_›, hscope.1⟩
  · exact .inl ⟨hw hscope.2, hscope.1⟩

/-- A function around its code, and its image. What the function does not declare means what it
    means around the function. -/
theorem HostsFunction.images (hp : p.Sound fn globals) (ha : a.Consistent) {m q c : Mark}
    {ps : List Name} {b : Block Mark} {parent above : Option ScopeId} {hoisted : List BindingId}
    {top body : List (Stmt Mark)} {k : Nat} {q' : Prop} {O : Nat → Prop} {P Q : Reading → Prop}
    (h : p.HostsFunction r m.id ps hoisted roles)
    (ho : p.analysis.scoping.OpensFunction m.id ps b parent)
    (hoQ : a.OpensFunction q.id ps (.mk c (top ++ body)) above)
    (htop : Stmt.mapList Mark.span top = p.hoistedDeclarations hoisted)
    (hflat : Stmt.FlatWith (Stmt.mapList Mark.span body) roles) (hk : m.id + 2 ≤ k)
    (hbody : p.Yields fn a (Around r m.id m.id q') (m.id + 2) k roles
      (functions (Stmt.nodesOfList body)) fun R => (∀ x ∈ roles, R.Binds q.id x.1 x.2) →
        p.Mirrors R r m.id q.id → P R)
    (hout : ∀ R : Reading, R.scoping = a → Q R →
      (∀ n d, p.analysis.scoping.lookup? m.id n = some d →
        d.id ∉ p.analysis.scoping.bindingIdsOf m.id → ∃ f, above = some f ∧
          ∃ e, R.scoping.lookup? f (p.nameOf r d.id) = some e ∧
            R.role e.id = .holds (r.slot d.id)) ∧
      ∀ n, p.analysis.scoping.lookup? m.id n = none → n ∈ p.analysis.scoping.globalsUsed →
        ∀ f, above = some f → R.scoping.lookup? f n = none) :
    p.Yields fn a O m.id k [] (q :: functions (Stmt.nodesOfList (top ++ body))) fun R => Q R →
      (∀ ρ ∈ p.paramRoles m.id ps ++ hoisted.map p.ownRole, R.Binds q.id ρ.1 ρ.2) ∧ P R := by
  -- the hoisted declarations make no functions
  have hplain : functions (Stmt.nodesOfList top) = [] :=
    (Stmt.plain_mapList Mark.span).1 (htop ▸ hoistedDeclarations_plain hoisted)
  have hcode :
      Stmt.FlatWith (Stmt.mapList Mark.span (top ++ body)) (hoisted.map p.ownRole ++ roles) := by
    rw [Stmt.mapList_append, htop]
    exact (hoistedDeclarations_flat hoisted).append hflat
  -- the frame of the function holds its parameters, its hoisted variables and what its code
  -- declares
  have hstores := h.toHosts.storesCode ha hoQ hcode fun x => by
    rw [List.append_assoc, Roles.names_append, List.mem_append]
    simp [paramRoles, Roles.names]
  refine (hbody.close (i := m.id) (U := O) hp hstores (by omega) hk (fun x hx => ?_)
    (fun x s hx => ?_)).mono (Nat.le_refl _) (Nat.le_refl _) (fun _ => .inl) (fun _ _ h => h)
    (.of_eq ?_) fun R hR hbinds hQ => ?_
  · have := hx.elim (·.2) (·.2)
    omega
  · rcases List.mem_append.1 hx with hx | hx
    · refine .inr ⟨m.id, ?_, Nat.le_refl _, by omega⟩
      rcases List.mem_append.1 hx with hx | hx
      · obtain ⟨y, hy, he⟩ := List.mem_map.1 hx
        obtain ⟨d, hd, hds, -⟩ := ho.params y hy
        rw [hd] at he
        cases he
        exact ⟨d, (hp.analysed.consistent.of_lookup? hd).1, rfl, hds⟩
      · obtain ⟨i, hi, he⟩ := List.mem_map.1 hx
        cases he
        exact h.hoisted i hi
    · exact .inl hx
  · rw [Stmt.nodesOfList_append, functions_append, hplain, List.nil_append]
  · obtain ⟨hroles, himages⟩ := hbinds
    obtain ⟨hknown, hglobal⟩ := hout R hR hQ
    have hm : p.Mirrors R r m.id q.id := by
      subst hR
      exact h.toHosts.mirrors ha hoQ.scope hstores hroles (hknown _ _) (hglobal _)
    exact ⟨fun ρ hρ => hroles ρ (List.mem_append_left _ hρ),
      himages (fun ρ hρ => hroles ρ (List.mem_append_right _ hρ)) hm⟩

end LoweringPlan

end FlatScope
