import FlatScope.Proofs.Flat
import FlatScope.Proofs.Lowering.Steps

/-!
# Lowered code is flat

Whatever a piece of code is, it is lowered to flat code, and the `var`s that the lowered code
declares are the variables that have roles in it (`Roles.Declares`). The statements that handle the
signals of a wrapper declare nothing.
-/

namespace FlatScope

/-- The `var`s of two lists of statements. -/
theorem Stmt.varsOfList_append {α : Type} (ss ts : List (Stmt α)) :
    Stmt.varsOfList (ss ++ ts) = Stmt.varsOfList ss ++ Stmt.varsOfList ts := by
  induction ss with
  | nil => rfl
  | cons s ss ih => simp only [List.cons_append, Stmt.varsOfList, ih, List.append_assoc]

theorem Stmt.varsOfList_eq_nil {α : Type} {ss : List (Stmt α)} (h : ∀ s ∈ ss, s.vars = []) :
    Stmt.varsOfList ss = [] := by
  induction ss with
  | nil => rfl
  | cons s ss ih =>
    rw [Stmt.varsOfList, h s List.mem_cons_self, ih fun t ht => h t (List.mem_cons_of_mem _ ht)]
    rfl

/-- The `var`s of some code are the variables with these roles. -/
structure Roles.Declares (rs : Roles) (vars : List (Name × Span)) : Prop where
  mem_iff : ∀ x, x ∈ vars.map (·.1) ↔ x ∈ rs.names

namespace Roles.Declares

variable {rs ss : Roles} {vars ws : List (Name × Span)}

theorem nil : Declares [] [] := ⟨fun _ => Iff.rfl⟩

theorem one (n : Name) (ρ : Role) (span : Span) : Declares [(n, ρ)] [(n, span)] :=
  ⟨fun _ => Iff.rfl⟩

theorem append (h : rs.Declares vars) (h' : ss.Declares ws) :
    Declares (rs ++ ss) (vars ++ ws) := ⟨fun x => by
  rw [List.map_append, names_append, List.mem_append, List.mem_append, h.mem_iff, h'.mem_iff]⟩

theorem perm {rs' : Roles} (h : rs.Declares vars) (hp : rs.Perm rs') : Declares rs' vars :=
  ⟨fun x => (h.mem_iff x).trans (hp.map _).mem_iff⟩

end Roles.Declares

/-- Flat statements that declare the variables with some roles. -/
structure Stmt.FlatWith (ss : List (Stmt Span)) (rs : Roles) : Prop where
  flat : Stmt.AreFlat ss
  declares : rs.Declares (Stmt.varsOfList ss)

namespace Stmt.FlatWith

variable {ss ts : List (Stmt Span)} {rs rs' : Roles}

/-- Flat statements without declarations. -/
theorem of_forall (h : ∀ s ∈ ss, s.IsFlat ∧ s.vars = []) : FlatWith ss [] where
  flat := Stmt.areFlat_iff.2 fun s hs => (h s hs).1
  declares := by
    rw [Stmt.varsOfList_eq_nil fun s hs => (h s hs).2]
    exact .nil

theorem append (h : FlatWith ss rs) (h' : FlatWith ts rs') : FlatWith (ss ++ ts) (rs ++ rs') where
  flat := Stmt.areFlat_append.2 ⟨h.flat, h'.flat⟩
  declares := by
    rw [Stmt.varsOfList_append]
    exact h.declares.append h'.declares

/-- A single flat statement. -/
theorem one {s : Stmt Span} (h : s.IsFlat) (hd : rs.Declares s.vars) : FlatWith [s] rs where
  flat := by
    rw [Stmt.AreFlat, Stmt.AreFlat]
    exact ⟨h, trivial⟩
  declares := by
    rw [Stmt.varsOfList, Stmt.varsOfList, List.append_nil]
    exact hd

/-- A flat statement in front of others. -/
theorem cons {s : Stmt Span} {ρ : Name × Role} (h : s.IsFlat) (hd : Roles.Declares [ρ] s.vars)
    (h' : FlatWith ss rs) : FlatWith (s :: ss) (ρ :: rs) := (one h hd).append h'

end Stmt.FlatWith

/-! ## Signals -/

/-- Writing back is assignments, without declarations. -/
theorem writeBackStmts_flat (ws : WriteBacks) :
    ∀ s ∈ writeBackStmts ws, s.IsFlat ∧ s.vars = [] := by
  intro s hs
  obtain ⟨w, -, rfl⟩ := List.mem_map.1 hs
  simp [Stmt.IsFlat, Expr.IsFlat, Stmt.vars]

theorem exitStmts_flat (k : SignalKind) {v : Option (Expr Span)} (hv : ∀ e, v = some e → e.IsFlat)
    (ws : WriteBacks) (span : Span) :
    ∀ s ∈ exitStmts k v ws span, s.IsFlat ∧ s.vars = [] := by
  intro s hs
  rcases List.mem_append.1 hs with hs | hs
  · exact writeBackStmts_flat ws s hs
  · obtain rfl := List.mem_singleton.1 hs
    cases v with
    | none => simp [Stmt.IsFlat, Expr.IsFlat, Stmt.vars]
    | some e => simpa [Stmt.IsFlat, Expr.IsFlat, Stmt.vars] using hv e rfl

theorem actionStmts_flat (signal : Name) (ws : WriteBacks) (span : Span) (e : Exit)
    (action : ExitAction) : ∀ s ∈ actionStmts signal ws span e action, s.IsFlat ∧ s.vars = [] := by
  intro s hs
  cases action with
  | jump =>
    obtain rfl := List.mem_singleton.1 hs
    split <;> simp [Stmt.IsFlat, Stmt.vars]
  | returnValue =>
    obtain rfl := List.mem_singleton.1 hs
    simp [Stmt.IsFlat, Expr.IsFlat, Stmt.vars]
  | propagate =>
    rcases List.mem_append.1 hs with hs | hs
    · exact writeBackStmts_flat ws s hs
    · obtain rfl := List.mem_singleton.1 hs
      simp [Stmt.IsFlat, Expr.IsFlat, Stmt.vars]

/-- A branch without an alternative whose statements are flat and declare nothing. -/
theorem branch_flat {c : Expr Span} (hc : c.IsFlat) {ss : List (Stmt Span)}
    (h : ∀ s ∈ ss, s.IsFlat ∧ s.vars = []) (span span' : Span) :
    (Stmt.branch span c (.mk span' ss) none).IsFlat ∧
      (Stmt.branch span c (.mk span' ss) none).vars = [] := by
  obtain ⟨hflat, hdeclares⟩ := Stmt.FlatWith.of_forall h
  rw [Stmt.IsFlat, Block.IsFlat]
  refine ⟨⟨hc, hflat⟩, ?_⟩
  rw [Stmt.vars, Block.vars, Stmt.varsOfList_eq_nil fun s hs => (h s hs).2]
  rfl

/-- The handlers after a call are flat and declare nothing. -/
theorem handlers_flat (site : CallSite) (signal : Name) (exits : List Exit) (ws : WriteBacks)
    (span : Span) : ∀ s ∈ site.handlers signal exits ws span, s.IsFlat ∧ s.vars = [] := by
  intro s hs
  rw [CallSite.handlers] at hs
  split at hs
  · obtain rfl := List.mem_singleton.1 hs
    refine branch_flat (by simp [Expr.IsFlat]) (fun s hs => ?_) ..
    exact actionStmts_flat signal ws span .ret .propagate s hs
  · obtain ⟨⟨e, action⟩, -, rfl⟩ := List.mem_map.1 hs
    exact branch_flat (by simp [Expr.IsFlat]) (actionStmts_flat signal ws span e action) ..

/-- If the call of a wrapper is planned, the signals that may arrive there have somewhere to go. -/
theorem handles_of_planDispatch {exits : List Exit} {site : CallSite}
    {plan : List (Exit × ExitAction)} (h : planDispatch exits site = .ok plan) :
    site.Handles exits := by
  have hall : ∀ (es : List Exit) (plan : List (Exit × ExitAction)),
      (es.mapM fun e => do return (e, ← planExit site e) : Except Rejection _) = .ok plan →
      ∀ e ∈ es, e ≠ .ret → site.inLoop ∨ site.inWrapper := by
    intro es
    induction es with
    | nil => simp
    | cons e es ih =>
      intro plan h f hf hne
      rw [List.mapM_cons] at h
      cases he : planExit site e with
      | error r => simp [he, bind, Except.bind] at h
      | ok action =>
        cases hes : (es.mapM fun e => do return (e, ← planExit site e) : Except Rejection _) with
        | error r =>
          rw [hes, he] at h
          cases h
        | ok rest =>
          rcases List.mem_cons.1 hf with rfl | hf
          · cases f with
            | ret => exact absurd rfl hne
            | brk | cont =>
              cases hl : site.inLoop <;> cases hw : site.inWrapper <;>
                simp_all [planExit]
          · exact ih rest hes f hf hne
  intro e he
  exact hall _ plan h e (List.mem_filter.2 ⟨by cases e <;> simp [Exit.all], by simpa using he⟩)

/-- The call of a wrapper that may be left early. -/
theorem signalCall_ok {call : Expr Span} {signal : Name} {exits : List Exit} {site : CallSite}
    {ws : WriteBacks} {span : Span} {out : List (Stmt Span)}
    (h : signalCall call signal exits site ws span = .ok out) : site.Handles exits ∧
      out = .declaration span signal .var (some call) :: site.handlers signal exits ws span := by
  have hh : site.Handles exits := by
    cases hp : planDispatch exits site with
    | error r => simp [signalCall, dispatchStmts, hp, bind, Except.bind] at h
    | ok plan => exact handles_of_planDispatch hp
  rw [signalCall_eq hh] at h
  exact ⟨hh, (Except.ok.inj h).symm⟩

/-- The call of a wrapper is flat if the expression that calls it is. -/
theorem Region.Calls.flat {r : Region} {exits : List Exit} {site : CallSite} {span : Span}
    {call : Expr Span} {out : List (Stmt Span)} {roles : Roles}
    (h : r.Calls exits site span call out roles) (hc : call.IsFlat) : Stmt.FlatWith out roles := by
  rw [Region.Calls] at h
  split at h
  · obtain ⟨rfl, rfl⟩ := h
    exact .one (by rwa [Stmt.IsFlat]) .nil
  · obtain ⟨sig, h, rfl⟩ := h
    obtain ⟨-, rfl⟩ := signalCall_ok h
    refine .cons ?_ (.one ..) (.of_forall (handlers_flat site sig exits _ span))
    rw [Stmt.IsFlat]
    exact ⟨rfl, hc⟩

namespace LoweringPlan

variable {p : LoweringPlan} {r : Region} {sc : ScopeId}

/-- A hoisted declaration is a `var` for its binding's own role. -/
theorem hoistedDeclarations_flat (bs : List BindingId) :
    Stmt.FlatWith (p.hoistedDeclarations bs) (bs.map p.ownRole) := by
  induction bs with
  | nil => exact .of_forall (by simp [hoistedDeclarations])
  | cons b bs ih => exact .cons rfl (.one ..) ih

/-- The code of a wrapper with its end. -/
theorem wrapperCode_flat {ss : List (Stmt Span)} {roles : Roles} (h : Stmt.FlatWith ss roles)
    (w : Wrapper) (ws : WriteBacks) : Stmt.FlatWith (Lower.wrapperCode w ws ss) roles := by
  have hend : Stmt.FlatWith (if w.exits.isEmpty then writeBackStmts ws else epilogue ws) [] := by
    split
    · exact .of_forall (writeBackStmts_flat ws)
    · exact .of_forall (exitStmts_flat none (by simp) ws .unknown)
  have happ := h.append hend
  rwa [List.append_nil] at happ

/-- Leaving a wrapper is flat and declares nothing. -/
theorem leave_flat {e : Exit} {v : Option (Expr Span)} (hv : ∀ e, v = some e → e.IsFlat)
    {span : Span} {plain : Stmt Span} (hp : plain.IsFlat ∧ plain.vars = []) :
    Stmt.FlatWith (Lower.leave r e v span plain) [] := by
  rw [Lower.leave]
  split
  · exact .of_forall (exitStmts_flat (some e) hv r.writeBacks span)
  · exact .of_forall (by simpa using hp)

/-- A lowered declaration is flat, and declares what it names. -/
theorem LowersDeclaration.flat {m : Mark} {b : Binding} {v : Option (Expr Span)}
    {out : List (Stmt Span)} {roles : Roles} (h : p.LowersDeclaration r m b v out roles)
    (hv : ∀ e, v = some e → e.IsFlat) : Stmt.FlatWith out roles := by
  rw [LowersDeclaration] at h
  split at h
  · obtain ⟨rfl, rfl⟩ := h
    refine .one ?_ (.one ..)
    rw [Stmt.IsFlat]
    cases v with
    | none => exact ⟨rfl, by simp [Expr.IsFlat]⟩
    | some e => exact ⟨rfl, hv e rfl⟩
  · split at h
    · obtain ⟨rfl, rfl⟩ := h
      cases v with
      | none => exact .of_forall (by simp)
      | some e => exact .one (by simpa [Stmt.IsFlat, Expr.IsFlat] using hv e rfl) .nil
    · obtain ⟨rfl, rfl⟩ := h
      refine .one ?_ (.one ..)
      cases v with
      | none => rfl
      | some e => exact ⟨rfl, hv e rfl⟩

/-- A loop that calls its wrapper is flat when its header and the body of the wrapper are. -/
theorem CallsLoop.flat {m b : Mark} {w : Wrapper} {drivers : List (BindingId × Name)}
    {h' : Header Span} {body : List (Stmt Span)} {ρh inner : Roles} {out : List (Stmt Span)}
    {roles : Roles} (h : p.CallsLoop r m b w drivers h' body ρh out roles) (hh : h'.IsFlat)
    (hd : ρh.Declares h'.vars) (hb : Stmt.FlatWith body inner) : Stmt.FlatWith out roles := by
  have hcode : Stmt.AreFlat (p.loopCode m b w drivers body).statements :=
    (wrapperCode_flat hb w _).flat
  have hargs : Expr.AreFlat (loopArgs m drivers) := by
    rw [loopArgs]
    clear h hcode
    induction drivers with
    | nil => simp [Expr.AreFlat]
    | cons d ds ih => simpa [Expr.AreFlat, Expr.IsFlat] using ih
  have hloop : ∀ {call : List (Stmt Span)} {ρc : Roles}, Stmt.FlatWith call ρc →
      Stmt.FlatWith [.loop m.span h' (.mk m.span call)] (ρh ++ ρc) := by
    intro call ρc hcall
    refine .one ?_ ?_
    · rw [Stmt.IsFlat, Block.IsFlat]
      exact ⟨hh, hcall.flat⟩
    · rw [Stmt.vars]
      exact hd.append hcall.declares
  have hwrapper :
      (Expr.function m.span (p.loopParams m) (p.loopCode m b w drivers body)).IsFlat := by
    rw [loopCode, Expr.IsFlat]
    exact hcode
  rw [CallsLoop] at h
  split at h
  · obtain ⟨name, call, ρc, hc, rfl, rfl⟩ := h
    have hcall := hloop (hc.flat (by
      rw [Expr.IsFlat, Expr.IsFlat]
      exact ⟨trivial, hargs⟩))
    have hdecl : Stmt.FlatWith [.declaration m.span name .var (some
        (.function m.span (p.loopParams m) (p.loopCode m b w drivers body)))]
        [(name, .wrapper (p.loopParams m) (p.loopCode m b w drivers body))] :=
      .one (by
        rw [Stmt.IsFlat]
        exact ⟨rfl, hwrapper⟩) (.one ..)
    obtain ⟨hflat, hdeclares⟩ := hdecl.append hcall
    exact ⟨hflat, hdeclares.perm
      (show List.Perm (_ :: (ρh ++ ρc)) _ from List.perm_middle.symm)⟩
  · obtain ⟨call, ρc, hc, rfl, rfl⟩ := h
    refine hloop (hc.flat ?_)
    rw [Expr.IsFlat]
    exact ⟨hwrapper, hargs⟩

/-! ## Code -/

theorem LowersDeclaration.isInit {m : Mark} {b : Binding} {v : Option (Expr Span)} {o : Stmt Span}
    {roles : Roles} (h : p.LowersDeclaration r m b v [o] roles) : o.isInit := by
  rw [LowersDeclaration] at h
  split at h
  · rw [(List.cons.inj h.1).1]
    rfl
  · split at h
    · cases v with
      | none => cases h.1
      | some e =>
        rw [(List.cons.inj h.1).1]
        rfl
    · rw [(List.cons.inj h.1).1]
      rfl

/-- What may stand in the first clause of a `for` is lowered to such a statement, if to any. -/
theorem LowersStmt.isInit {s : Stmt Mark} {o : Stmt Span} {roles : Roles}
    (h : p.LowersStmt r sc s [o] roles) (hs : s.isInit) : o.isInit := by
  cases s with
  | declaration m n k v =>
    cases v with
    | none =>
      obtain ⟨b, -, hb⟩ := h
      exact hb.isInit
    | some e =>
      obtain ⟨b, e', -, -, hb⟩ := h
      exact hb.isInit
  | assignment =>
    obtain ⟨t, v, -, -, ho, -⟩ := h
    rw [(List.cons.inj ho).1]
    rfl
  | expression =>
    obtain ⟨e, -, ho, -⟩ := h
    rw [(List.cons.inj ho).1]
    rfl
  | _ => cases hs

/-- What may stand in the last clause of a `for` is lowered to one such statement, which declares
    nothing. -/
theorem LowersStmt.isUpdate {s : Stmt Mark} {out : List (Stmt Span)} {roles : Roles}
    (h : p.LowersStmt r sc s out roles) (hs : s.isUpdate) :
    ∃ o, out = [o] ∧ o.isUpdate ∧ roles = [] := by
  cases s with
  | assignment =>
    obtain ⟨t, v, -, -, ho, hroles⟩ := h
    exact ⟨_, ho, rfl, hroles⟩
  | expression =>
    obtain ⟨e, -, ho, hroles⟩ := h
    exact ⟨_, ho, rfl, hroles⟩
  | _ => cases hs

mutual

/-- A lowered expression is flat. -/
theorem LowersExpr.flat : ∀ {e : Expr Mark} {r : Region} {x : Expr Span}, e.IsSource →
    p.LowersExpr r e x → x.IsFlat
  | .literal .., r, x, _, h | .name .., r, x, _, h => by
    rw [LowersExpr] at h
    rw [h, Expr.IsFlat]
    trivial
  | .unary _ _ e, r, x, hsrc, h => by
    obtain ⟨e', he, rfl⟩ := h
    rw [Expr.IsFlat]
    exact LowersExpr.flat (e := e) hsrc he
  | .binary _ _ e f, r, x, hsrc, h | .index _ e f, r, x, hsrc, h => by
    obtain ⟨e', f', he, hf, rfl⟩ := h
    rw [Expr.IsFlat]
    exact ⟨LowersExpr.flat hsrc.1 he, LowersExpr.flat hsrc.2 hf⟩
  | .call _ f args, r, x, hsrc, h => by
    obtain ⟨f', args', hf, hargs, rfl⟩ := h
    rw [Expr.IsFlat]
    exact ⟨LowersExpr.flat hsrc.1 hf, LowersExprs.flat hsrc.2 hargs⟩
  | .array _ es, r, x, hsrc, h => by
    obtain ⟨es', hes, rfl⟩ := h
    rw [Expr.IsFlat]
    exact LowersExprs.flat hsrc hes
  | .function _ _ (.mk _ ss), r, x, hsrc, h => by
    obtain ⟨hoisted, out, roles, hss, -, rfl⟩ := h
    rw [Expr.IsFlat]
    exact ((hoistedDeclarations_flat hoisted).append (LowersStmts.flat hsrc hss)).flat
  | .signal .., _, _, _, h | .signalIs .., _, _, _, h | .signalValue .., _, _, _, h
  | .unknown .., _, _, _, h => by
    simp only [LowersExpr] at h

theorem LowersExprs.flat : ∀ {es : List (Expr Mark)} {r : Region} {xs : List (Expr Span)},
    Expr.AreSource es → p.LowersExprs r es xs → Expr.AreFlat xs
  | [], r, xs, _, h => by
    rw [LowersExprs] at h
    rw [h, Expr.AreFlat]
    trivial
  | e :: es, r, xs, hsrc, h => by
    obtain ⟨e', es', he, hes, rfl⟩ := h
    rw [Expr.AreFlat]
    exact ⟨LowersExpr.flat hsrc.1 he, LowersExprs.flat hsrc.2 hes⟩

/-- Lowered statements are flat, and declare what their roles list. -/
theorem LowersStmts.flat : ∀ {ss : List (Stmt Mark)} {r : Region} {sc : ScopeId}
    {out : List (Stmt Span)} {roles : Roles}, Stmt.AreSource ss → p.LowersStmts r sc ss out roles →
    Stmt.FlatWith out roles
  | [], r, sc, out, roles, _, h => by
    obtain ⟨rfl, rfl⟩ := h
    exact .of_forall (by simp)
  | s :: ss, r, sc, out, roles, hsrc, h => by
    obtain ⟨o, os, ρ, ρs, hs, hss, rfl, rfl⟩ := h
    exact (LowersStmt.flat hsrc.1 hs).append (LowersStmts.flat hsrc.2 hss)

/-- A lowered block is flat, and declares what its roles list. -/
theorem LowersBlock.flat : ∀ {b : Block Mark} {r : Region} {sc : ScopeId} {x : Block Span}
    {roles : Roles}, b.IsSource → p.LowersBlock r sc b x roles → Stmt.FlatWith x.statements roles
  | .mk m ss, r, sc, x, roles, hsrc, h => by
    cases hw : p.analysis.wrapper? m.id with
    | none =>
      obtain ⟨out, hss, rfl⟩ := (lowersBlock_plain hw).1 h
      exact LowersStmts.flat hsrc hss
    | some w =>
      obtain ⟨out, inner, call, hss, -, hc, rfl⟩ := (lowersBlock_wrapped hw).1 h
      refine hc.flat ?_
      rw [Expr.IsFlat, Expr.IsFlat, Expr.AreFlat]
      exact ⟨(wrapperCode_flat (LowersStmts.flat hsrc hss) w []).flat, trivial⟩

/-- A lowered statement is flat, and declares what its roles list. -/
theorem LowersStmt.flat : ∀ {s : Stmt Mark} {r : Region} {sc : ScopeId} {out : List (Stmt Span)}
    {roles : Roles}, s.IsSource → p.LowersStmt r sc s out roles → Stmt.FlatWith out roles
  | .declaration _ _ _ none, r, sc, out, roles, _, h => by
    obtain ⟨b, -, hb⟩ := h
    exact hb.flat (by simp)
  | .declaration _ _ _ (some e), r, sc, out, roles, hsrc, h => by
    obtain ⟨b, e', -, he, hb⟩ := h
    exact hb.flat (by simpa using LowersExpr.flat hsrc he)
  | .assignment _ t v, r, sc, out, roles, hsrc, h => by
    obtain ⟨t', v', ht, hv, rfl, rfl⟩ := h
    exact .one (by
      rw [Stmt.IsFlat]
      exact ⟨LowersExpr.flat hsrc.1 ht, LowersExpr.flat hsrc.2 hv⟩) .nil
  | .expression _ e, r, sc, out, roles, hsrc, h => by
    obtain ⟨e', he, rfl, rfl⟩ := h
    exact .one (by
      rw [Stmt.IsFlat]
      exact LowersExpr.flat hsrc he) .nil
  | .block b, r, sc, out, roles, hsrc, h => by
    obtain ⟨c, hc, rfl⟩ := h
    have hflat := LowersBlock.flat hsrc hc
    split
    · exact hflat
    · obtain ⟨m, ss⟩ := c
      exact .one hflat.flat hflat.declares
  | .branch _ c t none, r, sc, out, roles, hsrc, h => by
    obtain ⟨c', ⟨m, ss⟩, hc, ht, rfl⟩ := h
    have hflat := LowersBlock.flat hsrc.2 ht
    refine .one ⟨LowersExpr.flat hsrc.1 hc, hflat.flat⟩ ?_
    rw [Stmt.vars, List.append_nil]
    exact hflat.declares
  | .branch _ c t (some e), r, sc, out, roles, hsrc, h => by
    obtain ⟨c', ⟨m, ss⟩, ⟨m', ss'⟩, ρt, ρe, hc, ht, he, rfl, rfl⟩ := h
    have hthen := LowersBlock.flat hsrc.2.1 ht
    have helse := LowersBlock.flat hsrc.2.2 he
    exact .one ⟨LowersExpr.flat hsrc.1 hc, hthen.flat, helse.flat⟩
      (hthen.declares.append helse.declares)
  | .loop m hd (.mk b ss), r, sc, out, roles, hsrc, h => by
    cases hw : (p.loopPlan m.id).wrapper with
    | none =>
      obtain ⟨h', body, ρh, ρb, hh, hb, rfl, rfl⟩ := (lowersStmt_plainLoop hw).1 h
      obtain ⟨hhf, hhd⟩ := LowersHeader.flat hsrc.1 hh
      have hbody := LowersStmts.flat hsrc.2 hb
      exact .one ⟨hhf, hbody.flat⟩ (hhd.append hbody.declares)
    | some w =>
      obtain ⟨drivers, h', body, ρh, ρb, -, hh, hb, -, -, hcalls⟩ := (lowersStmt_wrappedLoop hw).1 h
      obtain ⟨hhf, hhd⟩ := LowersHeader.flat hsrc.1 hh
      exact hcalls.flat hhf hhd (LowersStmts.flat hsrc.2 hb)
  | .ret _ none, r, sc, out, roles, _, h => by
    obtain ⟨rfl, rfl⟩ := h
    exact leave_flat (by simp) (by simp [Stmt.IsFlat, Stmt.vars])
  | .ret _ (some e), r, sc, out, roles, hsrc, h => by
    obtain ⟨e', he, rfl, rfl⟩ := h
    have hflat := LowersExpr.flat hsrc he
    exact leave_flat (by simpa using hflat) (by simpa [Stmt.IsFlat, Stmt.vars] using hflat)
  | .brk _, r, sc, out, roles, _, h | .cont _, r, sc, out, roles, _, h => by
    obtain ⟨rfl, rfl⟩ := h
    split
    · exact .of_forall (by simp [Stmt.IsFlat, Stmt.vars])
    · exact leave_flat (by simp) (by simp [Stmt.IsFlat, Stmt.vars])
  | .unknown .., _, _, _, _, _, h => by
    simp only [LowersStmt] at h

/-- A lowered header is flat, and declares what its roles list. -/
theorem LowersHeader.flat : ∀ {h : Header Mark} {r : Region} {sc : ScopeId} {x : Header Span}
    {roles : Roles}, h.IsSource → p.LowersHeader r sc h x roles →
    x.IsFlat ∧ roles.Declares x.vars
  | .whileTrue _ c, r, sc, x, roles, hsrc, h => by
    obtain ⟨c', hc, rfl, rfl⟩ := h
    exact ⟨LowersExpr.flat hsrc hc, .nil⟩
  | .counting m i c u, r, sc, x, roles, hsrc, h => by
    obtain ⟨hsi, hsc, hsu⟩ := Header.shaped_counting.1 hsrc
    obtain ⟨i', c', u', ρi, ρu, hi, hc, hu, rfl, rfl⟩ := lowersHeader_counting.1 h
    -- what the clauses that are statements are lowered to
    have hinit : (∀ s, i' = some s → s.isInit ∧ s.IsFlat) ∧
        Roles.Declares ρi (Stmt.varsOfList i'.toList) := by
      cases i with
      | none =>
        obtain ⟨rfl, rfl⟩ := hi.1 rfl
        exact ⟨by simp, .nil⟩
      | some s =>
        have hs := hi.2 s rfl
        have hflat := LowersStmt.flat (hsi s rfl).2 hs
        refine ⟨?_, hflat.declares⟩
        rintro o rfl
        exact ⟨hs.isInit (hsi s rfl).1, hflat.flat.1⟩
    have hupdate : (∀ s, u' = some s → s.isUpdate ∧ s.IsFlat) ∧ ρu = [] := by
      cases u with
      | none =>
        obtain ⟨rfl, rfl⟩ := hu.1 rfl
        exact ⟨by simp, rfl⟩
      | some s =>
        have hs := hu.2 s rfl
        have hflat := LowersStmt.flat (hsu s rfl).2 hs
        obtain ⟨o, ho, hupd, hroles⟩ := hs.isUpdate (hsu s rfl).1
        refine ⟨?_, hroles⟩
        rintro t rfl
        obtain rfl := (List.cons.inj ho).1
        exact ⟨hupd, hflat.flat.1⟩
    have hcond : ∀ e, c' = some e → e.IsFlat := by
      cases c with
      | none =>
        rw [hc.1 rfl]
        simp
      | some e =>
        obtain ⟨e', he, rfl⟩ := hc.2 e rfl
        simpa using LowersExpr.flat (hsc e rfl) he
    refine ⟨Header.isFlat_counting.2 ⟨hinit.1, hcond, hupdate.1⟩, ?_⟩
    rw [hupdate.2, List.append_nil]
    cases i' with
    | none => exact hinit.2
    | some s => simpa [Header.vars, Stmt.varsOfList] using hinit.2
  | .forOf m n k e, r, sc, x, roles, hsrc, h => by
    obtain ⟨e', n', k', he, hel, rfl⟩ := h
    have hflat := LowersExpr.flat hsrc he
    rw [Header.IsFlat]
    cases k with
    | none =>
      obtain ⟨rfl, rfl, rfl⟩ := hel
      exact ⟨⟨.inl rfl, hflat⟩, .nil⟩
    | some k =>
      obtain ⟨b, -, rfl, hel⟩ := hel
      split at hel
      · obtain ⟨rfl, rfl⟩ := hel
        exact ⟨⟨.inl rfl, hflat⟩, .nil⟩
      · obtain ⟨rfl, rfl⟩ := hel
        exact ⟨⟨.inr rfl, hflat⟩, .one ..⟩
  | .unknown .., _, _, _, _, _, h => by
    simp only [LowersHeader] at h

end

end LoweringPlan

end FlatScope
