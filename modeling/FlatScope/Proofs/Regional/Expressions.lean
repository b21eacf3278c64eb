import FlatScope.Proofs.Regional.Standing
import FlatScope.Proofs.Regional.Values

/-!
# Expressions of lowered programs

A lowered expression yields what the machine yields for the expression that it is made of, if the
names in it stand for the locations of the bindings that they mean (`World.expr_sim`). Calls of
closures are assumed to do the same (`World.Calls`): a function only closes over the frame that its
names are looked up in.
-/

namespace FlatScope

open Process

namespace Regional

theorem like_literal {κ : Nat → Option Nat} (l : Literal) :
    Value.Like κ (literal l) (literal l) := by
  cases l <;> exact .plain rfl

namespace World

variable {w : World} {p : LoweringPlan} {fn : FunctionDef Mark} {globals : List Name} {i : Nat}

/-- A function that is lowered closes over what it needs. -/
theorem represents_function (hp : p.Sound fn globals) {r : Region} {sc : ScopeId} {f : FrameId}
    {env : Env} {m b : Mark} {ps : List Name} {ss : List (Stmt Mark)}
    (hsrc : (Expr.function m ps (.mk b ss)).IsSource)
    (hres : p.analysis.scoping.ResolvedExpr globals sc (.function m ps (.mk b ss)))
    (hin : ∀ y ∈ (Expr.function m ps (.mk b ss)).nodes, p.Within fn r sc y)
    (h : w.Stands p r sc f env) (hlt : f < w.frames) {hoisted : List BindingId}
    {out : List (Stmt Span)} {roles : Roles}
    (hlow : p.LowersStmts r.function m.id ss out roles)
    (hhosts : p.Hosts r.function m.id (p.analysis.scoping.bindingIdsOf m.id)
      (p.paramRoles m.id ps ++ hoisted.map p.ownRole ++ roles)) :
    w.Represents ⟨ps, .mk b.span (p.hoistedDeclarations hoisted ++ out), f, none⟩
      ⟨p.analysis.scoping, m.id, ps, ss, env⟩ := by
  obtain ⟨hopens, hres⟩ := hres
  have hcons := hp.analysed.consistent
  have hnode := (hin _ List.mem_cons_self).node
  refine .mk _ _ hp hsrc hres (fun y hy => ?_) hopens hlow hhosts (fun {n d} hd hs => ?_)
    (fun hn hg => h.global (hcons.lookup?_outer hopens.scope hn) hg) hlt
  · have hy' := hin y (List.mem_cons_of_mem _ (List.mem_cons_of_mem _ hy))
    exact ⟨hy'.node, hp.analysed.lt_below hnode (List.mem_cons_of_mem _ hy), hy'.drivers⟩
  · exact h.known ((hcons.of_lookup?_inner hopens.scope hd).resolve_left hs)

mutual

theorem expr_sim (hp : p.Sound fn globals) (hc : Calls i) : ∀ {e : Expr Mark} {w : World}
    {r : Region} {sc : ScopeId} {f : FrameId} {env : Env} {x : Expr Span}, e.IsSource →
    p.analysis.scoping.ResolvedExpr globals sc e → (∀ y ∈ e.nodes, p.Within fn r sc y) →
    w.Stands p r sc f env → f < w.frames → p.LowersExpr r e x →
    lowering.Sim i w Yields (fun n => Eval.expr n x f)
      (fun k => expr k p.analysis.scoping e env)
  | .literal _ l, w, r, sc, f, env, x, _, _, _, _, _, h => by
    rw [LoweringPlan.LowersExpr] at h
    rw [h]
    refine .left rfl (fun n => ?_) (.right rfl (fun _ => rfl) (.pure fun _ _ => like_literal l))
    cases l <;> rfl
  | .name m n, w, r, sc, f, env, x, _, hres, _, hs, _, h => by
    rw [LoweringPlan.LowersExpr] at h
    rw [h]
    exact .right rfl (fun _ => rfl) (read_sim hs hres m.span)
  | .unary _ op e, w, r, sc, f, env, x, hsrc, hres, hin, hs, hlt, h => by
    obtain ⟨e', he, rfl⟩ := h
    refine .left rfl (fun _ => rfl) (.right rfl (fun _ => rfl) ?_)
    exact (expr_sim hp hc (e := e) hsrc hres (fun y hy => hin y (List.mem_cons_of_mem _ hy)) hs hlt
      he).bind (fun _ hq => hq) fun _ _ _ _ hv => unary_sim op hv
  | .binary _ op e g, w, r, sc, f, env, x, hsrc, hres, hin, hs, hlt, h => by
    obtain ⟨e', g', he, hg, rfl⟩ := h
    have hl := expr_sim hp hc hsrc.1 hres.1
      (fun y hy => hin y (List.mem_cons_of_mem _ (List.mem_append_left _ hy))) hs hlt he
    have hr := expr_sim hp hc hsrc.2 hres.2
      (fun y hy => hin y (List.mem_cons_of_mem _ (List.mem_append_right _ hy))) hs hlt hg
    cases op
    -- the right operand counts only if the left one does not decide
    case and =>
      refine .left rfl (fun _ => rfl) (.right rfl (fun _ => rfl) (hl.bind (fun _ hq => hq) ?_))
      intro w' hle v v' hv
      rw [hv.truthy]
      cases v'.truthy with
      | true => exact hr.later hle
      | false => exact .pure fun _ hle' => hv.mono hle'.closure
    case or =>
      refine .left rfl (fun _ => rfl) (.right rfl (fun _ => rfl) (hl.bind (fun _ hq => hq) ?_))
      intro w' hle v v' hv
      rw [hv.truthy]
      cases v'.truthy with
      | true => exact .pure fun _ hle' => hv.mono hle'.closure
      | false => exact hr.later hle
    all_goals
      refine .left rfl (fun _ => rfl) (.right rfl (fun _ => rfl) (hl.bind (fun _ hq => hq) ?_))
      intro w' hle v v' hv
      exact (hr.later hle).bind (fun _ hq => hq) fun _ hle' _ _ hu =>
        binary_sim _ (hv.mono hle'.closure) hu
  | .call _ g args, w, r, sc, f, env, x, hsrc, hres, hin, hs, hlt, h => by
    obtain ⟨g', args', hg, hargs, rfl⟩ := h
    refine .left rfl (fun _ => rfl) (.right rfl (fun _ => rfl) ?_)
    refine (expr_sim hp hc hsrc.1 hres.1
      (fun y hy => hin y (List.mem_cons_of_mem _ (List.mem_append_left _ hy))) hs hlt hg).bind
      (fun _ hq => hq) fun w' hle _ _ hv => ?_
    exact ((exprs_sim hp hc hsrc.2 hres.2
      (fun y hy => hin y (List.mem_cons_of_mem _ (List.mem_append_right _ hy))) hs hlt hargs).later
      hle).bind (fun _ hq => hq) fun _ hle' _ _ ha => call_sim hc (hv.mono hle'.closure) ha
  | .array _ es, w, r, sc, f, env, x, hsrc, hres, hin, hs, hlt, h => by
    obtain ⟨es', hes, rfl⟩ := h
    refine .left rfl (fun _ => rfl) (.right rfl (fun _ => rfl) ?_)
    exact (exprs_sim hp hc hsrc hres (fun y hy => hin y (List.mem_cons_of_mem _ hy)) hs hlt
      hes).bind (fun _ hq => hq) fun _ _ _ _ hv => array_sim hv
  | .index _ b j, w, r, sc, f, env, x, hsrc, hres, hin, hs, hlt, h => by
    obtain ⟨b', j', hb, hj, rfl⟩ := h
    refine .left rfl (fun _ => rfl) (.right rfl (fun _ => rfl) ?_)
    refine (expr_sim hp hc hsrc.1 hres.1
      (fun y hy => hin y (List.mem_cons_of_mem _ (List.mem_append_left _ hy))) hs hlt hb).bind
      (fun _ hq => hq) fun w' hle _ _ hv => ?_
    exact ((expr_sim hp hc hsrc.2 hres.2
      (fun y hy => hin y (List.mem_cons_of_mem _ (List.mem_append_right _ hy))) hs hlt hj).later
      hle).bind (fun _ hq => hq) fun _ hle' _ _ hu => element_sim (hv.mono hle'.closure) hu
  | .function m ps (.mk b ss), w, r, sc, f, env, x, hsrc, hres, hin, hs, hlt, h => by
    obtain ⟨hoisted, out, roles, hss, hhosts, rfl⟩ := h
    refine .left rfl (fun _ => rfl) (.right rfl (fun _ => rfl) ?_)
    refine .now fun w' s m' hle hm => ?_
    obtain ⟨w₁, hle₁, hclosure, hm₁⟩ := hm.close (represents_function hp hsrc hres hin
      (hs.mono hle) (Nat.lt_of_lt_of_le hlt hle.frames) hss hhosts.toHosts)
    exact ⟨.ok (.closure _), _, rfl, .inr ⟨.ok (.closure _), _, rfl, w₁, hle₁, hm₁,
      .closure hclosure⟩⟩
  | .signal .., _, _, _, _, _, _, _, _, _, _, _, h
  | .signalIs .., _, _, _, _, _, _, _, _, _, _, _, h
  | .signalValue .., _, _, _, _, _, _, _, _, _, _, _, h
  | .unknown .., _, _, _, _, _, _, _, _, _, _, _, h => by simp only [LoweringPlan.LowersExpr] at h

theorem exprs_sim (hp : p.Sound fn globals) (hc : Calls i) : ∀ {es : List (Expr Mark)} {w : World}
    {r : Region} {sc : ScopeId} {f : FrameId} {env : Env} {xs : List (Expr Span)},
    Expr.AreSource es → p.analysis.scoping.ResolvedExprs globals sc es →
    (∀ y ∈ Expr.nodesOfList es, p.Within fn r sc y) → w.Stands p r sc f env → f < w.frames →
    p.LowersExprs r es xs → lowering.Sim i w YieldsAll (fun n => Eval.exprs n xs f)
      (fun k => exprs k p.analysis.scoping es env)
  | [], w, r, sc, f, env, xs, _, _, _, _, _, h => by
    rw [LoweringPlan.LowersExprs] at h
    rw [h]
    exact .left rfl (fun _ => rfl) (.right rfl (fun _ => rfl) (.pure fun _ _ => .nil))
  | e :: es, w, r, sc, f, env, xs, hsrc, hres, hin, hs, hlt, h => by
    obtain ⟨e', es', he, hes, rfl⟩ := h
    refine .left rfl (fun _ => rfl) (.right rfl (fun _ => rfl) ?_)
    refine (expr_sim hp hc hsrc.1 hres.1 (fun y hy => hin y (List.mem_append_left _ hy)) hs hlt
      he).bind (fun _ hq => hq) fun w' hle _ _ hv => ?_
    exact ((exprs_sim hp hc hsrc.2 hres.2 (fun y hy => hin y (List.mem_append_right _ hy)) hs hlt
      hes).later hle).bind (fun _ hq => hq) fun _ hle' _ _ hvs => .pure fun _ hle'' =>
        .cons (hv.mono (hle'.trans hle'').closure) (hvs.mono hle''.closure)

end

end World

end Regional

end FlatScope
