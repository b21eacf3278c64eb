import FlatScope.Proofs.Residence.Opening

/-!
# Expressions in both programs

The machine yields for an expression what the program does, if the names in it mean variables that
reside where the environment says (`Joint.expr_follows`). Calls of closures are assumed to be
followed (`Joint.Calls`).
-/

namespace FlatScope

open Process

namespace Regional.Joint

variable {fn : FunctionDef Mark} {globals : List Name} {a : Analysis} {i : Nat}

/-- A value stays one. -/
theorem Has.grows {j j' : Joint} {v : Value} (h : j.Has v) (hj : j.Grows j') : j'.Has v :=
  Value.Like.mono h fun hc => closure_later hj.later hc

/-- A constant is no closure. -/
theorem has_literal (j : Joint) (l : Literal) : j.Has (literal l) := by
  cases l <;> exact .plain rfl

mutual

/-- The machine follows the expressions of a settled function. -/
theorem expr_follows (hfn : fn.Settled globals a) (hc : Calls i) : ∀ {e : Expr Mark} {j : Joint}
    {sc : ScopeId} {f : FrameId} {env : Env} {opened : ScopeId → Prop}, e.IsSource →
    a.scoping.ResolvedExpr globals sc e → (∀ y ∈ e.nodes, y ∈ fn.nodes) → j.Matches →
    j.Resides a.scoping sc f env e.nodes opened →
    Follows i (fun n => Eval.expr n (e.map Mark.span) f) (fun k => expr k a.scoping e env) j
      (Yields j)
  | .literal _ l, j, _, _, _, _, _, _, _, hj, _ =>
    .steps rfl (fun n => by cases l <;> rfl) (fun _ => rfl)
      (.pure (.ok hj (.refl hj) (j.has_literal l)))
  | .name m n, j, _, _, _, _, _, hres, _, hj, hs => by
    refine .steps rfl (fun _ => rfl) (fun _ => rfl)
      (read_follows hj hs hfn.analysed.consistent hres fun b hb => .inr ?_)
    exact ⟨m, n, List.mem_cons_self, hb⟩
  | .unary m op e, j, _, _, _, _, hsrc, hres, hin, hj, hs => by
    have hbelow : ∀ y ∈ e.nodes, y ∈ (Expr.unary m op e).nodes := fun y hy =>
      List.mem_cons_of_mem _ hy
    refine .steps rfl (fun _ => rfl) (fun _ => rfl) ?_
    exact (expr_follows hfn hc (e := e) hsrc hres (fun y hy => hin y (hbelow y hy)) hj
      (hs.on hbelow)).next (fun _ _ => id) fun _ _ hj' _ hv => unary_follows hj' op hv
  | .binary m op e g, j, sc, f, env, opened, hsrc, hres, hin, hj, hs => by
    have hbelow : ∀ y ∈ e.nodes ++ g.nodes, y ∈ (Expr.binary m op e g).nodes := fun y hy =>
      List.mem_cons_of_mem _ hy
    have hl := expr_follows hfn hc hsrc.1 hres.1
      (fun y hy => hin y (hbelow y (List.mem_append_left _ hy))) hj
      (hs.on fun y hy => hbelow y (List.mem_append_left _ hy))
    have hr {j' : Joint} (hj' : j'.Matches) (hle : j.Grows j') := expr_follows hfn hc hsrc.2 hres.2
      (fun y hy => hin y (hbelow y (List.mem_append_right _ hy))) hj'
      ((hs.on fun y hy => hbelow y (List.mem_append_right _ hy)).extends hle.toExtends)
    cases op
    -- the right operand counts only if the left one does not decide
    case and =>
      refine .steps rfl (fun _ => rfl) (fun _ => rfl)
        (hl.next (fun _ _ => id) fun v j' hj' hle hv => ?_)
      cases v.truthy with
      | true => exact hr hj' hle
      | false => exact .pure (.ok hj' (.refl hj') hv)
    case or =>
      refine .steps rfl (fun _ => rfl) (fun _ => rfl)
        (hl.next (fun _ _ => id) fun v j' hj' hle hv => ?_)
      cases v.truthy with
      | true => exact .pure (.ok hj' (.refl hj') hv)
      | false => exact hr hj' hle
    all_goals
      refine .steps rfl (fun _ => rfl) (fun _ => rfl)
        (hl.next (fun _ _ => id) fun v j' hj' hle hv => ?_)
      exact (hr hj' hle).next (fun _ _ => id) fun u j'' hj'' hle' hu =>
        binary_follows hj'' _ (hv.grows hle') hu
  | .call m g args, j, _, _, _, _, hsrc, hres, hin, hj, hs => by
    have hbelow : ∀ y ∈ g.nodes ++ Expr.nodesOfList args, y ∈ (Expr.call m g args).nodes :=
      fun y hy => List.mem_cons_of_mem _ hy
    refine .steps rfl (fun _ => rfl) (fun _ => rfl) ?_
    refine (expr_follows hfn hc hsrc.1 hres.1
      (fun y hy => hin y (hbelow y (List.mem_append_left _ hy))) hj
      (hs.on fun y hy => hbelow y (List.mem_append_left _ hy))).next (fun _ _ => id)
      fun v j₁ hj₁ hle hv => ?_
    exact (exprs_follows hfn hc hsrc.2 hres.2
      (fun y hy => hin y (hbelow y (List.mem_append_right _ hy))) hj₁
      ((hs.on fun y hy => hbelow y (List.mem_append_right _ hy)).extends hle.toExtends)).next
      (fun _ _ => id) fun vs j₂ hj₂ hle₂ hvs => call_follows hc hj₂ (hv.grows hle₂) hvs
  | .array m es, j, _, _, _, _, hsrc, hres, hin, hj, hs => by
    have hbelow : ∀ y ∈ Expr.nodesOfList es, y ∈ (Expr.array m es).nodes := fun y hy =>
      List.mem_cons_of_mem _ hy
    refine .steps rfl (fun _ => rfl) (fun _ => rfl) ?_
    exact (exprs_follows hfn hc hsrc hres (fun y hy => hin y (hbelow y hy)) hj
      (hs.on hbelow)).next (fun _ _ => id) fun _ _ hj' _ hvs => array_follows hj' hvs
  | .index m b p, j, _, _, _, _, hsrc, hres, hin, hj, hs => by
    have hbelow : ∀ y ∈ b.nodes ++ p.nodes, y ∈ (Expr.index m b p).nodes := fun y hy =>
      List.mem_cons_of_mem _ hy
    refine .steps rfl (fun _ => rfl) (fun _ => rfl) ?_
    refine (expr_follows hfn hc hsrc.1 hres.1
      (fun y hy => hin y (hbelow y (List.mem_append_left _ hy))) hj
      (hs.on fun y hy => hbelow y (List.mem_append_left _ hy))).next (fun _ _ => id)
      fun v j₁ hj₁ hle hv => ?_
    exact (expr_follows hfn hc hsrc.2 hres.2
      (fun y hy => hin y (hbelow y (List.mem_append_right _ hy))) hj₁
      ((hs.on fun y hy => hbelow y (List.mem_append_right _ hy)).extends hle.toExtends)).next
      (fun _ _ => id) fun u j₂ hj₂ hle₂ hu => element_follows hj₂ (hv.grows hle₂) hu
  | .function m ps (.mk k ss), j, _, _, _, _, hsrc, hres, hin, hj, hs => by
    refine .steps rfl (fun _ => rfl) (fun _ => rfl) (close_follows hj hs hfn hsrc hres.1 hres.2
      (fun y hy => ?_) fun _ => id)
    have hy' : y ∈ (Expr.function m ps (.mk k ss)).nodes.tail := List.mem_cons_of_mem _ hy
    exact ⟨hin y (List.mem_cons_of_mem _ hy'),
      hfn.analysed.lt_below (hin _ List.mem_cons_self) hy'⟩
  | .signal _ _ none, _, _, _, _, _, hsrc, _, _, _, _
  | .unknown .., _, _, _, _, _, hsrc, _, _, _, _ => hsrc.elim
  | .signal _ _ (some _), _, _, _, _, _, hsrc, _, _, _, _
  | .signalIs .., _, _, _, _, _, hsrc, _, _, _, _
  | .signalValue .., _, _, _, _, _, hsrc, _, _, _, _ => hsrc.1.elim

/-- The machine follows expressions from left to right. -/
theorem exprs_follows (hfn : fn.Settled globals a) (hc : Calls i) : ∀ {es : List (Expr Mark)}
    {j : Joint} {sc : ScopeId} {f : FrameId} {env : Env} {opened : ScopeId → Prop},
    Expr.AreSource es → a.scoping.ResolvedExprs globals sc es →
    (∀ y ∈ Expr.nodesOfList es, y ∈ fn.nodes) → j.Matches →
    j.Resides a.scoping sc f env (Expr.nodesOfList es) opened →
    Follows i (fun n => Eval.exprs n (Expr.mapList Mark.span es) f)
      (fun k => exprs k a.scoping es env) j (Ends j HasAll Fails)
  | [], j, _, _, _, _, _, _, _, hj, _ =>
    .steps rfl (fun _ => rfl) (fun _ => rfl) (.pure (.ok hj (.refl hj) .nil))
  | e :: es, j, _, _, _, _, hsrc, hres, hin, hj, hs => by
    have hl : ∀ y ∈ e.nodes, y ∈ Expr.nodesOfList (e :: es) := fun y hy =>
      List.mem_append_left _ hy
    have hr : ∀ y ∈ Expr.nodesOfList es, y ∈ Expr.nodesOfList (e :: es) := fun y hy =>
      List.mem_append_right _ hy
    refine .steps rfl (fun _ => rfl) (fun _ => rfl) ?_
    refine (expr_follows hfn hc hsrc.1 hres.1 (fun y hy => hin y (hl y hy)) hj
      (hs.on hl)).next (fun _ _ => id) fun v j₁ hj₁ hle hv => ?_
    refine (exprs_follows hfn hc hsrc.2 hres.2 (fun y hy => hin y (hr y hy)) hj₁
      ((hs.on hr).extends hle.toExtends)).next (fun _ _ => id)
      fun vs j₂ hj₂ hle₂ hvs => .pure (.ok hj₂ (.refl hj₂) (.cons (hv.grows hle₂) hvs))

end

end Regional.Joint

end FlatScope
