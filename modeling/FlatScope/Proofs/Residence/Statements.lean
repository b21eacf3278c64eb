import FlatScope.Proofs.Residence.Iterations

/-!
# Statements of both programs

The machine follows the statements of a settled function, wherever the names in these mean variables
that reside where the environment says (`Joint.stmts_follows`). A block or loop without a wrapper
runs in the activation around it, and a wrapper in one of its own, so both meet the same invariant
again.
-/

namespace FlatScope

open Process

namespace Regional.Joint

variable {fn : FunctionDef Mark} {globals : List Name} {a : Analysis} {i : Nat}

mutual

/-- The machine follows the statements of a scope, one after the other. -/
theorem stmts_follows (hfn : fn.Settled globals a) (hc : Calls i) : ∀ {ss : List (Stmt Mark)}
    {fs sc : ScopeId} {inLoop : Bool}, Stmt.AreSource ss →
    a.scoping.ResolvedStmts globals fs sc inLoop ss →
    (∀ y ∈ Stmt.nodesOfList ss, y ∈ fn.nodes ∧ fs < y.mark.id) →
    Followed i a.scoping fs sc (ss.filterMap Stmt.lexical? ≠ []) inLoop (Stmt.nodesOfList ss)
      (fun f n => Eval.stmts n (Stmt.mapList Mark.span ss) f)
      fun pl env k => stmts k a.scoping ss pl env
  | [], _, _, _, _, _, _ => fun _ _ _ _ hj _ _ =>
    .steps rfl (fun _ => rfl) (fun _ => rfl) (.pure (.ok hj (.refl hj) trivial))
  | s :: ss, fs, sc, inLoop, hsrc, hres, hin => by
    intro j f env pl hj hs hst
    have hl : ∀ y ∈ s.nodes, y ∈ Stmt.nodesOfList (s :: ss) := fun y hy =>
      List.mem_append_left _ hy
    have hr : ∀ y ∈ Stmt.nodesOfList ss, y ∈ Stmt.nodesOfList (s :: ss) := fun y hy =>
      List.mem_append_right _ hy
    refine .steps rfl (fun _ => rfl) (fun _ => rfl) ((stmt_follows hfn hc hsrc.1 hres.1
      (fun y hy => hin y (hl y hy)) hj (hs.sub hl fun q hq => ?_) (hst.sub hl)).next
      (fun _ _ => id) fun _ j' hj' hle _ => ?_)
    · refine hq.imp_right (And.imp_left fun hsome => ?_)
      obtain ⟨x, hx⟩ := Option.isSome_iff_exists.1 hsome
      exact List.ne_nil_of_mem (List.mem_filterMap.2 ⟨s, List.mem_cons_self, hx⟩)
    · refine stmts_follows hfn hc hsrc.2 hres.2 (fun y hy => hin y (hr y hy)) hj'
        ((hs.sub hr fun q hq => ?_).extends hle.toExtends) ((hst.grows hle).sub hr)
      refine hq.imp_right (And.imp_left fun hne => ?_)
      obtain ⟨x, hx⟩ := List.exists_mem_of_ne_nil _ hne
      obtain ⟨s', hs', hx⟩ := List.mem_filterMap.1 hx
      exact List.ne_nil_of_mem (List.mem_filterMap.2 ⟨s', List.mem_cons_of_mem _ hs', hx⟩)

/-- The machine follows a block that is not the body of a loop. -/
theorem blocks_follow (hfn : fn.Settled globals a) (hc : Calls i) : ∀ {b : Block Mark}
    {fs sc : ScopeId} {inLoop : Bool} {j : Joint} {f : FrameId} {env : Env} {pl : Place},
    b.IsSource → a.scoping.NoLoopBody b → a.scoping.ResolvedBlock globals fs sc inLoop b →
    (∀ y ∈ b.nodes, y ∈ fn.nodes ∧ fs < y.mark.id) → j.Matches →
    j.Resides a.scoping sc f env b.nodes (· = fs) → j.Stays a.scoping pl b.nodes →
    Follows i (fun n => Eval.block n (b.map Mark.span) f) (fun k => block k a.scoping b pl env) j
      (Runs j pl inLoop)
  | .mk _ _, _, _, _, _, _, _, _, hsrc, hno, hres, hin, hj, hs, hst =>
    innerBlock_follows hfn hno hres.1 (fun y hy => (hin y hy).1)
      (stmts_follows hfn hc hsrc hres.2 fun y hy => hin y (List.mem_cons_of_mem _ hy)) hj hs hst

/-- The machine follows a statement. -/
theorem stmt_follows (hfn : fn.Settled globals a) (hc : Calls i) : ∀ {s : Stmt Mark}
    {fs sc : ScopeId} {inLoop : Bool}, s.IsSource →
    a.scoping.ResolvedStmt globals fs sc inLoop s →
    (∀ y ∈ s.nodes, y ∈ fn.nodes ∧ fs < y.mark.id) →
    Followed i a.scoping fs sc s.lexical?.isSome inLoop s.nodes
      (fun f n => Eval.stmt n (s.map Mark.span) f) fun pl env k => stmt k a.scoping s pl env
  | .declaration .., _, _, _, hsrc, hres, hin
  | .assignment .., _, _, _, hsrc, hres, hin
  | .expression .., _, _, _, hsrc, hres, hin => fun _ _ _ _ hj hs _ =>
    (simple_follows hfn hc rfl hsrc hres (fun y hy => (hin y hy).1) hj hs).imp
      fun _ _ hr => hr.imp (fun _ => id) fun _ => Fails.leaving
  | .block b, fs, sc, inLoop, hsrc, hres, hin => by
    intro j f env pl hj hs hst
    exact .steps rfl (fun _ => rfl) (fun _ => rfl) (blocks_follow hfn hc hsrc hres.1 hres.2 hin hj
      (hs.sub (fun _ => id) fun _ => .inl) hst)
  | .branch m c t none, fs, sc, inLoop, hsrc, hres, hin => by
    intro j f env pl hj hs hst
    have hcond : ∀ y ∈ c.nodes, y ∈ (Stmt.branch m c t none).nodes := fun y hy =>
      List.mem_cons_of_mem _ (List.mem_append_left _ hy)
    have hthen : ∀ y ∈ t.nodes, y ∈ (Stmt.branch m c t none).nodes := fun y hy =>
      List.mem_cons_of_mem _ (List.mem_append_right _ (List.mem_append_left _ hy))
    refine .steps rfl (fun _ => rfl) (fun _ => rfl) ((expr_follows hfn hc hsrc.1 hres.1
      (fun y hy => (hin y (hcond y hy)).1) hj (hs.on hcond)).next (fun _ _ => Fails.leaving)
      fun v j' hj' hle _ => ?_)
    cases v.truthy with
    | true =>
      exact blocks_follow hfn hc hsrc.2 hres.2.1 hres.2.2 (fun y hy => hin y (hthen y hy))
        hj' ((hs.sub hthen fun _ => .inl).extends hle.toExtends) ((hst.grows hle).sub hthen)
    | false => exact .pure (.ok hj' (.refl hj') trivial)
  | .branch m c t (some e), fs, sc, inLoop, hsrc, hres, hin => by
    intro j f env pl hj hs hst
    obtain ⟨hrc, hnt, hrt, hne, hre⟩ := hres
    have hcond : ∀ y ∈ c.nodes, y ∈ (Stmt.branch m c t (some e)).nodes := fun y hy =>
      List.mem_cons_of_mem _ (List.mem_append_left _ hy)
    have hthen : ∀ y ∈ t.nodes, y ∈ (Stmt.branch m c t (some e)).nodes := fun y hy =>
      List.mem_cons_of_mem _ (List.mem_append_right _ (List.mem_append_left _ hy))
    have helse : ∀ y ∈ e.nodes, y ∈ (Stmt.branch m c t (some e)).nodes := fun y hy =>
      List.mem_cons_of_mem _ (List.mem_append_right _ (List.mem_append_right _ hy))
    refine .steps rfl (fun _ => rfl) (fun _ => rfl) ((expr_follows hfn hc hsrc.1 hrc
      (fun y hy => (hin y (hcond y hy)).1) hj (hs.on hcond)).next (fun _ _ => Fails.leaving)
      fun v j' hj' hle _ => ?_)
    cases v.truthy with
    | true =>
      exact blocks_follow hfn hc hsrc.2.1 hnt hrt (fun y hy => hin y (hthen y hy))
        hj' ((hs.sub hthen fun _ => .inl).extends hle.toExtends) ((hst.grows hle).sub hthen)
    | false =>
      exact blocks_follow hfn hc hsrc.2.2 hne hre (fun y hy => hin y (helse y hy))
        hj' ((hs.sub helse fun _ => .inl).extends hle.toExtends) ((hst.grows hle).sub helse)
  | .loop m hd (.mk b ss), fs, sc, inLoop, hsrc, hres, hin => by
    intro j f env pl hj hs hst
    obtain ⟨hloop, ho, hrh, hob, hrb⟩ := hres
    have L : Looping i fn globals a fs sc m hd b ss := ⟨hfn, hsrc.1, hin, hloop, ho, hrh, hob,
      stmts_follows hfn hc hsrc.2 hrb fun y hy =>
        hin y (Looping.mem_body (List.mem_cons_of_mem _ hy))⟩
    exact .steps rfl (fun _ => rfl) (fun _ => rfl) (L.follows hc hj
      (hs.sub (fun _ => id) fun _ => .inl) hst)
  | .ret m none, _, _, _, _, _, _ => by
    intro j f env pl hj hs hst
    exact .steps rfl (fun _ => rfl) (fun _ => rfl) (leave_follows hj hst fun _ _ _ => .plain rfl)
  | .ret m (some e), fs, sc, inLoop, hsrc, hres, hin => by
    intro j f env pl hj hs hst
    have hbelow : ∀ y ∈ e.nodes, y ∈ (Stmt.ret m (some e)).nodes := fun y hy =>
      List.mem_cons_of_mem _ hy
    -- the wrapper writes back before the value is computed
    obtain ⟨hj', hle⟩ := hj.leaves hst.leaves
    have hvalue := expr_follows hfn hc hsrc hres (fun y hy => (hin y (hbelow y hy)).1) hj'
      ((hs.on hbelow).extends hle.toExtends)
    have hret : Follows i (fun n => Eval.expr n (e.map Mark.span) f >>= fun v =>
        .interrupt (.returned v)) (fun k => expr k a.scoping e env >>= fun v =>
        .interrupt (.returned v)) (j.goTo j.store (j.machine.copyAll pl.writeBacks))
        (Runs (j.goTo j.store (j.machine.copyAll pl.writeBacks)) pl inLoop) :=
      hvalue.next (fun _ _ => Fails.leaving) fun v j'' hj'' _ hv =>
        .interrupt (.error hj'' (.refl hj'') hv)
    refine .steps rfl (fun _ => rfl) (fun _ => rfl) (.right ?_ ?_ (hret.before hle))
    · exact .of_eq fun _ => rfl
    · rfl
  | .brk m, fs, sc, inLoop, _, hres, _ => by
    intro j f env pl hj hs hst
    exact .steps rfl (fun _ => rfl) (fun _ => rfl) (jump_follows hj hst fun _ _ => hres)
  | .cont m, fs, sc, inLoop, _, hres, _ => by
    intro j f env pl hj hs hst
    exact .steps rfl (fun _ => rfl) (fun _ => rfl) (jump_follows hj hst fun _ hcopied =>
      ⟨hres, hcopied⟩)
  | .unknown .., _, _, _, hsrc, _, _ => hsrc.elim

end

end Regional.Joint

end FlatScope
