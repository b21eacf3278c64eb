import FlatScope.Proofs.Residence.Blocks

/-!
# Declarations, assignments and the clauses of loops

The machine follows what may stand in the header of a loop (`Joint.simple_follows`): no part of that
is left early.
-/

namespace FlatScope

open Process

namespace Regional.Joint

variable {fn : FunctionDef Mark} {globals : List Name} {a : Analysis} {i : Nat} {j j₀ : Joint}
  {f g : FrameId} {fs sc : ScopeId} {env : Env} {pl : Place} {jumps inLoop : Bool} {m b k : Mark}
  {hd : Header Mark} {ss : List (Stmt Mark)}

/-! ## Statements that are not left -/

/-- A declaration. -/
theorem declaration_follows (hfn : fn.Settled globals a) (hc : Calls i) {n : Name} {d : DeclKind}
    {e : Option (Expr Mark)} (hsrc : (Stmt.declaration m n d e).IsSource)
    (hres : a.scoping.ResolvedStmt globals fs sc inLoop (.declaration m n d e))
    (hin : ∀ y ∈ (Stmt.declaration m n d e).nodes, y ∈ fn.nodes) (hj : j.Matches)
    (hs : j.Resides a.scoping sc f env (Stmt.declaration m n d e).nodes
      (Opened fs sc d.isBlockScoped)) :
    Follows i (fun n' => Eval.stmt n' ((Stmt.declaration m n d e).map Mark.span) f)
      (fun k => stmt k a.scoping (.declaration m n d e) pl env) j (Does j) := by
  have ha := hfn.analysed.consistent
  have ho : Opened fs sc d.isBlockScoped (if d.isBlockScoped then sc else fs) := by
    split
    · exact .inr ⟨‹_›, rfl⟩
    · exact .inl rfl
  cases e with
  | none =>
    obtain ⟨hdecl, -⟩ := hres
    have hdeclare := declare_follows (i := i) hj hs hdecl ho ha (v := .undefined) (.plain rfl)
    cases d with
    | var => exact .steps rfl (fun _ => rfl) (fun _ => rfl) (.pure (.ok hj (.refl hj) trivial))
    | letVar | const => exact .steps rfl (fun _ => rfl) (fun _ => rfl) hdeclare
  | some e =>
    obtain ⟨hdecl, hres⟩ := hres
    have hvalue := expr_follows hfn hc hsrc hres (fun y hy => hin y (List.mem_cons_of_mem _ hy)) hj
      (hs.on fun y hy => List.mem_cons_of_mem _ hy)
    have hdeclare {v : Value} {j' : Joint} (hj' : j'.Matches) (hle : j.Grows j') (hv : j'.Has v) :=
      declare_follows (i := i) hj' (hs.extends hle.toExtends) hdecl ho ha hv
    cases d <;> exact .steps rfl (fun _ => rfl) (fun _ => rfl)
      (hvalue.next (fun _ _ => id) fun _ _ hj' hle hv => hdeclare hj' hle hv)

/-- An assignment. -/
theorem assignment_follows (hfn : fn.Settled globals a) (hc : Calls i) {t e : Expr Mark}
    (hsrc : (Stmt.assignment m t e).IsSource)
    (hres : a.scoping.ResolvedStmt globals fs sc inLoop (.assignment m t e))
    (hin : ∀ y ∈ (Stmt.assignment m t e).nodes, y ∈ fn.nodes) (hj : j.Matches)
    {opened : ScopeId → Prop}
    (hs : j.Resides a.scoping sc f env (Stmt.assignment m t e).nodes opened) :
    Follows i (fun n => Eval.stmt n ((Stmt.assignment m t e).map Mark.span) f)
      (fun k => stmt k a.scoping (.assignment m t e) pl env) j (Does j) := by
  have ha := hfn.analysed.consistent
  have htarget : ∀ y ∈ t.nodes, y ∈ (Stmt.assignment m t e).nodes := fun y hy =>
    List.mem_cons_of_mem _ (List.mem_append_left _ hy)
  have hvalue (hres : a.scoping.ResolvedExpr globals sc e) := expr_follows hfn hc hsrc.2 hres
    (fun y hy => hin y (List.mem_cons_of_mem _ (List.mem_append_right _ hy))) hj
    (hs.on fun y hy => List.mem_cons_of_mem _ (List.mem_append_right _ hy))
  refine .steps rfl (fun _ => rfl) (fun _ => rfl) ?_
  cases t with
  | name k n =>
    refine (hvalue hres.2).next (fun _ _ => id) fun v j' hj' hle hv => ?_
    refine .steps rfl (fun _ => rfl) (fun _ => rfl) (assignName_follows hj'
      (hs.extends hle.toExtends) ha hfn.analysed.constants hres.1 (fun b hb => ?_) hv)
    exact ⟨_, List.mem_cons_self, k.id, rfl, hb⟩
  | index k c p =>
    have hbelow : ∀ y ∈ c.nodes ++ p.nodes, y ∈ (Stmt.assignment m (.index k c p) e).nodes :=
      fun y hy => htarget y (List.mem_cons_of_mem _ hy)
    refine (hvalue hres.2.2).next (fun _ _ => id) fun v j₁ hj₁ hle₁ hv => ?_
    refine .steps rfl (fun _ => rfl) (fun _ => rfl) ?_
    refine (expr_follows hfn hc hsrc.1.1 hres.1
      (fun y hy => hin y (hbelow y (List.mem_append_left _ hy))) hj₁
      ((hs.on fun y hy => hbelow y (List.mem_append_left _ hy)).extends hle₁.toExtends)).next
      (fun _ _ => id) fun u j₂ hj₂ hle₂ hu => ?_
    refine (expr_follows hfn hc hsrc.1.2 hres.2.1
      (fun y hy => hin y (hbelow y (List.mem_append_right _ hy))) hj₂
      ((hs.on fun y hy => hbelow y (List.mem_append_right _ hy)).extends
        (hle₁.trans hle₂).toExtends)).next
      (fun _ _ => id) fun w j₃ hj₃ hle₃ hw => ?_
    exact setElement_follows hj₃ ((hv.grows hle₂).grows hle₃)
  | _ => exact (show False from hres).elim

/-- A statement that may stand in the header of a loop. -/
theorem simple_follows (hfn : fn.Settled globals a) (hc : Calls i) {s : Stmt Mark}
    (hinit : s.isInit) (hsrc : s.IsSource)
    (hres : a.scoping.ResolvedStmt globals fs sc inLoop s) (hin : ∀ y ∈ s.nodes, y ∈ fn.nodes)
    (hj : j.Matches)
    (hs : j.Resides a.scoping sc f env s.nodes (Opened fs sc s.lexical?.isSome)) :
    Follows i (fun n => Eval.stmt n (s.map Mark.span) f) (fun k => stmt k a.scoping s pl env) j
      (Does j) := by
  cases s with
  | declaration m n d e =>
    refine declaration_follows hfn hc hsrc hres hin hj (hs.sub (fun _ => id) fun s ho => ?_)
    refine ho.imp_right (And.imp_left fun hd => ?_)
    rw [Stmt.lexical?, if_pos hd]
    rfl
  | assignment m t e => exact assignment_follows hfn hc hsrc hres hin hj hs
  | expression m e =>
    refine .steps rfl (fun _ => rfl) (fun _ => rfl) ?_
    exact (expr_follows hfn hc hsrc hres (fun y hy => hin y (List.mem_cons_of_mem _ hy)) hj
      (hs.on fun y hy => List.mem_cons_of_mem _ hy)).next (fun _ _ => id)
      fun _ _ hj' _ _ => .pure (.ok hj' (.refl hj') trivial)
  | _ => cases hinit

/-! ## Clauses of headers -/

/-- A condition. -/
theorem test_follows {x : Nat → FlatScope.Run Value} {y : Nat → Run Value}
    (h : Follows i x y j (Yields j)) :
    Follows i (fun n => do return (← x n).truthy) (fun k => do return (← y k).truthy) j
      (Ends j (fun _ _ => True) Fails) :=
  h.next (fun _ _ => id) fun _ _ hj' _ _ => .pure (.ok hj' (.refl hj') trivial)

/-- The condition of a loop that counts. -/
theorem condition_follows {c : Option (Expr Mark)} (hj : j.Matches)
    (h : ∀ e, c = some e → Follows i (fun n => Eval.expr n (e.map Mark.span) g)
      (fun k => expr k a.scoping e env) j (Yields j)) :
    Follows i (fun n => Eval.condition n (c.map (Expr.map Mark.span)) g)
      (fun k => condition k a.scoping c env) j (Ends j (fun _ _ => True) Fails) := by
  cases c with
  | none => exact .steps rfl (fun _ => rfl) (fun _ => rfl) (.pure (.ok hj (.refl hj) trivial))
  | some e => exact .steps rfl (fun _ => rfl) (fun _ => rfl) (test_follows (h e rfl))

/-- The update of a loop that counts. -/
theorem update_follows {u : Option (Stmt Mark)} (hj : j.Matches)
    (h : ∀ s, u = some s → Follows i (fun n => Eval.stmt n (s.map Mark.span) g)
      (fun k => stmt k a.scoping s pl env) j (Does j)) :
    Follows i (fun n => Eval.update n (u.map (Stmt.map Mark.span)) g)
      (fun k => update k a.scoping u pl env) j (Does j) := by
  cases u with
  | none => exact .steps rfl (fun _ => rfl) (fun _ => rfl) (.pure (.ok hj (.refl hj) trivial))
  | some s => exact .steps rfl (fun _ => rfl) (fun _ => rfl) (h s rfl)

end Regional.Joint

end FlatScope
