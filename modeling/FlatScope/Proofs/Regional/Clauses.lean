import FlatScope.Proofs.Regional.Expressions
import FlatScope.Proofs.Regional.Loops

/-!
# Declarations, assignments and the headers of loops

A declaration, an assignment or an expression becomes one statement that does the same, or none if
there is nothing to do (`World.simple_sim`). So the clauses in the header of a loop do what those of
the machine do, and the loop runs as that of the machine if its body does (`World.loop_sim`).
-/

namespace FlatScope

open Process

/-- A declaration declares a variable of the function if it is a `var`. -/
theorem Scoping.Declares.binding {a : Scoping} {fs sc : ScopeId} {node : NodeId} {n : Name}
    {k : DeclKind} (h : a.Declares fs sc node n k) : ∃ b, a.declared? node = some b ∧
      a.lookup? sc n = some b ∧ b.origin.isFunctionScoped = !k.isBlockScoped := by
  obtain ⟨b, hb, hl, hk⟩ := h
  refine ⟨b, hb, hl, ?_⟩
  split at hk
  · rename_i hblock
    rw [Origin.not_functionScoped hk.2 hblock, hblock]
    rfl
  · rename_i hblock
    rw [hk.2, Bool.eq_false_iff.2 hblock]
    rfl

/-! ## The nodes of a header -/

section Clauses

variable {m : Mark} {i : Option (Stmt Mark)} {c : Option (Expr Mark)} {u : Option (Stmt Mark)}
  {s : Stmt Mark} {e : Expr Mark} {y : Node Mark}

theorem Header.mem_nodes_init (h : y ∈ s.nodes) : y ∈ (Header.counting m (some s) c u).nodes := by
  rw [Header.nodes_counting]
  exact List.mem_cons_of_mem _ (List.mem_append_left _ h)

theorem Header.mem_nodes_condition (h : y ∈ e.nodes) :
    y ∈ (Header.counting m i (some e) u).nodes := by
  rw [Header.nodes_counting]
  exact List.mem_cons_of_mem _ (List.mem_append_right _ (List.mem_append_left _ h))

theorem Header.mem_nodes_update (h : y ∈ s.nodes) : y ∈ (Header.counting m i c (some s)).nodes := by
  rw [Header.nodes_counting]
  exact List.mem_cons_of_mem _ (List.mem_append_right _ (List.mem_append_right _ h))

end Clauses

namespace Regional

namespace World

variable {w : World} {p : LoweringPlan} {fn : FunctionDef Mark} {globals : List Name} {i : Nat}
  {r : Region} {fs sc : ScopeId} {f : FrameId} {env : Env} {may : Exit → Prop} {inLoop : Bool}

/-- Lowered statements for a single statement that is not left early: one, or none for one that has
    nothing to do. -/
inductive Simple (i : Nat) (w : World) (f : FrameId) (out : List (Stmt Span))
    (y : Nat → Run Unit) : Prop
  | nothing (h : out = []) (hy : ∀ m, Ends y m () m)
  | one {x : Stmt Span} (h : out = [x]) (hx : lowering.Sim i w Does (fun n => Eval.stmt n x f) y)

theorem does_runs {x : Nat → FlatScope.Run Unit} {y : Nat → Run Unit}
    (h : lowering.Sim i w Does x y) : lowering.Sim i w (Runs r may) x y :=
  h.imp fun _ _ q q' hq => by
    cases q with
    | ok => cases q' with
      | ok => trivial
      | error => exact hq
    | error => cases q' with
      | ok => exact hq
      | error => exact Fails.leaves hq

/-- The statements run as the one that they are made of. -/
theorem Simple.stmts_sim {out : List (Stmt Span)} {y : Nat → Run Unit} (h : Simple i w f out y) :
    lowering.Sim i w (Runs r may) (fun n => Eval.stmts n out f) y := by
  refine .leads fun w' s m hle hm => ?_
  cases h with
  | nothing h hy =>
    subst h
    exact ⟨w', s, m, _, _, .refl w', hm, Eval.stmts_nil .., hy m, .pure fun _ _ => trivial⟩
  | one h hx =>
    subst h
    exact ⟨w', s, m, _, _, .refl w', hm, Eval.stmts_singleton .., .refl ..,
      (does_runs hx).later hle⟩

/-- The clause of a header runs as the one that it is made of. -/
theorem Simple.update_sim {o : Option (Stmt Span)} {a : Scoping} {s : Stmt Mark} {pl : Place}
    (h : Simple i w f o.toList fun k => stmt k a s pl env) :
    lowering.Sim i w (Runs r may) (fun n => Eval.update n o f)
      (fun k => update k a (some s) pl env) := by
  refine .right rfl (fun _ => rfl) ?_
  cases o with
  | none =>
    refine .leads fun w' s m hle hm => ?_
    cases h with
    | nothing h hy =>
      exact ⟨w', s, m, _, _, .refl w', hm, .step (y := fun _ => pure ()) rfl fun _ => rfl, hy m,
        .pure fun _ _ => trivial⟩
    | one h hx => cases h
  | some x =>
    refine .left rfl (fun _ => rfl) ?_
    cases h with
    | nothing h hy => cases h
    | one h hx =>
      cases h
      exact does_runs hx

/-- What is done first in a loop runs as the clause that it is made of. -/
theorem Simple.init_sim {x : Stmt Span} {y : Nat → Run Unit} (h : Simple i w f [x] y) :
    lowering.Sim i w Does (fun n => Eval.stmt n x f) y := by
  cases h with
  | nothing h => cases h
  | one h hx =>
    cases h
    exact hx

/-- A declaration with its value. -/
theorem declaration_sim (hp : p.Sound fn globals) (hc : Calls i) {m : Mark} {n : Name}
    {k : DeclKind} {e : Expr Mark} (hsrc : e.IsSource)
    (hres : p.analysis.scoping.Declares fs sc m.id n k ∧
    p.analysis.scoping.ResolvedExpr globals sc e)
    (hin : ∀ y ∈ (Stmt.declaration m n k (some e)).nodes, p.Within fn r sc y)
    (hs : w.Stands p r sc f env) (hlt : f < w.frames) {out : List (Stmt Span)} {roles : Roles}
    (h : p.LowersStmt r sc (.declaration m n k (some e)) out roles) (pl : Place) :
    Simple i w f out fun j => stmt j p.analysis.scoping (.declaration m n k (some e)) pl env := by
  obtain ⟨b, e', hb, he, h⟩ := h
  obtain ⟨d, hd, hlook, -⟩ := hres.1.binding
  obtain rfl := Option.some.inj (hb.symm.trans hd)
  have hvalue := expr_sim hp hc hsrc hres.2 (fun y hy => hin y (List.mem_cons_of_mem _ hy))
    hs hlt he
  have hstep (j : Nat) : stmt (j + 1) p.analysis.scoping (.declaration m n k (some e)) pl env =
      expr j p.analysis.scoping e env >>= fun v => declare p.analysis.scoping m.id v env := by
    cases k <;> rfl
  have hvar : Simple i w f [.declaration m.span (p.nameOf r b.id) .var (some e')] fun j =>
      stmt j p.analysis.scoping (.declaration m n k (some e)) pl env :=
    .one rfl (.left rfl (fun _ => rfl) (.right rfl hstep (hvalue.bind (fun _ hq => hq)
      fun w' hle _ _ hv => declare_sim (hs.mono hle) hb hlook hv)))
  rw [LoweringPlan.LowersDeclaration] at h
  split at h
  · rw [h.1]
    exact hvar
  · split at h
    · rw [h.1]
      -- the target of an assignment takes a step of its own
      exact .one rfl (.left rfl (fun _ => rfl) (.right rfl hstep (hvalue.bind (fun _ hq => hq)
        fun w' hle _ _ hv => .left rfl (fun _ => rfl) (declare_sim (hs.mono hle) hb hlook hv))))
    · rw [h.1]
      exact hvar

/-- A declaration without a value: a variable of the function is undefined from the beginning, and
    any other one is undefined now. -/
theorem declaration_none_sim {m : Mark} {n : Name} {k : DeclKind}
    (hres : p.analysis.scoping.Declares fs sc m.id n k) (hs : w.Stands p r sc f env)
    {out : List (Stmt Span)} {roles : Roles}
    (h : p.LowersStmt r sc (.declaration m n k none) out roles) (pl : Place) :
    Simple i w f out fun j => stmt j p.analysis.scoping (.declaration m n k none) pl env := by
  obtain ⟨b, hb, h⟩ := h
  obtain ⟨d, hd, hlook, hkind⟩ := hres.binding
  obtain rfl := Option.some.inj (hb.symm.trans hd)
  rw [LoweringPlan.LowersDeclaration, hkind] at h
  cases k with
  | letVar | const =>
    rw [if_pos (by decide)] at h
    rw [h.1]
    refine .one rfl (.left rfl (fun _ => rfl) (.right rfl (fun _ => rfl) ?_))
    refine .leads fun w' s t hle ht => ⟨w', s, t, fun _ => Eval.setVariable f (p.nameOf r b.id)
      .undefined, _, .refl w', ht, ?_, .refl .., declare_sim (hs.mono hle) hb hlook (.plain rfl)⟩
    exact Ends.bind (.step rfl fun _ => rfl)
  | var =>
    have hnothing (t : Machine) : Ends (fun j => stmt j p.analysis.scoping
        (.declaration m n .var none) pl env) t () t := .step rfl fun _ => rfl
    rw [if_neg (by decide)] at h
    split at h
    · exact .nothing h.1 hnothing
    · rw [h.1]
      exact .one rfl (.left rfl (fun _ => rfl)
        (.right rfl (fun _ => rfl) (.pure fun _ _ => trivial)))

/-- An assignment. -/
theorem assignment_sim (hp : p.Sound fn globals) (hc : Calls i) {m : Mark} {t e : Expr Mark}
    (hsrc : (Stmt.assignment m t e).IsSource)
    (hres : p.analysis.scoping.ResolvedStmt globals fs sc inLoop (.assignment m t e))
    (hin : ∀ y ∈ (Stmt.assignment m t e).nodes, p.Within fn r sc y)
    (hs : w.Stands p r sc f env) (hlt : f < w.frames) {out : List (Stmt Span)} {roles : Roles}
    (h : p.LowersStmt r sc (.assignment m t e) out roles) (pl : Place) :
    Simple i w f out fun j => stmt j p.analysis.scoping (.assignment m t e) pl env := by
  obtain ⟨t', e', ht, he, rfl, -⟩ := h
  have hvalue (hres : p.analysis.scoping.ResolvedExpr globals sc e) := expr_sim hp hc hsrc.2 hres
    (fun y hy => hin y (List.mem_cons_of_mem _ (List.mem_append_right _ hy))) hs hlt he
  refine .one rfl (.left rfl (fun _ => rfl) (.right rfl (fun _ => rfl) ?_))
  cases t with
  | name k n =>
    rw [LoweringPlan.LowersExpr] at ht
    rw [ht]
    exact (hvalue hres.2).bind (fun _ hq => hq) fun w' hle _ _ hv =>
      .left rfl (fun _ => rfl) (.right rfl (fun _ => rfl) (assignName_sim (hs.mono hle) hres.1 hv))
  | index k b j =>
    obtain ⟨b', j', hb, hj, rfl⟩ := ht
    have hbase := expr_sim hp hc hsrc.1.1 hres.1 (fun y hy => hin y (List.mem_cons_of_mem _
      (List.mem_append_left _ (List.mem_cons_of_mem _ (List.mem_append_left _ hy))))) hs hlt hb
    have hposition := expr_sim hp hc hsrc.1.2 hres.2.1 (fun y hy => hin y (List.mem_cons_of_mem _
      (List.mem_append_left _ (List.mem_cons_of_mem _ (List.mem_append_right _ hy))))) hs hlt hj
    refine (hvalue hres.2.2).bind (fun _ hq => hq) fun w₁ hle₁ _ _ hv => ?_
    refine .left rfl (fun _ => rfl) (.right rfl (fun _ => rfl) ?_)
    refine (hbase.later hle₁).bind (fun _ hq => hq) fun w₂ hle₂ _ _ hb => ?_
    refine (hposition.later (hle₁.trans hle₂)).bind (fun _ hq => hq) fun w₃ hle₃ _ _ hu => ?_
    exact setElement_sim (hb.mono hle₃.closure) hu (hv.mono (hle₂.trans hle₃).closure)
  | _ => exact (show False from hres).elim

/-- A statement that may stand in the header of a loop. -/
theorem simple_sim (hp : p.Sound fn globals) (hc : Calls i) {s : Stmt Mark} (hinit : s.isInit)
    (hsrc : s.IsSource) (hres : p.analysis.scoping.ResolvedStmt globals fs sc inLoop s)
    (hin : ∀ y ∈ s.nodes, p.Within fn r sc y) (hs : w.Stands p r sc f env) (hlt : f < w.frames)
    {out : List (Stmt Span)} {roles : Roles} (h : p.LowersStmt r sc s out roles) (pl : Place) :
    Simple i w f out fun j => stmt j p.analysis.scoping s pl env := by
  cases s with
  | declaration m n k e =>
    cases e with
    | none => exact declaration_none_sim hres.1 hs h pl
    | some e => exact declaration_sim hp hc hsrc hres hin hs hlt h pl
  | assignment m t e => exact assignment_sim hp hc hsrc hres hin hs hlt h pl
  | expression m e =>
    obtain ⟨e', he, rfl, -⟩ := h
    refine .one rfl (.left rfl (fun _ => rfl) (.right rfl (fun _ => rfl) ?_))
    exact (expr_sim hp hc hsrc hres (fun y hy => hin y (List.mem_cons_of_mem _ hy)) hs hlt he).bind
      (fun _ hq => hq) fun _ _ _ _ _ => .pure fun _ _ => trivial
  | _ => cases hinit

/-! ## Headers -/

/-- The variable of a loop over a sequence gets an element. -/
theorem startElement_sim (hs : w.Stands p r sc f env) {m : Mark} {n : Name} {k : Option DeclKind}
    (hname : k = none → p.analysis.scoping.Refers globals sc m.id n true)
    (hdecl : ∀ k', k = some k' → p.analysis.scoping.Declares fs sc m.id n k') {n' : Name}
    {k' : Option DeclKind} {roles : Roles} (h : p.LowersElement r m n k n' k' roles) {v v' : Value}
    (hv : v.Like w.closure v') : lowering.Sim i w (fun _ => Both (fun g _ => g = f) Fails)
      (fun _ => Eval.elementFrame n' k' v f)
      (fun _ => startElement p.analysis.scoping m.id n k v' env) := by
  have hframe {y : Run Unit} (hk : k' = none ∨ k' = some .var)
      (hy : lowering.Sim i w Does (fun _ => Eval.setVariable f n' v) fun _ => y) :
      lowering.Sim i w (fun _ => Both (fun g _ => g = f) Fails)
        (fun _ => Eval.elementFrame n' k' v f) fun _ => y := by
    have hx : Eval.elementFrame n' k' v f = Eval.setVariable f n' v >>= fun _ => pure f := by
      rcases hk with rfl | rfl <;> rfl
    rw [hx, ← bind_pure' y]
    exact hy.bind (fun _ hq => hq) fun _ _ _ _ _ => .pure fun _ _ => rfl
  cases k with
  | none =>
    obtain ⟨rfl, hk, -⟩ := h
    exact hframe (.inl hk) (assignName_sim hs (hname rfl) hv)
  | some k =>
    obtain ⟨b, hb, rfl, hk⟩ := h
    obtain ⟨d, hd, hlook, -⟩ := (hdecl k rfl).binding
    obtain rfl := Option.some.inj (hb.symm.trans hd)
    refine hframe ?_ (declare_sim hs hb hlook hv)
    split at hk
    · exact .inl hk.1
    · exact .inr hk.1

/-- A loop runs as that of the machine if its body does. Its header may have drivers, which the
    region `q` knows of. -/
theorem loop_sim (hp : p.Sound fn globals) (hc : Calls i) {l : Loop} {q : Region} {inner : ScopeId}
    (hinner : inner = l.header.scopeIn l.mark.id sc) (hsrc : l.header.IsSource)
    (hres : p.analysis.scoping.ResolvedHeader globals fs sc l.mark.id l.header)
    (hin : ∀ y ∈ l.header.nodes, p.Within fn q sc y ∧ p.Within fn q inner y)
    (hs : w.Stands p q sc f env) {pl : Place}
    (hs' : w.Stands p q inner f (l.headerEnv p.analysis.scoping pl env)) (hlt : f < w.frames)
    {h' : Header Span} {roles : Roles} (h : p.LowersHeader q inner l.header h' roles)
    {b' : Block Span} (hb : lowering.Sim i w (GoesOn r may)
      (fun n => Eval.goesOn (Eval.block n b' f))
      (fun k => Eval.goesOn (body k p.analysis.scoping l pl env))) :
    lowering.Sim i w (Runs r may) (fun n => Eval.loop n h' b' f)
      (fun k => loop k p.analysis.scoping l pl env) := by
  obtain ⟨m, hd, b⟩ := l
  dsimp only at hinner hsrc hres hin h
  have hflat := (LoweringPlan.LowersHeader.flat hsrc h).1
  cases hd with
  | whileTrue k c =>
    obtain ⟨c', hcond, rfl, -⟩ := h
    obtain rfl : inner = sc := hinner
    refine .left rfl (fun _ => rfl) (.right rfl (fun _ => rfl) (whileLoop_sim ?_ hb))
    exact expr_sim hp hc hsrc hres (fun y hy => (hin y (List.mem_cons_of_mem _ hy)).2) hs' hlt hcond
  | counting k o c u =>
    obtain ⟨hsi, hsc, hsu⟩ := Header.shaped_counting.1 hsrc
    obtain ⟨hri, hrc, hru⟩ := Scoping.resolvedHeader_counting.1 hres
    obtain ⟨o', c', u', ρi, ρu, hi, hcond, hu, rfl, -⟩ := LoweringPlan.lowersHeader_counting.1 h
    rw [← hinner] at hri hrc hru
    -- what comes after the first clause is the same whether there is one or not
    have hclauses {w'} (hle : w.Le w') : lowering.Sim i w' (Runs r may)
        (fun n => Eval.countingLoop n false c' u' b' f)
        (fun n => rounds n p.analysis.scoping c u ⟨m, .counting k o c u, b⟩ pl env) := by
      refine .later (countingLoop_sim ?_ hb ?_) hle
      · cases c with
        | none =>
          rw [hcond.1 rfl]
          exact .left rfl (fun _ => rfl) (.right rfl (fun _ => rfl) (.pure fun _ _ => rfl))
        | some e =>
          obtain ⟨e', he, rfl⟩ := hcond.2 e rfl
          exact .left rfl (fun _ => rfl) (condition_sim (expr_sim hp hc (hsc e rfl) (hrc e rfl)
            (fun y hy => (hin y (Header.mem_nodes_condition hy)).2) hs' hlt he))
      · cases u with
        | none =>
          rw [(hu.1 rfl).1]
          exact .left rfl (fun _ => rfl) (.right rfl (fun _ => rfl) (.pure fun _ _ => trivial))
        | some s => exact (simple_sim hp hc (Resolve.isInit_of_isUpdate (hsu s rfl).1) (hsu s rfl).2
            (hru s rfl) (fun y hy => (hin y (Header.mem_nodes_update hy)).2) hs' hlt (hu.2 s rfl)
            pl).update_sim
    cases o with
    | none =>
      obtain rfl := (hi.1 rfl).1
      exact .left rfl (fun _ => rfl) (.right rfl (fun _ => rfl) (hclauses (.refl w)))
    | some s =>
      have hinit := simple_sim hp hc (hsi s rfl).1 (hsi s rfl).2 (hri s rfl)
        (fun y hy => (hin y (Header.mem_nodes_init hy)).2) hs' hlt (hi.2 s rfl) pl
      cases o' with
      | none =>
        cases hinit with
        | nothing _ hy =>
          refine .left rfl (fun _ => rfl) (.right rfl (fun _ => rfl) (.leads
            fun w' t m' hle ht => ⟨w', t, m', _, _, .refl w', ht, .refl .., (hy m').bind,
              hclauses hle⟩))
        | one hx => cases hx
      | some x =>
        have hfirst (n : Nat) : Eval.loop (n + 1) (.counting k.span (some x) c' u') b' f =
            Eval.stmt n x f >>= fun _ => Eval.countingLoop n false c' u' b' f := by
          rw [Eval.loop_counting, Eval.copied?_flat ((Header.isFlat_counting.1 hflat).1 x rfl).2]
        exact .left rfl hfirst (.right rfl (fun _ => rfl) (hinit.init_sim.bind
          (fun _ hq => hq.leaves) fun w' hle _ _ _ => hclauses hle))
  | forOf k n d e =>
    obtain ⟨e', n', d', he, hel, rfl⟩ := h
    have hname : d = none → p.analysis.scoping.Refers globals inner k.id n true := by
      rintro rfl
      obtain rfl : inner = sc := hinner
      exact hres.2
    have hdecl : ∀ d', d = some d' → p.analysis.scoping.Declares fs inner k.id n d' := by
      rintro d' rfl
      cases d' with
      | var =>
        obtain rfl : inner = sc := hinner
        exact hres.2.1
      | letVar | const =>
        obtain rfl : inner = m.id := hinner
        exact hres.2
    refine .left rfl (fun _ => rfl) (.right rfl (fun _ => rfl) ?_)
    refine (expr_sim hp hc hsrc hres.1 (fun y hy => (hin y (List.mem_cons_of_mem _ hy)).1) hs hlt
      he).bind (fun _ hq => hq.leaves) fun w₁ hle₁ _ _ hv => ?_
    refine (sequence_sim hv).bind (fun _ hq => hq.leaves) ?_
    rintro w₂ hle₂ q _ rfl
    have hle₂ := hle₁.trans hle₂
    exact forOfLoop_sim (fun w₃ hle₃ v v' hv =>
      startElement_sim (hs'.mono (hle₂.trans hle₃)) hname hdecl hel hv) (hb.later hle₂)
  | unknown => exact hsrc.elim

end World

end Regional

end FlatScope
