import FlatScope.Proofs.Regional.Statements

/-!
# Calls of lowered functions

A call of a lowered function does what the call of the function that it is made of does. As a call
takes a step, this follows for any number of steps from what statements do whose calls take fewer
(`World.calls`).
-/

namespace FlatScope

open Process

namespace Eval

/-- A call runs the statements of the function in a new frame. -/
theorem callClosure_frame {C : Closure} {vs : List Value} {fr : Frame}
    (h : callFrame C vs = .ok fr) (n : Nat) : callClosure (n + 1) C vs = fun s =>
      (stmts n C.body.statements s.frames.size).andThen yielded (s.newFrame fr).2 := by
  funext s
  rw [callClosure_succ h, andThen]
  generalize stmts n C.body.statements s.frames.size _ = o
  cases o with
  | interrupted w s => cases w <;> rfl
  | _ => rfl

/-- A call of flat code. -/
theorem callClosure_flat {C : Closure} (h : C.body.IsFlat) (vs : List Value) (n : Nat) :
    callClosure (n + 1) C vs = fun s => (stmts n C.body.statements s.frames.size).andThen yielded
      (s.newFrame (bindVars (bindParams ⟨some C.frame, []⟩ C.params vs) C.body.vars)).2 := by
  refine callClosure_frame ?_ n
  rw [callFrame, h.lexicals]
  rfl

/-- The declarations of `var`s do nothing. -/
theorem stmts_hoisted (p : LoweringPlan) (bs : List BindingId) (s : Store) (f : FrameId) :
    Ends (fun n => stmts n (p.hoistedDeclarations bs) f) s () s := by
  induction bs with
  | nil => exact stmts_nil s f
  | cons b bs ih => exact (stmts_of_ends (.step rfl fun _ => rfl) _).trans ih

end Eval

namespace Regional

/-- A call of a function. -/
theorem callClosure_succ (c : Closure) (args : List Value) (k : Nat) :
    callClosure (k + 1) c args = fun m =>
      (stmts k c.scoping c.code ⟨m.activations, false, []⟩
        (c.env.enter c.scoping c.scope m.activations)).andThen yielded
        (m.activate.setAll (arguments c.scoping c.scope m.activations c.params args)) := by
  funext m
  have hactivate (x : FrameId → Run Value) : (activate >>= x) m = x m.activations m.activate := rfl
  rw [callClosure, andThen]
  refine (hactivate _).trans ?_
  generalize stmts k c.scoping c.code _ _ _ = o
  cases o with
  | interrupted w m => cases w <;> rfl
  | _ => rfl

namespace World

variable {w : World} {i : Nat}

/-- What a function yields that is left by no other exit than a `return`. -/
theorem yielded_sim {r : Region} {q q' : Except Interrupt Unit}
    (h : Runs r.function (· = .ret) w q q') :
    lowering.Sim i w Yields (fun _ => yielded q) (fun _ => yielded q') := by
  cases q with
  | ok => cases q' with
    | ok => exact .pure fun _ _ => .plain rfl
    | error => exact h.elim
  | error => cases q' with
    | ok => exact h.elim
    | error => cases h with
      | failed e => exact .interrupt fun _ _ => .mk e
      | plain he _ hv =>
        cases he
        exact .pure fun _ hle => hv.mono hle.closure
      | signal he hs =>
        cases he
        cases hs

/-- Calls of closures that are the same do the same if those within fewer steps do. -/
theorem calls_of_fewer (hc : ∀ j, i = j + 1 → Calls j) : Calls i := by
  intro w C D args args' hCD ha
  obtain @⟨p, fn, globals, r, id, k, ps, ss, parent, out, hoisted, roles, g, env, span,
    name, hp, hsrc, hres, hin, hopens, hlow, hhosts, hknown, hglobal, hframe⟩ := hCD
  have hout := LoweringPlan.LowersStmts.flat hsrc hlow
  have hcode := (LoweringPlan.hoistedDeclarations_flat (p := p) hoisted).append hout
  have hflat : (Block.mk span (p.hoistedDeclarations hoisted ++ out)).IsFlat := hcode.flat
  refine .step rfl rfl (Eval.callClosure_flat (C := ⟨ps, _, g, name⟩) hflat args)
    (callClosure_succ ⟨p.analysis.scoping, id, ps, ss, env⟩ args') fun j hj => ?_
  refine .leads fun (w₁ : World) s m (hle : w.Le w₁) (hm : w₁.Matches s m) => ?_
  have hlt : g < w₁.frames := Nat.lt_of_lt_of_le hframe hle.frames
  have hpos : 0 < w₁.frames := Nat.lt_of_le_of_lt (Nat.zero_le g) hlt
  -- the parameters by their slots
  obtain ⟨qs, hqs⟩ : ∃ qs : List (Name × Slot), qs = ps.map fun n =>
    (n, .binding (((p.analysis.scoping.lookup? id n).map (·.id)).getD 0)) := ⟨_, rfl⟩
  have hparams : p.paramRoles id ps = qs.map fun q => (q.1, .holds q.2) := by
    rw [hqs, LoweringPlan.paramRoles, List.map_map]
    rfl
  have hnames : qs.map (·.1) = ps := by
    rw [hqs, List.map_map]
    exact List.map_id ps
  have hslots : arguments p.analysis.scoping id w₁.frames ps args' =
      slotValues w₁.frames (qs.map (·.2)) args' := by
    rw [arguments_eq, hqs, List.map_map]
    rfl
  rw [hparams, List.append_assoc] at hhosts
  have hm₂ := hm.enter hlt hhosts.distinct (hnames ▸ hopens.distinct) hcode.declares.mem_iff
    (ha.mono hle.closure)
  rw [hnames, ← hslots] at hm₂
  have hreturns : ∀ e, Stmt.mayExitList e false ss → e = .ret := by
    intro e he
    by_contra hne
    exact absurd (Stmt.inLoop_of_mayExitList hne ss hres he).1 (by decide)
  have hsim := stmts_sim hp (hc j hj) hsrc hres hin hreturns hlow
    (stands_function hp hhosts hpos (fun hd hs => (hknown hd hs).mono hle)
      fun hn hg => (hglobal hn hg).mono hle)
    (show Stays _ _ _ ⟨w₁.frames, false, []⟩ from
      ⟨rfl, hpos, Nat.lt_succ_self _, rfl, fun _ => rfl, .nil⟩)
    fun ρ hρ => ?_
  · have hleft (t : Store) := Leads.andThen (f := fun _ => yielded)
      ((Eval.leads_append (p.hoistedDeclarations hoisted) out t w₁.frames).trans
        (Eval.stmts_hoisted p hoisted t w₁.frames).bind) (Eval.stmts_grows out w₁.frames)
    refine ⟨_, _, _, _, _, w₁.le_enter _ g, hm₂, .trans (.of_eq fun n => ?_) (hleft _),
      .of_eq fun k => ?_, hsim.andThen (fun _ _ _ _ hq => yielded_sim hq) fun _ _ _ => False.elim⟩
    · rw [← hm.size]
      rfl
    · rw [hm.activations]
  · rw [enter_host]
    exact List.mem_append_right _ (List.mem_append_right _ hρ)

/-- Closures that are the same do the same. -/
theorem calls (i : Nat) : Calls i := by
  induction i with
  | zero =>
    refine calls_of_fewer fun j hj => ?_
    cases hj
  | succ i ih =>
    refine calls_of_fewer fun j hj => ?_
    obtain rfl := Nat.succ.inj hj
    exact ih

end World

end Regional

end FlatScope
