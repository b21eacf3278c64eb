import FlatScope.Proofs.Run.Changes

/-!
# Runs of flat code change what its own nodes change

Whatever a piece of flat code calls, a run of it in a frame changes a variable only if an own node
of the code or a closure that there was before does (`Eval.kept`). The proof is one induction on the
number of steps, with one case for every function of the evaluator. A call runs in a frame that is
new, so the own nodes of the function that it calls set variables of that frame, or variables
outside that the closure assigns.
-/

namespace FlatScope

/-- A function that every program can call makes no frame and no closure. -/
theorem Builtin.call_keeps (b : Builtin) (s : Store) (args : List Value) :
    (b.call s args).2.frames = s.frames ∧ (b.call s args).2.closures = s.closures := by
  have hrange : ∀ lo hi, (Builtin.makeRange s lo hi).2.frames = s.frames ∧
      (Builtin.makeRange s lo hi).2.closures = s.closures := fun lo hi => by
    cases lo <;> cases hi <;> exact ⟨rfl, rfl⟩
  have happly :
      (b.apply s args).2.frames = s.frames ∧ (b.apply s args).2.closures = s.closures := by
    match b, args with
    | .print, args =>
      rw [Builtin.apply]
      cases args.mapM (Value.render s) <;> exact ⟨rfl, rfl⟩
    | .push, [] | .len, [] | .range, [] | .str, [] => exact ⟨rfl, rfl⟩
    | .push, v :: rest =>
      cases v with
      | array i => rcases rest with _ | ⟨w, _ | _⟩ <;> exact ⟨rfl, rfl⟩
      | _ => exact ⟨rfl, rfl⟩
    | .len, v :: rest => cases v <;> exact ⟨rfl, rfl⟩
    | .range, [v] => exact hrange _ _
    | .range, v :: w :: rest => exact hrange _ _
    | .str, v :: rest => exact ⟨rfl, rfl⟩
  rw [Builtin.call]
  by_cases h : b.takes args.length = true
  · rwa [if_pos h]
  · rw [if_neg h]
    exact ⟨rfl, rfl⟩
namespace Eval

open Store

variable {α β : Type} {ns ms : List (Node Span)} {env : FrameId} {x : Run α}
    {f : α → Run β} {n : Nat}
  {s s' : Store}

/-- Wherever a piece of a program runs, it changes only what the nodes may change. -/
structure KeepsTo (ns : List (Node Span)) (env : FrameId) (x : Run α) : Prop where
  changes : ∀ {s s' : Store}, s.Sound → env < s.frames.size → (x s).state? = some s' →
    s.Changes ns env s'

namespace KeepsTo

theorem mono (h : KeepsTo ns env x) (hsub : ∀ y ∈ ns, y ∈ ms) : KeepsTo ms env x :=
  ⟨fun hs he hx => (h.changes hs he hx).mono hsub⟩

/-- One piece after the other, the second of which may know how the first one has ended. -/
theorem bindDone (hx : KeepsTo ns env x) (hf : ∀ {a : α} {s s₁ s' : Store}, x s = .done a s₁ →
    s₁.Sound → env < s₁.frames.size → (f a s₁).state? = some s' → s₁.Changes ns env s') :
    KeepsTo ns env (x >>= f) where
  changes {s s'} hs he h := by
    rw [Process.bind_apply] at h
    cases hxs : x s with
    | done a s₁ =>
      rw [hxs] at h
      have h₁ : s.Changes ns env s₁ := hx.changes hs he (by rw [hxs]; rfl)
      exact h₁.trans hs he (hf hxs h₁.sound (h₁.later.lt he) h)
    | interrupted w s₁ =>
      rw [hxs] at h
      exact hx.changes hs he (by rw [hxs]; exact h)
    | outOfFuel =>
      rw [hxs] at h
      cases h

theorem bind (hx : KeepsTo ns env x) (hf : ∀ a, KeepsTo ns env (f a)) : KeepsTo ns env (x >>= f) :=
  hx.bindDone fun {a} _ _ _ _ hs he h => (hf a).changes hs he h

theorem outOfFuel : KeepsTo ns env (Process.outOfFuel : Run α) := ⟨fun _ _ h => by cases h⟩

theorem pure (a : α) : KeepsTo ns env (Pure.pure a : Run α) where
  changes hs _ h := by
    cases h
    exact .refl hs

theorem interrupt (w : Interrupt) : KeepsTo ns env (Process.interrupt w : Run α) where
  changes hs _ h := by
    cases h
    exact .refl hs

theorem fail (e : RunError) : KeepsTo ns env (Process.fail e : Run α) := .interrupt _

theorem read (g : Store → Except RunError α) : KeepsTo ns env (Process.read g) where
  changes {s s'} hs _ h := by
    rw [Process.read] at h
    cases hg : g s <;> rw [hg] at h <;> cases h <;> exact .refl hs

/-- Making something that is no frame and no closure. -/
theorem make {g : Store → α × Store} (hf : ∀ s, (g s).2.frames = s.frames)
    (hc : ∀ s, (g s).2.closures = s.closures) : KeepsTo ns env (Process.make g) where
  changes {s s'} hs _ h := by
    cases h
    exact .of_eq hs (hf s) (hc s)

/-- Changing something that is no frame and no closure. -/
theorem changeAt {ι : Type} {place : Store → Except RunError ι} {g : ι → Store → Store}
    (hf : ∀ i s, (g i s).frames = s.frames) (hc : ∀ i s, (g i s).closures = s.closures) :
    KeepsTo ns env (Process.changeAt place g) where
  changes {s s'} hs _ h := by
    rw [Process.changeAt] at h
    cases hp : place s with
    | ok i =>
      rw [hp] at h
      cases h
      exact .of_eq hs (hf i s) (hc i s)
    | error e =>
      rw [hp] at h
      cases h
      exact .refl hs

theorem failWith (e : Text → RunError) (v : Value) : KeepsTo ns env (Eval.failWith e v : Run α) :=
  (read _).bind fun _ => fail _

theorem operate (g : Store → Except RunError Value) : KeepsTo ns env (Eval.operate g) :=
  (read _).bind fun v => make (fun s => by unfold Store.identify; split <;> rfl)
    fun s => by unfold Store.identify; split <;> rfl

theorem sequenceOf (v : Value) : KeepsTo ns env (Eval.sequenceOf v) := by
  unfold Eval.sequenceOf
  split
  · exact .pure _
  · exact .pure _
  · exact .failWith _ _

end KeepsTo

/-- A node sets a variable; if its value is a function, to a closure of that function. -/
theorem changes_setVariable {y : Node Span} (hy : y ∈ ns) {x : Name} {e : Option (Expr Span)}
    (hset : y.sets? = some (x, e)) {v : Value} (hv : ∀ a ps c, e = some (.function a ps c) →
      ∃ i, v = .closure i ∧ s.closures[i]? = some ⟨ps, c, env, none⟩) (hs : s.Sound)
    (h : (setVariable env x v s).state? = some s') : s.Changes ns env s' := by
  rw [setVariable, Process.changeAt] at h
  cases ht : s.setTarget env x with
  | error e =>
    rw [ht] at h
    cases h
    exact .refl hs
  | ok o =>
    rw [ht] at h
    cases h
    rw [Store.setTarget] at ht
    split at ht
    · cases ht
    · cases ht
    · cases ht
    · rename_i hfind
      cases ht
      exact .write hs hy hset (finds_of_find? hfind).1 hv

/-- A loop over a sequence sets its variable. -/
theorem keepsTo_element {y : Node Span} (hy : y ∈ ns) {x : Name} (hset : y.sets? = some (x, none))
    (v : Value) : KeepsTo ns env (setVariable env x v) :=
  ⟨fun hs _ h => changes_setVariable hy hset (by simp) hs h⟩

/-- A function is evaluated to a closure of it. -/
theorem expr_function {a : Span} {ps : List Name} {c : Block Span} {v : Value}
    (h : expr n (.function a ps c) env s = .done v s') :
    ∃ i, v = .closure i ∧ s'.closures[i]? = some ⟨ps, c, env, none⟩ := by
  cases n with
  | zero => cases h
  | succ n =>
    cases h
    exact ⟨_, rfl, getElem?_newClosure_self s _⟩

/-! ## The evaluator -/

/-- Within a number of steps, flat code changes only what its own nodes may change. -/
structure Kept (n : Nat) : Prop where
  expr : ∀ {e env}, e.IsFlat → KeepsTo e.own env (expr n e env)
  exprs : ∀ {es env}, Expr.AreFlat es → KeepsTo (Expr.ownOfList es) env (exprs n es env)
  call : ∀ {f args env}, KeepsTo [] env (call n f args)
  callClosure : ∀ {c args s s' env}, s.Sound → c.frame < s.frames.size → c.body.IsFlat →
    (∀ {f x}, s.Guards f x → s.Finds x c.frame f → ¬ c.body.AssignsOutside x c.params) →
    (callClosure n c args s).state? = some s' → s.Changes [] env s'
  stmts : ∀ {ss env}, Stmt.AreFlat ss → KeepsTo (Stmt.ownOfList ss) env (stmts n ss env)
  block : ∀ {b env}, b.IsFlat → KeepsTo b.own env (block n b env)
  stmt : ∀ {s env}, s.IsFlat → KeepsTo s.own env (stmt n s env)
  assign : ∀ {t v env}, t.IsFlat → (∀ a x, t ≠ .name a x) → KeepsTo t.own env (assign n t v env)
  loop : ∀ {h b env}, h.IsFlat → b.IsFlat → KeepsTo (h.own ++ b.own) env (loop n h b env)
  whileLoop : ∀ {c b env}, c.IsFlat → b.IsFlat → KeepsTo (c.own ++ b.own) env (whileLoop n c b env)
  countingLoop : ∀ {c u b env}, (∀ e, c = some e → e.IsFlat) → (∀ s, u = some s → s.IsFlat) →
    b.IsFlat → KeepsTo (c.elim [] Expr.own ++ (u.elim [] Stmt.own ++ b.own)) env
      (countingLoop n false c u b env)
  condition : ∀ {c env}, (∀ e, c = some e → e.IsFlat) →
    KeepsTo (c.elim [] Expr.own) env (condition n c env)
  update : ∀ {u env}, (∀ s, u = some s → s.IsFlat) → KeepsTo (u.elim [] Stmt.own) env
    (update n u env)
  forOfLoop : ∀ {q i x k b env} {y : Node Span}, k = none ∨ k = some .var →
    y.sets? = some (x, none) →
    b.IsFlat → KeepsTo (y :: b.own) env (forOfLoop n q i x k b env)

/-- Without steps nothing happens. -/
theorem kept_zero : Kept 0 where
  expr _ := .outOfFuel
  exprs _ := .outOfFuel
  call := .outOfFuel
  callClosure _ _ _ _ h := by cases h
  stmts _ := .outOfFuel
  block _ := .outOfFuel
  stmt _ := .outOfFuel
  assign _ _ := .outOfFuel
  loop _ _ := .outOfFuel
  whileLoop _ _ := .outOfFuel
  countingLoop _ _ _ := .outOfFuel
  condition _ := .outOfFuel
  update _ := .outOfFuel
  forOfLoop _ _ _ := .outOfFuel

theorem keepsTo_exprs (ih : Kept n) : ∀ {es : List (Expr Span)}, Expr.AreFlat es →
    KeepsTo (Expr.ownOfList es) env (exprs (n + 1) es env)
  | [], _ => by
    rw [exprs]
    exact .pure _
  | e :: es, h => by
    rw [Expr.AreFlat] at h
    rw [exprs, Expr.ownOfList]
    exact ((ih.expr h.1).mono fun _ hy => List.mem_append_left _ hy).bind fun v =>
      ((ih.exprs h.2).mono fun _ hy => List.mem_append_right _ hy).bind fun _ => .pure _

theorem keepsTo_binary {m : Span} (op : BinaryOp) {l r : Expr Span}
    (hl : KeepsTo ns env (expr n l env)) (hr : KeepsTo ns env (expr n r env)) :
    KeepsTo ns env (expr (n + 1) (.binary m op l r) env) := by
  cases op with
  | and =>
    rw [expr]
    refine hl.bind fun v => ?_
    split
    · exact hr
    · exact .pure _
  | or =>
    rw [expr]
    refine hl.bind fun v => ?_
    split
    · exact .pure _
    · exact hr
  | _ =>
    rw [expr]
    · exact hl.bind fun v => hr.bind fun w => .operate _
    all_goals simp

theorem keepsTo_expr (ih : Kept n) : ∀ {e : Expr Span}, e.IsFlat →
    KeepsTo e.own env (expr (n + 1) e env)
  | .literal _ v, _ => by
    cases v <;> rw [expr] <;> exact .pure _
  | .name .., _ => by
    rw [expr]
    exact .read _
  | .unary _ _ e, h => by
    rw [Expr.IsFlat] at h
    rw [expr, Expr.own]
    exact ((ih.expr h).mono fun _ hy => List.mem_cons_of_mem _ hy).bind fun _ => .operate _
  | .binary _ op l r, h => by
    rw [Expr.IsFlat] at h
    rw [Expr.own]
    exact keepsTo_binary op
      ((ih.expr h.1).mono fun _ hy => List.mem_cons_of_mem _ (List.mem_append_left _ hy))
      ((ih.expr h.2).mono fun _ hy => List.mem_cons_of_mem _ (List.mem_append_right _ hy))
  | .call _ g args, h => by
    rw [Expr.IsFlat] at h
    rw [expr, Expr.own]
    exact ((ih.expr h.1).mono fun _ hy => List.mem_cons_of_mem _ (List.mem_append_left _ hy)).bind
      fun _ => ((ih.exprs h.2).mono fun _ hy =>
        List.mem_cons_of_mem _ (List.mem_append_right _ hy)).bind fun _ => ih.call.mono (by simp)
  | .array _ es, h => by
    rw [Expr.IsFlat] at h
    rw [expr, Expr.own]
    exact ((ih.exprs h).mono fun _ hy => List.mem_cons_of_mem _ hy).bind fun _ =>
      .make (fun _ => rfl) fun _ => rfl
  | .index _ b i, h => by
    rw [Expr.IsFlat] at h
    rw [expr, Expr.own]
    exact ((ih.expr h.1).mono fun _ hy => List.mem_cons_of_mem _ (List.mem_append_left _ hy)).bind
      fun _ => ((ih.expr h.2).mono fun _ hy =>
        List.mem_cons_of_mem _ (List.mem_append_right _ hy)).bind fun _ => .read _
  | .function _ ps (.mk k ss), h => by
    rw [Expr.IsFlat] at h
    rw [expr, Expr.own]
    exact ⟨fun hs he hx => by
      cases hx
      exact .newClosure hs he List.mem_cons_self (by rwa [Block.IsFlat])⟩
  | .signal _ k none, h => by
    rw [expr]
    refine KeepsTo.bind (.pure _) fun v => ?_
    cases k <;> exact .pure _
  | .signal _ k (some e), h => by
    rw [Expr.IsFlat] at h
    rw [expr, Expr.own]
    refine ((ih.expr h).mono fun _ hy => List.mem_cons_of_mem _ hy).bind fun v => ?_
    cases k <;> exact .pure _
  | .signalIs _ e _, h => by
    rw [Expr.IsFlat] at h
    rw [expr, Expr.own]
    exact ((ih.expr h).mono fun _ hy => List.mem_cons_of_mem _ hy).bind fun _ => .pure _
  | .signalValue _ e, h => by
    rw [Expr.IsFlat] at h
    rw [expr, Expr.own]
    refine ((ih.expr h).mono fun _ hy => List.mem_cons_of_mem _ hy).bind fun v => ?_
    split
    · exact .pure _
    · exact .failWith _ _
  | .unknown .., h => by
    rw [expr]
    exact .fail _

/-! ### Calls -/

section Ends

variable {c : Closure} {args : List Value} {fr : Frame} {v : Value}

/-- A call comes back where the statements of the function end or return. -/
theorem ends_of_callClosure (hfr : callFrame c args = .ok fr)
    (h : callClosure (n + 1) c args s = .done v s') :
    stmts n c.body.statements s.frames.size (s.newFrame fr).2 = .done () s' ∨
      stmts n c.body.statements s.frames.size (s.newFrame fr).2 = .interrupted
      (.returned v) s' := by
  rw [callClosure_succ hfr] at h
  split at h
  · rename_i hrun
    cases h
    exact .inl hrun
  · rename_i hrun
    cases h
    exact .inr hrun
  all_goals cases h

/-- A call leaves the store in which the statements of the function do. -/
theorem state?_of_callClosure (hfr : callFrame c args = .ok fr)
    (h : (callClosure (n + 1) c args s).state? = some s') :
    (stmts n c.body.statements s.frames.size (s.newFrame fr).2).state? = some s' := by
  rw [callClosure_succ hfr] at h
  split at h <;> rename_i hrun
  · exact (congrArg Outcome.state? hrun).trans h
  · exact (congrArg Outcome.state? hrun).trans h
  · exact (congrArg Outcome.state? hrun).trans h
  · cases h

end Ends

theorem keepsTo_call (ih : Kept n) (f : Value) (args : List Value) :
    KeepsTo [] env (call (n + 1) f args) := by
  cases f with
  | builtin b =>
    refine ⟨fun {s s'} hs _ h => ?_⟩
    obtain ⟨hf, hc⟩ := b.call_keeps s args
    rw [call_builtin] at h
    cases hb : b.call s args with
    | mk r t =>
      rw [hb] at h hf hc
      cases r <;> cases h <;> exact .of_eq hs hf hc
  | closure i =>
    change KeepsTo [] env (Process.read (fun s => .ok (s.closures[i]?.getD default)) >>= fun c =>
      callClosure n c args)
    refine (KeepsTo.read _).bindDone fun {c s s₁ s'} hc hs he h => ?_
    cases hc
    cases hi : s.closures[i]? with
    | some c =>
      rw [hi] at h
      obtain ⟨hf, hb⟩ := hs.closures hi
      exact ih.callClosure hs hf hb (fun hg hx => hg hi hx) h
    | none =>
      -- a closure that is not there has no code
      rw [hi] at h
      refine ih.callClosure hs hs.global ?_ (fun _ _ ha => ?_) h
      · change Stmt.AreFlat (α := Span) []
        rw [Stmt.AreFlat]
        trivial
      · cases ha.assigns with
        | sets hy hset =>
          cases List.mem_singleton.1 hy
          cases hset
        | inside hy _ _ _ => cases List.mem_singleton.1 hy
  | _ =>
    change KeepsTo [] env (failWith .notCallable _)
    exact .failWith _ _

/-- The statements of a function run in a new frame, whose variables nobody else uses. -/
theorem changes_callClosure (ih : Kept n) {c : Closure} {args : List Value} (hs : s.Sound)
    (hf : c.frame < s.frames.size) (hb : c.body.IsFlat)
    (hc : ∀ {f x}, s.Guards f x → s.Finds x c.frame f → ¬ c.body.AssignsOutside x c.params)
    (h : (callClosure (n + 1) c args s).state? = some s') : s.Changes [] env s' := by
  obtain ⟨fr, hfr, hparent, hnames⟩ := callFrame_flat hb args
  have hs₁ := hs.newFrame hparent hf
  have hlater := extends_newFrame s fr
  have hself : (s.newFrame fr).2.frames[s.frames.size]? = some fr := getElem?_newFrame_self
  have hrun := state?_of_callClosure hfr h
  have hflat : Stmt.AreFlat c.body.statements := by
    obtain ⟨params, ⟨k, ss⟩, frame, name⟩ := c
    exact hb
  have hch := (ih.stmts hflat).changes hs₁ (lt_of_frame hself) hrun
  have hspares : ∀ {f x} {K : Closure → Prop}, f < s.frames.size → s.Guards f x →
      (s.newFrame fr).2.Finds x s.frames.size f →
      ∀ y ∈ Stmt.ownOfList c.body.statements, y.Spares K s.frames.size x := by
    -- the name means an old variable, so the function does not declare it
    intro f x K hf' hg hx
    cases hx with
    | here => exact absurd hf' (Nat.lt_irrefl _)
    | up hfr' hno hp hx =>
      rw [hself] at hfr'
      cases hfr'
      rw [hparent] at hp
      cases hp
      have hnot : ¬ (x ∈ c.params ∨ x ∈ c.body.vars.map (·.1)) := fun hin => by
        rw [(hnames x).2 hin] at hno
        cases hno
      rw [not_or] at hnot
      have hassigns : ¬ c.body.Assigns x := fun ha =>
        hc hg (hlater.of_finds hs hx hf) ⟨hnot.1, hnot.2, ha⟩
      obtain ⟨params, ⟨k, ss⟩, frame, name⟩ := c
      exact fun y hy => Block.spares_of_not_assigns hassigns K _ y (List.mem_cons_of_mem _ hy)
  have hguards : ∀ {f x}, s.Guards f x → (s.newFrame fr).2.Guards f x := fun hg =>
    hg.of_closures hs hlater fun hi => hi
  refine ⟨hch.sound, hlater.trans hch.later, fun {f x} hf' hg _ => ?_, fun {f x K} hf' hg _ => ?_⟩
  · exact hch.guards (hlater.lt hf') (hguards hg) fun hx y hy =>
      (hspares (K := fun _ => True) hf' hg hx y hy).lends
  · have hk := hch.keeps (hlater.lt hf') (hguards hg) (hspares (K := K) hf' hg)
    rwa [Keeps, content?_newFrame hf'] at hk

/-! ### Statements -/

theorem keepsTo_stmts (ih : Kept n) : ∀ {ss : List (Stmt Span)}, Stmt.AreFlat ss →
    KeepsTo (Stmt.ownOfList ss) env (stmts (n + 1) ss env)
  | [], _ => by
    rw [stmts]
    exact .pure _
  | s :: ss, h => by
    rw [Stmt.AreFlat] at h
    rw [stmts, Stmt.ownOfList]
    exact ((ih.stmt h.1).mono fun _ hy => List.mem_append_left _ hy).bind fun _ =>
      (ih.stmts h.2).mono fun _ hy => List.mem_append_right _ hy

theorem blockFrame_flat {b : Block Span} (h : b.IsFlat) (env : FrameId) :
    blockFrame b env = pure env := by
  rw [blockFrame, h.lexicals]

theorem keepsTo_block (ih : Kept n) {b : Block Span} (h : b.IsFlat) :
    KeepsTo b.own env (block (n + 1) b env) := by
  rw [block, blockFrame_flat h]
  obtain ⟨k, ss⟩ := b
  rw [Block.own]
  exact (KeepsTo.pure env).bindDone fun {a _ _ _} ha hs he h' => by
    cases ha
    exact ((ih.stmts h).mono fun _ hy => List.mem_cons_of_mem _ hy).changes hs he h'

theorem keepsTo_assign (ih : Kept n) {t : Expr Span} {v : Value} (h : t.IsFlat)
    (hno : ∀ a x, t ≠ .name a x) : KeepsTo t.own env (assign (n + 1) t v env) := by
  cases t with
  | name a x => exact absurd rfl (hno a x)
  | index _ b i =>
    rw [Expr.IsFlat] at h
    rw [assign, Expr.own]
    exact ((ih.expr h.1).mono fun _ hy => List.mem_cons_of_mem _ (List.mem_append_left _ hy)).bind
      fun _ => ((ih.expr h.2).mono fun _ hy =>
        List.mem_cons_of_mem _ (List.mem_append_right _ hy)).bind fun _ =>
          .changeAt (fun _ _ => rfl) fun _ _ => rfl
  | _ =>
    rw [assign]
    · exact .fail _
    all_goals simp

/-- A declaration or an assignment of a value to a name. -/
theorem keepsTo_set (ih : Kept n) {y : Node Span} {x : Name} {e : Expr Span} (he : e.IsFlat)
    (hy : y ∈ ns) (hset : y.sets? = some (x, some e)) (hown : ∀ z ∈ e.own, z ∈ ns) :
    KeepsTo ns env (expr n e env >>= fun v => setVariable env x v) :=
  ((ih.expr he).mono hown).bindDone fun {v s s₁ s'} hv hs _ h =>
    changes_setVariable hy hset (fun a ps c hf => by
      cases hf
      exact expr_function hv) hs h

theorem keepsTo_stmt (ih : Kept n) : ∀ {s : Stmt Span}, s.IsFlat →
    KeepsTo s.own env (stmt (n + 1) s env)
  | .declaration _ _ k none, h => by
    rw [Stmt.IsFlat] at h
    rw [h, stmt]
    exact .pure _
  | .declaration a x k (some e), h => by
    rw [Stmt.IsFlat] at h
    rw [h.1, stmt, Stmt.own]
    exact keepsTo_set ih h.2 List.mem_cons_self rfl fun _ hy => List.mem_cons_of_mem _ hy
  | .assignment _ t e, h => by
    rw [Stmt.IsFlat] at h
    rw [stmt, Stmt.own]
    by_cases ht : ∃ a x, t = .name a x
    · obtain ⟨a, x, rfl⟩ := ht
      cases n with
      | zero => exact .bind .outOfFuel fun _ => .outOfFuel
      | succ n =>
        simp only [assign]
        exact keepsTo_set ih h.2 List.mem_cons_self rfl fun _ hy =>
          List.mem_cons_of_mem _ (List.mem_append_right _ hy)
    · exact ((ih.expr h.2).mono fun _ hy => List.mem_cons_of_mem _
        (List.mem_append_right _ hy)).bind
        fun _ => (ih.assign h.1 fun a x he => ht ⟨a, x, he⟩).mono fun _ hy =>
          List.mem_cons_of_mem _ (List.mem_append_left _ hy)
  | .expression _ e, h => by
    rw [Stmt.IsFlat] at h
    rw [stmt, Stmt.own]
    exact ((ih.expr h).mono fun _ hy => List.mem_cons_of_mem _ hy).bind fun _ => .pure _
  | .block b, h => by
    rw [Stmt.IsFlat] at h
    rw [stmt, Stmt.own]
    exact ih.block h
  | .branch _ c t none, h => by
    rw [Stmt.IsFlat] at h
    rw [stmt, Stmt.own]
    refine ((ih.expr h.1).mono fun _ hy => List.mem_cons_of_mem _ (List.mem_append_left _ hy)).bind
      fun v => ?_
    split
    · exact (ih.block h.2).mono fun _ hy => List.mem_cons_of_mem _ (List.mem_append_right _
        (List.mem_append_left _ hy))
    · exact .pure _
  | .branch _ c t (some e), h => by
    rw [Stmt.IsFlat] at h
    rw [stmt, Stmt.own]
    refine ((ih.expr h.1).mono fun _ hy => List.mem_cons_of_mem _ (List.mem_append_left _ hy)).bind
      fun v => ?_
    split
    · exact (ih.block h.2.1).mono fun _ hy => List.mem_cons_of_mem _ (List.mem_append_right _
        (List.mem_append_left _ hy))
    · exact (ih.block h.2.2).mono fun _ hy => List.mem_cons_of_mem _ (List.mem_append_right _
        (List.mem_append_right _ hy))
  | .loop _ hd b, h => by
    rw [Stmt.IsFlat] at h
    rw [stmt, Stmt.own]
    exact (ih.loop h.1 h.2).mono fun _ hy => List.mem_cons_of_mem _ hy
  | .ret _ none, _ => by
    rw [stmt]
    exact .interrupt _
  | .ret _ (some e), h => by
    rw [Stmt.IsFlat] at h
    rw [stmt, Stmt.own]
    exact ((ih.expr h).mono fun _ hy => List.mem_cons_of_mem _ hy).bind fun _ => .interrupt _
  | .brk _, _ | .cont _, _ => by
    rw [stmt]
    exact .interrupt _
  | .unknown .., _ => by
    rw [stmt]
    exact .fail _

/-! ### Loops -/

theorem KeepsTo.goesOn {x : Run Unit} (h : KeepsTo ns env x) : KeepsTo ns env (goesOn x) where
  changes {s s'} hs he hx := h.changes hs he (by
    rw [Eval.goesOn] at hx
    cases hxs : x s with
    | done a t =>
      rw [hxs] at hx
      exact hx
    | interrupted w t =>
      rw [hxs] at hx
      cases w <;> exact hx
    | outOfFuel =>
      rw [hxs] at hx
      cases hx)

/-- A round of a `while`. -/
theorem whileLoop_succ (c : Expr Span) (b : Block Span) (env : FrameId) :
    whileLoop (n + 1) c b env = (do
      let v ← expr n c env
      if v.truthy then
        if ← goesOn (block n b env) then whileLoop n c b env
      else return () : Run Unit) := by
  funext s
  rw [whileLoop, Process.bind_apply]
  cases expr n c env s with
  | done v s₁ =>
    dsimp only
    split
    · rw [Process.bind_apply]
      cases goesOn (block n b env) s₁ with
      | done g s₂ => cases g <;> rfl
      | _ => rfl
    · rfl
  | _ => rfl

/-- A round of a `for` that counts and makes no copies. -/
theorem countingLoop_succ (c : Option (Expr Span)) (u : Option (Stmt Span)) (b : Block Span)
    (env : FrameId) : countingLoop (n + 1) false c u b env = (do
      if ← condition n c env then
        if ← goesOn (block n b env) then
          update n u env
          countingLoop n false c u b env : Run Unit) := by
  funext s
  rw [countingLoop, Process.bind_apply]
  cases condition n c env s with
  | done v s₁ =>
    cases v with
    | false => rfl
    | true =>
      dsimp only [if_true]
      rw [if_pos rfl, Process.bind_apply]
      cases goesOn (block n b env) s₁ with
      | done g s₂ =>
        cases g with
        | false => rfl
        | true =>
          simp only [Bool.false_eq_true, if_false, if_true]
          change _ = Process.bind (update n u env) (fun _ => countingLoop n false c u b env) s₂
          unfold Process.bind
          cases update n u env s₂ <;> rfl
      | _ => rfl
  | _ => rfl

/-- A round of a `for` over a sequence. -/
theorem forOfLoop_succ (q : Sequence) (i : Nat) (x : Name) (k : Option DeclKind) (b : Block Span)
    (env : FrameId) (s : Store) : forOfLoop (n + 1) q i x k b env s =
      match q.at? s i with
      | none => .done () s
      | some v => (elementFrame x k v env >>= fun inner => goesOn (block n b inner) >>= fun g =>
          if g then forOfLoop n q (i + 1) x k b env else pure () : Run Unit) s := by
  rw [forOfLoop]
  cases q.at? s i with
  | none => rfl
  | some v =>
    dsimp only
    rw [Process.bind_apply]
    cases elementFrame x k v env s with
    | done inner s₁ =>
      dsimp only
      rw [Process.bind_apply]
      cases goesOn (block n b inner) s₁ with
      | done g s₂ => cases g <;> rfl
      | _ => rfl
    | _ => rfl

/-- A round of a `for` over a sequence whose variable is one of the frame around it. -/
theorem forOfLoop_flat (q : Sequence) (i : Nat) (x : Name) {k : Option DeclKind}
    (hk : k = none ∨ k = some .var) (b : Block Span) (env : FrameId) (s : Store) :
    forOfLoop (n + 1) q i x k b env s =
      match q.at? s i with
      | none => .done () s
      | some v => (setVariable env x v >>= fun _ => goesOn (block n b env) >>= fun g =>
          if g then forOfLoop n q (i + 1) x k b env else pure () : Run Unit) s := by
  have hframe : ∀ v, elementFrame x k v env = (setVariable env x v >>= fun _ => pure env) := by
    rcases hk with rfl | rfl <;> exact fun _ => rfl
  rw [forOfLoop_succ]
  cases q.at? s i with
  | none => rfl
  | some v =>
    dsimp only
    rw [hframe, Process.bind_apply, Process.bind_apply, Process.bind_apply]
    cases setVariable env x v s <;> rfl

theorem keepsTo_whileLoop (ih : Kept n) {c : Expr Span} {b : Block Span} (hc : c.IsFlat)
    (hb : b.IsFlat) : KeepsTo (c.own ++ b.own) env (whileLoop (n + 1) c b env) := by
  rw [whileLoop_succ]
  refine ((ih.expr hc).mono fun _ hy => List.mem_append_left _ hy).bind fun v => ?_
  split
  · refine ((ih.block hb).goesOn.mono fun _ hy => List.mem_append_right _ hy).bind fun g => ?_
    cases g with
    | true => exact ih.whileLoop hc hb
    | false => exact .pure _
  · exact .pure _

theorem keepsTo_condition (ih : Kept n) {c : Option (Expr Span)} (h : ∀ e, c = some e → e.IsFlat) :
    KeepsTo (c.elim [] Expr.own) env (condition (n + 1) c env) := by
  cases c with
  | none =>
    rw [condition]
    exact .pure _
  | some e =>
    rw [condition]
    exact (ih.expr (h e rfl)).bind fun _ => .pure _

theorem keepsTo_update (ih : Kept n) {u : Option (Stmt Span)} (h : ∀ s, u = some s → s.IsFlat) :
    KeepsTo (u.elim [] Stmt.own) env (update (n + 1) u env) := by
  cases u with
  | none =>
    rw [update]
    exact .pure _
  | some s =>
    rw [update]
    exact ih.stmt (h s rfl)

theorem keepsTo_countingLoop (ih : Kept n) {c : Option (Expr Span)} {u : Option (Stmt Span)}
    {b : Block Span} (hc : ∀ e, c = some e → e.IsFlat) (hu : ∀ s, u = some s → s.IsFlat)
    (hb : b.IsFlat) : KeepsTo (c.elim [] Expr.own ++ (u.elim [] Stmt.own ++ b.own)) env
      (countingLoop (n + 1) false c u b env) := by
  rw [countingLoop_succ]
  refine ((ih.condition hc).mono fun _ hy => List.mem_append_left _ hy).bind fun v => ?_
  split
  · refine ((ih.block hb).goesOn.mono fun _ hy =>
      List.mem_append_right _ (List.mem_append_right _ hy)).bind fun g => ?_
    cases g with
    | true =>
      exact ((ih.update hu).mono fun _ hy =>
        List.mem_append_right _ (List.mem_append_left _ hy)).bind fun _ => ih.countingLoop hc hu hb
    | false => exact .pure _
  · exact .pure _

theorem keepsTo_forOfLoop (ih : Kept n) {q : Sequence} {i : Nat} {x : Name} {k : Option DeclKind}
    {b : Block Span} {y : Node Span} (hk : k = none ∨ k = some .var)
    (hset : y.sets? = some (x, none)) (hb : b.IsFlat) :
    KeepsTo (y :: b.own) env (forOfLoop (n + 1) q i x k b env) where
  changes {s s'} hs he h := by
    rw [forOfLoop_flat q i x hk] at h
    cases hq : q.at? s i with
    | none =>
      rw [hq] at h
      cases h
      exact .refl hs
    | some v =>
      rw [hq] at h
      refine ((keepsTo_element List.mem_cons_self hset v).bind fun _ => KeepsTo.bind
        ((ih.block hb).goesOn.mono fun _ hy =>
        List.mem_cons_of_mem _ hy) fun g => ?_).changes hs he h
      cases g with
      | true => exact ih.forOfLoop hk hset hb
      | false => exact .pure _

theorem copied?_flat : ∀ {s : Stmt Span}, s.IsFlat → copied? (some s) = none
  | .declaration _ _ _ none, h => by
    rw [Stmt.IsFlat] at h
    rw [h]
    rfl
  | .declaration _ _ _ (some _), h => by
    rw [Stmt.IsFlat] at h
    rw [h.1]
    rfl
  | .assignment .., _ | .expression .., _ | .block _, _ | .branch .., _ | .loop .., _ | .ret .., _
  | .brk _, _ | .cont _, _ | .unknown .., _ => rfl

theorem keepsTo_loop (ih : Kept n) {b : Block Span} (hb : b.IsFlat) :
    ∀ {h : Header Span}, h.IsFlat → KeepsTo (h.own ++ b.own) env (loop (n + 1) h b env)
  | .whileTrue _ c, h => by
    rw [Header.IsFlat] at h
    rw [loop]
    exact (ih.whileLoop h hb).mono (by simp +contextual [Header.own])
  | .counting _ init c u, h => by
    have hcu : KeepsTo (c.elim [] Expr.own ++ (u.elim [] Stmt.own ++ b.own)) env
        (countingLoop n false c u b env) :=
      ih.countingLoop (by rintro e rfl; cases init <;> cases u <;> simp_all [Header.IsFlat])
        (by rintro s rfl; cases init <;> cases c <;> simp_all [Header.IsFlat]) hb
    rw [Header.own_counting]
    cases init with
    | none =>
      rw [loop]
      exact hcu.mono (by simp +contextual)
    | some s =>
      have hs : s.IsFlat := by cases c <;> cases u <;> simp_all [Header.IsFlat]
      simp only [loop, copied?_flat hs]
      exact KeepsTo.bind ((ih.stmt hs).mono (by simp +contextual)) fun _ =>
        hcu.mono (by simp +contextual)
  | .forOf m x k e, h => by
    rw [Header.IsFlat] at h
    rw [Header.own, loop]
    have hset : (Node.header (.forOf m x k e)).sets? = some (x, none) := by
      rcases h.1 with rfl | rfl <;> rfl
    exact ((ih.expr h.2).mono (by simp +contextual)).bind fun v => (KeepsTo.sequenceOf v).bind
      fun q => (ih.forOfLoop h.1 hset hb).mono (by simp +contextual)
  | .unknown .., _ => by
    rw [loop]
    exact .fail _

/-- Flat code changes only what its own nodes may change, and the closures that it calls. -/
theorem kept (n : Nat) : Kept n := by
  induction n with
  | zero => exact kept_zero
  | succ n ih =>
    exact {
      expr := keepsTo_expr ih
      exprs := keepsTo_exprs ih
      call := keepsTo_call ih _ _
      callClosure := changes_callClosure ih
      stmts := keepsTo_stmts ih
      block := keepsTo_block ih
      stmt := keepsTo_stmt ih
      assign := keepsTo_assign ih
      loop := fun hh hb => keepsTo_loop ih hb hh
      whileLoop := keepsTo_whileLoop ih
      countingLoop := keepsTo_countingLoop ih
      condition := keepsTo_condition ih
      update := keepsTo_update ih
      forOfLoop := keepsTo_forOfLoop ih }

end Eval

end FlatScope
