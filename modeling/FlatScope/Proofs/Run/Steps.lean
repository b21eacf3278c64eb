import FlatScope.Eval
import FlatScope.Proofs.Flat
import FlatScope.Proofs.Process

/-!
# More steps

A piece of a program that ends within some number of steps ends in the same way within more of them
(`Eval.more`). So it does not matter how the steps are divided among the parts of a piece, and
statements that stand one after the other run one after the other (`Eval.leads_append`).
-/

namespace FlatScope

namespace Eval

open Process

theorem before_goesOn {x y : Process σ Unit} (h : x.Before y) : (goesOn x).Before (goesOn y) := by
  intro s
  rw [goesOn, goesOn]
  rcases h s with hx | hx
  · exact .inl (by rw [hx])
  · exact .inr (by rw [hx])

/-- Where every piece ends in the same way within one more step. -/
structure More (n : Nat) : Prop where
  expr : ∀ e env, (expr n e env).Before (expr (n + 1) e env)
  exprs : ∀ es env, (exprs n es env).Before (exprs (n + 1) es env)
  call : ∀ f args, (call n f args).Before (call (n + 1) f args)
  callClosure : ∀ c args, (callClosure n c args).Before (callClosure (n + 1) c args)
  stmts : ∀ ss env, (stmts n ss env).Before (stmts (n + 1) ss env)
  block : ∀ b env, (block n b env).Before (block (n + 1) b env)
  stmt : ∀ x env, (stmt n x env).Before (stmt (n + 1) x env)
  assign : ∀ t v env, (assign n t v env).Before (assign (n + 1) t v env)
  loop : ∀ h b env, (loop n h b env).Before (loop (n + 1) h b env)
  whileLoop : ∀ c b env, Process.Before (whileLoop n c b env) (whileLoop (n + 1) c b env)
  countingLoop : ∀ copies c u b env, Process.Before (countingLoop n copies c u b env)
    (countingLoop (n + 1) copies c u b env)
  condition : ∀ c env, (condition n c env).Before (condition (n + 1) c env)
  update : ∀ u env, (update n u env).Before (update (n + 1) u env)
  forOfLoop : ∀ q i x k b env, Process.Before (forOfLoop n q i x k b env)
    (forOfLoop (n + 1) q i x k b env)

variable {n : Nat}

theorem More.expr_succ (h : More n) (e : Expr Span) (env : FrameId) :
    (Eval.expr (n + 1) e env).Before (Eval.expr (n + 2) e env) := by
  cases e with
  | literal m v => cases v <;> exact .refl _
  | name | function | unknown => exact .refl _
  | unary m op e =>
    rw [Eval.expr, Eval.expr]
    exact (h.expr e env).bind fun _ => .refl _
  | binary m op l r =>
    cases op
    case or | and =>
      rw [Eval.expr, Eval.expr]
      refine (h.expr l env).bind fun v => ?_
      split
      · first | exact h.expr r env | exact .refl _
      · first | exact h.expr r env | exact .refl _
    all_goals
      exact (h.expr l env).bind fun v => (h.expr r env).bind fun w => .refl _
  | call m f args =>
    rw [Eval.expr, Eval.expr]
    exact (h.expr f env).bind fun v => (h.exprs args env).bind fun vs => h.call v vs
  | array m es =>
    rw [Eval.expr, Eval.expr]
    exact (h.exprs es env).bind fun _ => .refl _
  | index m b i =>
    rw [Eval.expr, Eval.expr]
    exact (h.expr b env).bind fun _ => (h.expr i env).bind fun _ => .refl _
  | signal m k v =>
    cases v with
    | none => exact .refl _
    | some e =>
      rw [Eval.expr, Eval.expr]
      exact (h.expr e env).bind fun _ => .refl _
  | signalIs m e k =>
    rw [Eval.expr, Eval.expr]
    exact (h.expr e env).bind fun _ => .refl _
  | signalValue m e =>
    rw [Eval.expr, Eval.expr]
    exact (h.expr e env).bind fun _ => .refl _

theorem More.stmt_succ (h : More n) (x : Stmt Span) (env : FrameId) :
    (Eval.stmt (n + 1) x env).Before (Eval.stmt (n + 2) x env) := by
  cases x with
  | declaration m x k v =>
    cases v with
    | none => cases k <;> exact .refl _
    | some e => cases k <;> exact (h.expr e env).bind fun _ => .refl _
  | assignment m t e => exact (h.expr e env).bind fun v => h.assign t v env
  | expression m e => exact (h.expr e env).bind fun _ => .refl _
  | block b => exact h.block b env
  | branch m c t e =>
    refine (h.expr c env).bind fun v => ?_
    split
    · exact h.block t env
    · cases e with
      | none => exact .refl _
      | some b => exact h.block b env
  | loop m hd b => exact h.loop hd b env
  | ret m v =>
    cases v with
    | none => exact .refl _
    | some e => exact (h.expr e env).bind fun _ => .refl _
  | brk | cont | unknown => exact .refl _

theorem More.callClosure_succ (h : More n) (c : Closure) (args : List Value) :
    (Eval.callClosure (n + 1) c args).Before (Eval.callClosure (n + 2) c args) := by
  rw [Eval.callClosure, Eval.callClosure]
  refine (Before.refl _).bind fun env s => ?_
  rcases h.stmts c.body.statements env s with hs | hs
  · exact .inl (by rw [hs])
  · exact .inr (by rw [hs])

/-- A `for` that counts with a variable of its own runs in copies of its frame. -/
theorem loop_counting (n : Nat) (m : Span) (x : Stmt Span) (c : Option (Expr Span))
    (u : Option (Stmt Span)) (b : Block Span) (env : FrameId) :
    Eval.loop (n + 1) (.counting m (some x) c u) b env = (match copied? (some x) with
      | some d => do
        let first ← enter (Frame.define ⟨some env, []⟩ d.1 none (d.2 == .const))
        Eval.stmt n x first
        let env ← Process.make fun s => s.copy first
        Eval.countingLoop n true c u b env
      | none => do
        Eval.stmt n x env
        Eval.countingLoop n false c u b env) := by
  cases h : copied? (some x) <;> simp only [Eval.loop, h]

theorem More.loop_succ (h : More n) (hd : Header Span) (b : Block Span) (env : FrameId) :
    (Eval.loop (n + 1) hd b env).Before (Eval.loop (n + 2) hd b env) := by
  cases hd with
  | whileTrue m c => exact h.whileLoop c b env
  | counting m i c u =>
    cases i with
    | none => exact h.countingLoop false c u b env
    | some x =>
      rw [loop_counting, loop_counting]
      cases copied? (some x) with
      | none => exact (h.stmt x env).bind fun _ => h.countingLoop false c u b env
      | some d => exact (Before.refl _).bind fun first => (h.stmt x first).bind fun _ =>
          (Before.refl _).bind fun env => h.countingLoop true c u b env
  | forOf m x k e =>
    exact (h.expr e env).bind fun v => (Before.refl _).bind fun q => h.forOfLoop q 0 x k b env
  | unknown => exact .refl _

theorem More.whileLoop_succ (h : More n) (c : Expr Span) (b : Block Span) (env : FrameId) :
    Process.Before (Eval.whileLoop (n + 1) c b env) (Eval.whileLoop (n + 2) c b env) := by
  intro s
  rw [Eval.whileLoop, Eval.whileLoop]
  rcases h.expr c env s with hc | hc
  · exact .inl (by rw [hc])
  rw [hc]
  split
  · exact .refl _
  · exact .refl _
  · rename_i v t _
    split
    · rcases before_goesOn (h.block b env) t with hb | hb
      · exact .inl (by rw [hb])
      rw [hb]
      split
      · exact .refl _
      · exact .refl _
      · exact .refl _
      · exact h.whileLoop c b env _
    · exact .refl _

theorem More.countingLoop_succ (h : More n) (copies : Bool) (c : Option (Expr Span))
    (u : Option (Stmt Span)) (b : Block Span) (env : FrameId) :
    Process.Before (Eval.countingLoop (n + 1) copies c u b env)
      (Eval.countingLoop (n + 2) copies c u b env) := by
  intro s
  rw [Eval.countingLoop, Eval.countingLoop]
  rcases h.condition c env s with hc | hc
  · exact .inl (by rw [hc])
  rw [hc]
  split
  · exact .refl _
  · exact .refl _
  · exact .refl _
  · rename_i t _
    rcases before_goesOn (h.block b env) t with hb | hb
    · exact .inl (by rw [hb])
    rw [hb]
    split
    · exact .refl _
    · exact .refl _
    · exact .refl _
    · rename_i r _
      dsimp only
      generalize (if copies = true then r.copy env else (env, r)) = next
      rcases h.update u next.1 next.2 with hu | hu
      · exact .inl (by rw [hu])
      rw [hu]
      split
      · exact .refl _
      · exact .refl _
      · exact h.countingLoop copies c u b _ _

theorem More.forOfLoop_succ (h : More n) (q : Sequence) (i : Nat) (x : Name) (k : Option DeclKind)
    (b : Block Span) (env : FrameId) : Process.Before (Eval.forOfLoop (n + 1) q i x k b env)
      (Eval.forOfLoop (n + 2) q i x k b env) := by
  intro s
  rw [Eval.forOfLoop, Eval.forOfLoop]
  split
  · exact .refl _
  · split
    · exact .refl _
    · exact .refl _
    · rename_i inner t _
      rcases before_goesOn (h.block b inner) t with hb | hb
      · exact .inl (by rw [hb])
      rw [hb]
      split
      · exact .refl _
      · exact .refl _
      · exact .refl _
      · exact h.forOfLoop q (i + 1) x k b env _

/-- Within one more step, every piece that has ended ends in the same way. -/
theorem more : ∀ n, More n
  | 0 => ⟨fun _ _ => before_outOfFuel _, fun _ _ => before_outOfFuel _,
      fun _ _ => before_outOfFuel _, fun _ _ => before_outOfFuel _, fun _ _ => before_outOfFuel _,
      fun _ _ => before_outOfFuel _, fun _ _ => before_outOfFuel _,
      fun _ _ _ => before_outOfFuel _, fun _ _ _ => before_outOfFuel _,
      fun _ _ _ => before_outOfFuel _, fun _ _ _ _ _ => before_outOfFuel _,
      fun _ _ => before_outOfFuel _, fun _ _ => before_outOfFuel _,
      fun _ _ _ _ _ _ => before_outOfFuel _⟩
  | n + 1 => by
    have h := more n
    exact {
      expr := h.expr_succ
      exprs := fun es env => by
        cases es with
        | nil => exact .refl _
        | cons e es => exact (h.expr e env).bind fun _ => (h.exprs es env).bind fun _ => .refl _
      call := fun f args => by
        cases f with
        | closure id => exact (Before.refl _).bind fun c => h.callClosure c args
        | _ => exact .refl _
      callClosure := h.callClosure_succ
      stmts := fun ss env => by
        cases ss with
        | nil => exact .refl _
        | cons x ss => exact (h.stmt x env).bind fun _ => h.stmts ss env
      block := fun b env => (Before.refl _).bind fun env => h.stmts b.statements env
      stmt := h.stmt_succ
      assign := fun t v env => by
        cases t with
        | index m b i => exact (h.expr b env).bind fun _ => (h.expr i env).bind fun _ => .refl _
        | _ => exact .refl _
      loop := h.loop_succ
      whileLoop := h.whileLoop_succ
      countingLoop := h.countingLoop_succ
      condition := fun c env => by
        cases c with
        | none => exact .refl _
        | some e => exact (h.expr e env).bind fun _ => .refl _
      update := fun u env => by
        cases u with
        | none => exact .refl _
        | some x => exact h.stmt x env
      forOfLoop := h.forOfLoop_succ }

theorem stmts_grows (ss : List (Stmt Span)) (env : FrameId) : Grows fun n => stmts n ss env :=
  fun n => (more n).stmts ss env

theorem expr_grows (e : Expr Span) (env : FrameId) : Grows fun n => expr n e env :=
  fun n => (more n).expr e env

theorem stmt_grows (x : Stmt Span) (env : FrameId) : Grows fun n => stmt n x env :=
  fun n => (more n).stmt x env

/-! ## Statements one after the other -/

section Sequences

variable {s s' : Store} {env : FrameId} {r : Except Interrupt Unit}

/-- How statements end whose first one does. -/
theorem stmts_cons (n : Nat) (x : Stmt Span) (ss : List (Stmt Span)) (env : FrameId) :
    stmts (n + 1) (x :: ss) env = stmt n x env >>= fun _ => stmts n ss env := rfl

theorem stmts_of_append {n : Nat} {ss ts : List (Stmt Span)}
    (h : stmts n (ss ++ ts) env s = .ended r s') :
    (stmts n ss env >>= fun _ => stmts n ts env) s = .ended r s' := by
  induction ss generalizing n s with
  | nil =>
    obtain _ | n := n
    · exact absurd h.symm Outcome.ended_ne
    · exact h
  | cons x ss ih =>
    obtain _ | n := n
    · exact absurd h.symm Outcome.ended_ne
    rcases of_bind h with ⟨w, rfl, hx⟩ | ⟨_, s₁, hx, hrest⟩
    · exact bind_error (bind_error hx)
    · rcases of_bind (ih hrest) with ⟨w, rfl, hss⟩ | ⟨_, s₂, hss, hts⟩
      · exact bind_error ((bind_ok hx).trans hss)
      · exact (bind_ok ((bind_ok hx).trans hss)).trans
          ((stmts_grows ts env n).ended hts)

theorem append_of_stmts {N : Nat} {ss ts : List (Stmt Span)}
    (h : (stmts N ss env >>= fun _ => stmts N ts env) s = .ended r s') :
    ∀ n, N + ss.length ≤ n → stmts n (ss ++ ts) env s = .ended r s' := by
  induction ss generalizing N s with
  | nil =>
    intro n hn
    obtain _ | N := N
    · exact absurd h.symm Outcome.ended_ne
    · exact ((stmts_grows ts env).before hn).ended h
  | cons x ss ih =>
    intro n hn
    obtain _ | N := N
    · exact absurd h.symm Outcome.ended_ne
    obtain ⟨n, rfl⟩ : ∃ n', n = n' + 1 := ⟨n - 1, by omega⟩
    rw [List.length_cons] at hn
    have hmono {q s₁} (hx : stmt N x env s = .ended q s₁) : stmt n x env s = .ended q s₁ :=
      ((stmt_grows x env).before (by omega)).ended hx
    rcases of_bind h with ⟨w, rfl, hfirst⟩ | ⟨_, s₁, hfirst, hts⟩ <;>
      rcases of_bind hfirst with ⟨_, hw, hx⟩ | ⟨_, s₂, hx, hss⟩
    · cases hw
      exact bind_error (hmono hx)
    · refine (bind_ok (hmono hx)).trans (ih (N := N + 1) ?_ n (by omega))
      exact bind_error ((stmts_grows ss env N).ended hss)
    · cases hw
    · refine (bind_ok (hmono hx)).trans (ih (N := N + 1) ?_ n (by omega))
      exact (bind_ok ((stmts_grows ss env N).ended hss)).trans hts

/-- The first statements run, and then the others. -/
theorem leads_append (ss ts : List (Stmt Span)) (s : Store) (env : FrameId) :
    Leads (fun n => stmts n (ss ++ ts) env) s
      (fun n => stmts n ss env >>= fun _ => stmts n ts env) s where
  forth {n _ _} hx := ⟨n, Nat.le_refl n, stmts_of_append hx⟩
  back {N _ _} hx := ⟨N + ss.length, append_of_stmts (hx N (Nat.le_refl N))⟩

/-- A single statement. -/
theorem stmts_singleton (x : Stmt Span) (s : Store) (env : FrameId) :
    Leads (fun n => stmts n [x] env) s (fun n => stmt n x env) s where
  forth {n _ _} hx := by
    obtain _ | n := n
    · exact absurd hx.symm Outcome.ended_ne
    refine ⟨n, Nat.le_succ n, ?_⟩
    rcases of_bind hx with ⟨w, rfl, hw⟩ | ⟨_, s₁, hs, hrest⟩
    · exact hw
    · obtain _ | n := n
      · exact absurd hrest.symm Outcome.ended_ne
      · exact hs.trans hrest
  back {N r s'} hx := by
    refine ⟨N + 2, fun n hn => ?_⟩
    obtain ⟨n, rfl⟩ : ∃ n', n = n' + 2 := ⟨n - 2, by omega⟩
    have hx := hx (n + 1) (by omega)
    cases r with
    | ok u => exact bind_ok hx
    | error w => exact bind_error hx

/-- The first statement runs, and then the others. -/
theorem leads_cons (x : Stmt Span) (ss : List (Stmt Span)) (s : Store) (env : FrameId) :
    Leads (fun n => stmts n (x :: ss) env) s
    (fun n => stmt n x env >>= fun _ => stmts n ss env) s :=
  .step rfl fun n => by rw [stmts_cons]

/-- A statement that ends leads to the statements behind it. -/
theorem stmts_of_ends {x : Stmt Span} (h : Ends (fun n => stmt n x env) s () s')
    (ss : List (Stmt Span)) :
    Leads (fun n => stmts n (x :: ss) env) s (fun n => stmts n ss env) s' :=
  .trans (leads_cons ..) h.bind

end Sequences

/-! ## Pieces that end -/

section Ends

variable {s s' : Store} {env owner : FrameId} {v : Value} {x y : Name} {e : Expr Span}
  {ss : List (Stmt Span)}

theorem stmts_nil (s : Store) (env : FrameId) : Ends (fun n => stmts n [] env) s () s :=
  .step rfl fun _ => rfl

/-- Reading a variable. -/
theorem ends_name (h : s.get env x = .ok v) (m : Span) :
    Ends (fun n => expr n (.name m x) env) s v s :=
  .step rfl fun n => by
    change Process.read (fun s => s.get env x) s = _
    rw [Process.read, h]
    rfl

theorem ends_setVariable (h : s.setTarget env x = .ok owner) :
    Ends (fun _ => setVariable env x v) s () (s.write owner x v) := by
  refine .now ?_
  rw [setVariable, Process.changeAt, h]

/-- Copying a variable to another one. -/
theorem ends_copy (hy : s.get env y = .ok v) (hx : s.setTarget env x = .ok owner) (m k l : Span) :
    Ends (fun n => stmt n (.assignment m (.name k x) (.name l y)) env) s ()
      (s.write owner x v) :=
  .trans (.step (y := fun n => expr n (.name l y) env >>= fun v => assign n (.name k x) v env) rfl
    fun _ => rfl) (.trans (ends_name hy l).bind
      (.trans (.step (y := fun _ => setVariable env x v) rfl fun _ => rfl) (ends_setVariable hx)))

/-- Testing a value for being a signal. -/
theorem ends_signalIs (h : Ends (fun n => expr n e env) s v s') (m : Span) (k : SignalKind) :
    Ends (fun n => expr n (.signalIs m e k) env) s (.bool (v.isSignal k)) s' :=
  .trans (.step rfl fun _ => rfl) (.trans h.bind (.refl ..))

/-- Negating a truth value. -/
theorem ends_not {b : Bool} (h : Ends (fun n => expr n e env) s (.bool b) s') (m : Span) :
    Ends (fun n => expr n (.unary m .not e) env) s (.bool !b) s' :=
  .trans (.step rfl fun _ => rfl) (.trans h.bind (Ends.now (by cases b <;> rfl)))

/-- A branch that is not taken. -/
theorem ends_branch (h : Ends (fun n => expr n e env) s (.bool false) s') (m k : Span)
    (ss : List (Stmt Span)) : Ends (fun n => stmt n (.branch m e (.mk k ss) none) env) s () s' :=
  .trans (.step rfl fun _ => rfl) (.trans h.bind (.refl ..))

/-- Statements without `let`s and `const`s in a block. -/
theorem leads_block (hss : Stmt.AreFlat ss) (s : Store) (env : FrameId) (m : Span) :
    Leads (fun n => block n (.mk m ss) env) s (fun n => stmts n ss env) s := by
  have hframe : blockFrame (.mk m ss) env s = .done env s := by
    rw [blockFrame, show (Block.mk m ss).lexicals = [] from hss.lexicals]
    rfl
  exact .trans (.step rfl fun _ => rfl) (Ends.now hframe).bind

/-- A branch that is taken. -/
theorem leads_branch (h : Ends (fun n => expr n e env) s (.bool true) s')
    (hss : Stmt.AreFlat ss) (m k : Span) :
    Leads (fun n => stmt n (.branch m e (.mk k ss) none) env) s (fun n => stmts n ss env) s' :=
  .trans (.step rfl fun _ => rfl) (.trans h.bind (leads_block hss s' env k))

/-- A `return` of a value. -/
theorem leads_ret (h : Ends (fun n => expr n e env) s v s') (m : Span) :
    Leads (fun n => stmts n [.ret m (some e)] env) s (fun _ => interrupt (.returned v)) s' :=
  .trans (stmts_singleton ..) (.trans (.step rfl fun _ => rfl) h.bind)

/-- Evaluating a list of expressions. -/
theorem ends_exprs_cons {es : List (Expr Span)} {vs : List Value} {s'' : Store}
    (h : Ends (fun n => expr n e env) s v s') (hs : Ends (fun n => exprs n es env) s' vs s'') :
    Ends (fun n => exprs n (e :: es) env) s (v :: vs) s'' :=
  .trans (.step rfl fun _ => rfl) (.trans h.bind (.trans hs.bind (.refl ..)))

/-- A call of a closure. -/
theorem leads_closure {c : Nat} {C : Closure} (h : s.closures[c]? = some C) (vs : List Value) :
    Leads (fun n => call n (.closure c) vs) s (fun n => callClosure n C vs) s := by
  refine .step rfl fun n => ?_
  change (match Process.read (fun s => .ok (s.closures[c]?.getD default)) s with
    | .done C s => callClosure n C vs s
    | .interrupted w s => .interrupted w s
    | .outOfFuel => .outOfFuel) = _
  simp only [Process.read, h, Option.getD_some]

/-- The call of an expression that yields a closure. -/
theorem leads_call {c : Nat} {C : Closure} {callee : Expr Span} {args : List (Expr Span)}
    {vs : List Value} {s'' : Store} (hc : Ends (fun n => expr n callee env) s (.closure c) s')
    (hargs : Ends (fun n => exprs n args env) s' vs s'')
    (hC : s''.closures[c]? = some C) (m : Span) :
    Leads (fun n => expr n (.call m callee args) env) s (fun n => callClosure n C vs) s'' :=
  .trans (.step rfl fun _ => rfl) (.trans hc.bind (.trans hargs.bind (leads_closure hC vs)))

/-- A call runs the statements of the closure in a new frame. -/
theorem leads_callClosure {C : Closure} (h : C.body.IsFlat) (vs : List Value) (s : Store) :
    Leads (fun n => callClosure n C vs) s
      (fun n => (stmts n C.body.statements s.frames.size).andThen yielded)
      (s.newFrame (bindVars (bindParams ⟨some C.frame, []⟩ C.params vs) C.body.vars)).2 := by
  have hframe : callFrame C vs =
      .ok (bindVars (bindParams ⟨some C.frame, []⟩ C.params vs) C.body.vars) := by
    rw [callFrame, h.lexicals]
    rfl
  refine .step rfl fun n => ?_
  rw [callClosure_succ hframe, andThen]
  generalize stmts n C.body.statements s.frames.size _ = o
  cases o with
  | interrupted w s => cases w <;> rfl
  | _ => rfl

end Ends

end Eval

end FlatScope
