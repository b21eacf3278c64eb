import FlatScope.Proofs.Safety.Programs

/-!
# Errors of machines

If the operators in the code that a machine runs are those of the language, the machine does not
stop because an operator is unknown or a value is no signal (`Regional.natives`): operators apply to
values or are refused for the values, and no code for machines looks into a signal. As lowered code
ends as the machine does, it does not stop by these errors either
(`Program.not_foreign_of_transform`).
-/

namespace FlatScope

/-- An error that code which is read does not stop by. -/
def RunError.Foreign : RunError → Prop
  | .notSignal _ | .unknownUnary _ | .unknownBinary _ => True
  | _ => False

/-- Errors about values are errors of the language. -/
theorem RunError.OfValues.not_foreign {e : RunError} (h : e.OfValues) : ¬ e.Foreign := by
  cases e <;> first | exact id | exact h.elim

/-- An outcome that is no foreign error, in a state that has a property. -/
def Outcome.Native {σ α : Type} (I : σ → Prop) : Outcome σ α → Prop
  | .done _ t => I t
  | .interrupted w t => I t ∧ ∀ e, w = .failed e → ¬ e.Foreign
  | .outOfFuel => True

/-- A piece that keeps a property of states and stops by no foreign error. -/
def Process.Native {σ α : Type} (I : σ → Prop) (x : Process σ α) : Prop := ∀ s, I s → (x s).Native I

namespace Process.Native

variable {σ α β : Type} {I : σ → Prop} {x : Process σ α} {f : α → Process σ β}

theorem pure (a : α) : Native I (Pure.pure a) := fun _ hs => hs

theorem outOfFuel : Native I (fun _ => .outOfFuel : Process σ α) := fun _ _ => trivial

theorem interrupt {w : Interrupt} (h : ∀ e, w = .failed e → ¬ e.Foreign) :
    Native I (Process.interrupt w : Process σ α) := fun _ hs => ⟨hs, h⟩

theorem fail {e : RunError} (h : ¬ e.Foreign) : Native I (Process.fail e : Process σ α) :=
  interrupt fun _ he => by cases he; exact h

/-- A computation in two native parts is native. -/
theorem bind (hx : Native I x) (hf : ∀ a, Native I (f a)) : Native I (x >>= f) := by
  intro s hs
  rw [Process.bind_apply]
  have h := hx s hs
  cases hxs : x s with
  | done a t =>
    rw [hxs] at h
    exact hf a t h
  | interrupted w t =>
    rw [hxs] at h
    exact h
  | outOfFuel => trivial

/-- Reading fails with errors of the language only. -/
theorem read {k : σ → Except RunError α} (h : ∀ s, Throws (¬ ·.Foreign) (k s)) :
    Native I (Process.read k) := by
  intro s hs
  rw [Process.read]
  cases hk : k s with
  | ok a => exact hs
  | error e => exact ⟨hs, fun _ he => by cases he; exact h s e hk⟩

/-- Changing a place that is found, or fails to be, with errors of the language only. -/
theorem changeAt {ι : Type} {place : σ → Except RunError ι} {k : ι → σ → σ}
    (h : ∀ s, Throws (¬ ·.Foreign) (place s)) (hk : ∀ i s, I s → I (k i s)) :
    Native I (Process.changeAt place k) := by
  intro s hs
  rw [Process.changeAt]
  cases hp : place s with
  | ok i => exact hk i s hs
  | error e => exact ⟨hs, fun _ he => by cases he; exact h s e hp⟩

theorem make {k : σ → α × σ} (h : ∀ s, I s → I (k s).2) : Native I (Process.make k) :=
  fun s hs => h s hs

/-- The body of a loop. -/
theorem goesOn {x : Process σ Unit} (hx : Native I x) : Native I (Eval.goesOn x) := by
  intro s hs
  rw [Eval.goesOn]
  have h := hx s hs
  cases hxs : x s with
  | done a t =>
    rw [hxs] at h
    exact h
  | interrupted w t =>
    rw [hxs] at h
    cases w with
    | broke | continued => exact h.1
    | _ => exact h
  | outOfFuel => trivial

end Process.Native

/-! ## Stores -/

section Stores

open Process

variable {α : Type}

/-- What is done with a store. -/
abbrev Run.Native (x : Run α) : Prop := Process.Native (fun _ => True) x

theorem Throws.native {x : Except RunError α} (h : Throws RunError.OfValues x) :
    Throws (¬ ·.Foreign) x := h.mono fun _ => RunError.OfValues.not_foreign

/-- A read of a variable fails with an error of the language. -/
theorem Store.get_native (s : Store) (f : FrameId) (n : Name) :
    Throws (¬ ·.Foreign) (s.get f n) := by
  rw [Store.get]
  split
  · exact .error id
  · exact .error id
  · exact .ok _

/-- The search for the target of a write fails with an error of the language. -/
theorem Store.setTarget_native (s : Store) (f : FrameId) (n : Name) :
    Throws (¬ ·.Foreign) (s.setTarget f n) := by
  rw [Store.setTarget]
  split
  · exact .error id
  · exact .error id
  · exact .error id
  · exact .ok _

theorem Eval.operate_native {k : Store → Except RunError Value}
    (h : ∀ s, Throws (¬ ·.Foreign) (k s)) :
    Run.Native (Eval.operate k) := (Native.read h).bind fun _ => .make fun _ => id

theorem Eval.failWith_native {e : Text → RunError} {v : Value} (h : ∀ t, ¬ (e t).Foreign) :
    Run.Native (Eval.failWith e v : Run α) :=
  (Native.read fun _ => (Value.render_throws v).native).bind fun _ => .fail (h _)

theorem Eval.sequenceOf_native (v : Value) : Run.Native (Eval.sequenceOf v) := by
  cases v with
  | array | text => exact .pure _
  | _ => exact failWith_native fun _ => id

theorem Eval.setVariable_native (f : FrameId) (n : Name) (v : Value) :
    Run.Native (Eval.setVariable f n v) :=
  .changeAt (fun s => s.setTarget_native f n) fun _ _ => id

end Stores

theorem FunctionDef.mem_nodes_of_statements {α : Type} {fn : FunctionDef α} {x : Node α}
    (h : x ∈ Stmt.nodesOfList fn.body.statements) : x ∈ fn.nodes := by
  obtain ⟨m, n, ps, ⟨k, ss⟩⟩ := fn
  exact List.mem_cons_of_mem _ (List.mem_cons_of_mem _ h)

/-! ## Machines -/

namespace Regional

open Process

variable {α : Type} {a : Scoping} {env : Env} {pl : Place}

/-- All closures have code with the operators of the language. -/
def Machine.Plain (m : Machine) : Prop :=
  ∀ (i : Nat) (c), m.closures[i]? = some c → ∀ x ∈ Stmt.nodesOfList c.code, x.Plain

/-- What is done with a machine. -/
abbrev Run.Native (x : Run α) : Prop := Process.Native Machine.Plain x

theorem native_onStore {x : FlatScope.Run α} (h : FlatScope.Run.Native x) :
    Run.Native (onStore x) := by
  intro m hm
  rw [onStore]
  have ho := h m.store trivial
  cases hx : x m.store with
  | done b s => exact hm
  | interrupted w s =>
    rw [hx] at ho
    exact ⟨hm, ho.2⟩
  | outOfFuel => trivial

/-- What leaves the closures alone. -/
theorem native_make {k : Machine → α × Machine} (h : ∀ m, (k m).2.closures = m.closures) :
    Run.Native (.make k) :=
  .make fun m hm i c hi => hm i c (h m ▸ hi)

theorem copyAll_closures (ls : List (Location × Location)) (m : Machine) :
    (m.copyAll ls).closures = m.closures := by
  induction ls generalizing m with
  | nil => rfl
  | cons l ls ih => exact ih _

theorem setAll_closures (ls : List (Location × Value)) (m : Machine) :
    (m.setAll ls).closures = m.closures := by
  induction ls generalizing m with
  | nil => rfl
  | cons l ls ih => exact ih _

theorem native_copyAll (ls : List (Location × Location)) : Run.Native (copyAll ls) :=
  native_make (copyAll_closures ls)

theorem native_leave {w : Interrupt} (h : ∀ e, w = .failed e → ¬ e.Foreign) :
    Run.Native (leave pl w : Run α) := (native_copyAll _).bind fun _ => .interrupt h

theorem native_jump {inLoop : Bool} {w : Interrupt} (h : ∀ e, w = .failed e → ¬ e.Foreign) :
    Run.Native (jump pl inLoop w) := by
  rw [jump]
  split
  · exact .interrupt h
  · exact native_leave h

/-- A dispatch raises nothing of its own, so it adds no foreign error. -/
theorem native_dispatch {inLoop : Bool} {x : Run Unit} (h : Run.Native x) :
    Run.Native (dispatch pl inLoop x) := by
  intro m hm
  have ho := h m hm
  rw [dispatch]
  cases hx : x m with
  | done b t =>
    rw [hx] at ho
    exact ho
  | interrupted w t =>
    rw [hx] at ho
    cases w with
    | returned v =>
      change Outcome.Native _ (leave pl (.returned v) t)
      exact native_leave (fun _ he => by cases he) t ho.1
    | broke =>
      change Outcome.Native _ (jump pl inLoop .broke t)
      exact native_jump (fun _ he => by cases he) t ho.1
    | continued =>
      change Outcome.Native _ (jump pl inLoop .continued t)
      exact native_jump (fun _ he => by cases he) t ho.1
    | failed e => exact ho
  | outOfFuel => trivial

theorem native_read (n : NodeId) (x : Name) : Run.Native (read a n x env) := by
  rw [read]
  split
  · exact native_onStore (.read fun s => s.get_native _ _)
  · exact native_make fun _ => rfl

theorem native_assignName (n : NodeId) (x : Name) (v : Value) :
    Run.Native (assignName a n x v env) := by
  rw [assignName]
  split
  · exact native_onStore (Eval.setVariable_native _ _ _)
  · exact native_make fun _ => rfl

theorem native_declare (n : NodeId) (v : Value) : Run.Native (declare a n v env) := by
  rw [declare]
  split
  · exact .fail id
  · exact native_make fun _ => rfl

theorem call_builtin (n : Nat) (b : Builtin) (args : List Value) :
    call (n + 1) (.builtin b) args = onStore fun s => match b.call s args with
      | (.ok v, s) => .done v s
      | (.error e, s) => .interrupted (.failed e) s := rfl

/-- Code whose operators are those of the language stops by no foreign error. -/
structure Natives (n : Nat) : Prop where
  expr : ∀ {a e env}, (∀ x ∈ e.nodes, x.Plain) → Run.Native (expr n a e env)
  exprs : ∀ {a es env}, (∀ x ∈ Expr.nodesOfList es, x.Plain) → Run.Native (exprs n a es env)
  call : ∀ {f args}, Run.Native (call n f args)
  callClosure : ∀ {c args}, (∀ x ∈ Stmt.nodesOfList c.code, x.Plain) →
    Run.Native (callClosure n c args)
  stmts : ∀ {a ss pl env}, (∀ x ∈ Stmt.nodesOfList ss, x.Plain) → Run.Native (stmts n a ss pl env)
  block : ∀ {a b pl env}, (∀ x ∈ b.nodes, x.Plain) → Run.Native (block n a b pl env)
  stmt : ∀ {a s pl env}, (∀ x ∈ s.nodes, x.Plain) → Run.Native (stmt n a s pl env)
  assign : ∀ {a t v env}, (∀ x ∈ t.nodes, x.Plain) → Run.Native (assign n a t v env)
  loop : ∀ {a l pl env}, (∀ x ∈ l.header.nodes, x.Plain) → (∀ x ∈ l.body.nodes, x.Plain) →
    Run.Native (loop n a l pl env)
  rounds : ∀ {a c u l pl env}, (∀ e, c = some e → ∀ x ∈ e.nodes, x.Plain) →
    (∀ s, u = some s → ∀ x ∈ s.nodes, x.Plain) → (∀ x ∈ l.body.nodes, x.Plain) →
    Run.Native (rounds n a c u l pl env)
  condition : ∀ {a c env}, (∀ e, c = some e → ∀ x ∈ e.nodes, x.Plain) →
    Run.Native (condition n a c env)
  update : ∀ {a u pl env}, (∀ s, u = some s → ∀ x ∈ s.nodes, x.Plain) →
    Run.Native (update n a u pl env)
  elements : ∀ {a q i m x k l pl env}, (∀ x ∈ l.body.nodes, x.Plain) →
    Run.Native (elements n a q i m x k l pl env)
  body : ∀ {a l pl env}, (∀ x ∈ l.body.nodes, x.Plain) → Run.Native (body n a l pl env)

section Step

variable {n : Nat} (ih : Natives n)

include ih

theorem native_binary {m : Mark} {op : BinaryOp} {l r : Expr Mark} (hop : ∀ t, op ≠ .other t)
    (hl : ∀ x ∈ l.nodes, x.Plain) (hr : ∀ x ∈ r.nodes, x.Plain) :
    Run.Native (expr (n + 1) a (.binary m op l r) env) := by
  have hvalues : ∀ {op : BinaryOp} (v w : Value), (∀ t, op ≠ .other t) → op ≠ .and ∧ op ≠ .or →
      Run.Native (onStore (Eval.operate fun s => v.binary s op w)) := fun {op} v w hop hne =>
    native_onStore (Eval.operate_native fun s => (Value.binary_throws hne v w).mono fun e he => by
      obtain he | ⟨t, rfl, -⟩ := he
      · exact he.not_foreign
      · exact absurd rfl (hop t))
  cases op with
  | and =>
    rw [expr]
    refine (ih.expr hl).bind fun v => ?_
    split
    · exact ih.expr hr
    · exact .pure v
  | or =>
    rw [expr]
    refine (ih.expr hl).bind fun v => ?_
    split
    · exact .pure v
    · exact ih.expr hr
  | _ =>
    rw [expr]
    · exact (ih.expr hl).bind fun v => (ih.expr hr).bind fun w => hvalues v w hop (by simp)
    all_goals simp

/-- An expression of the source fails with errors of the language only. -/
theorem native_expr {e : Expr Mark} (he : ∀ x ∈ e.nodes, x.Plain) :
    Run.Native (expr (n + 1) a e env) := by
  cases e with
  | literal => exact .pure _
  | name => exact native_read _ _
  | unary m op e =>
    simp only [Expr.nodes, List.forall_mem_cons] at he
    refine (ih.expr he.2).bind fun v => native_onStore (Eval.operate_native fun s => ?_)
    refine (Value.unary_throws op v).mono fun e hv => ?_
    obtain hv | ⟨t, rfl, -⟩ := hv
    · exact hv.not_foreign
    · exact absurd rfl (he.1 t)
  | binary m op l r =>
    simp only [Expr.nodes, List.forall_mem_cons, List.forall_mem_append] at he
    exact native_binary ih he.1 he.2.1 he.2.2
  | call m f args =>
    simp only [Expr.nodes, List.forall_mem_cons, List.forall_mem_append] at he
    exact (ih.expr he.2.1).bind fun f => (ih.exprs he.2.2).bind fun vs => ih.call
  | array m es =>
    simp only [Expr.nodes, List.forall_mem_cons] at he
    exact (ih.exprs he.2).bind fun vs => native_onStore (.make fun _ => id)
  | index m b i =>
    simp only [Expr.nodes, List.forall_mem_cons, List.forall_mem_append] at he
    refine (ih.expr he.2.1).bind fun v => (ih.expr he.2.2).bind fun w => native_onStore
      (.read fun s => ?_)
    exact (Value.element_throws v w).native
  | function m ps b =>
    obtain ⟨k, ss⟩ := b
    simp only [Expr.nodes, Block.nodes, List.forall_mem_cons] at he
    change Run.Native (.make fun s => s.newClosure ⟨a, m.id, ps, ss, env⟩)
    refine Native.make fun s hs i c hi => ?_
    rw [Machine.newClosure, Array.getElem?_push] at hi
    split at hi
    · cases hi
      exact he.2.2
    · exact hs i c hi
  | _ => exact .fail id

/-- A call fails with errors of the language only. -/
theorem native_call {f : Value} {args : List Value} : Run.Native (call (n + 1) f args) := by
  have hfail : ∀ v, Run.Native (onStore (Eval.failWith .notCallable v) : Run Value) := fun v =>
    native_onStore (Eval.failWith_native fun _ => id)
  cases f with
  | builtin b =>
    rw [call_builtin]
    refine native_onStore fun s _ => ?_
    have herr := Builtin.call_throws (s := s) b args
    cases hb : b.call s args with
    | mk r t =>
      rw [hb] at herr
      cases r with
      | ok v => trivial
      | error e => exact ⟨trivial, fun _ he => by cases he; exact (herr e rfl).not_foreign⟩
  | closure i =>
    intro m hm
    rw [World.call_closure]
    cases hc : m.closures[i]? with
    | none => exact ⟨hm, fun _ he => by cases he; exact id⟩
    | some c => exact ih.callClosure (hm i c hc) m hm
  | undefined => exact hfail .undefined
  | bool b => exact hfail (.bool b)
  | number x => exact hfail (.number x)
  | text t => exact hfail (.text t)
  | array i => exact hfail (.array i)
  | noSignal => exact hfail .noSignal
  | signal e v => exact hfail (.signal e v)

theorem native_callClosure {c : Closure} {args : List Value}
    (hc : ∀ x ∈ Stmt.nodesOfList c.code, x.Plain) : Run.Native (callClosure (n + 1) c args) := by
  intro m hm
  rw [callClosure_succ]
  dsimp only
  have hm' : (m.activate.setAll (arguments c.scoping c.scope m.activations c.params args)).Plain :=
    fun i d hi => hm i d (setAll_closures _ m.activate ▸ hi)
  have ho : Outcome.Native Machine.Plain (stmts n c.scoping c.code ⟨m.activations, false, []⟩
    (c.env.enter c.scoping c.scope m.activations) _) := ih.stmts hc _ hm'
  rw [andThen]
  generalize stmts n c.scoping c.code _ _ _ = o at ho
  cases o with
  | done b t => exact ho
  | interrupted w t =>
    cases w with
    | returned v => exact ho.1
    | _ => exact ho
  | outOfFuel => trivial

/-- A block of the source fails with errors of the language only. -/
theorem native_block {b : Block Mark} (hb : ∀ x ∈ b.nodes, x.Plain) :
    Run.Native (block (n + 1) a b pl env) := by
  obtain ⟨m, ss⟩ := b
  have hss : ∀ x ∈ Stmt.nodesOfList ss, x.Plain := fun x hx => hb x (List.mem_cons_of_mem _ hx)
  rw [block]
  split
  · exact ih.stmts hss
  · exact (native_make fun _ => rfl : Run.Native activate).bind fun f => native_dispatch
      (ih.stmts hss)

/-- A statement of the source fails with errors of the language only. -/
theorem native_stmt {s : Stmt Mark} (hs : ∀ x ∈ s.nodes, x.Plain) :
    Run.Native (stmt (n + 1) a s pl env) := by
  cases s with
  | declaration m x d e =>
    cases e with
    | none =>
      cases d with
      | var => exact .pure ()
      | letVar | const => exact native_declare _ _
    | some e =>
      simp only [Stmt.nodes, List.forall_mem_cons] at hs
      rw [stmt]
      exact (ih.expr hs.2).bind fun v => native_declare _ _
  | assignment m t e =>
    simp only [Stmt.nodes, List.forall_mem_cons, List.forall_mem_append] at hs
    exact (ih.expr hs.2.2).bind fun v => ih.assign hs.2.1
  | expression m e =>
    simp only [Stmt.nodes, List.forall_mem_cons] at hs
    exact (ih.expr hs.2).bind fun _ => .pure ()
  | block b =>
    rw [Stmt.nodes] at hs
    exact ih.block hs
  | branch m c t e =>
    simp only [Stmt.nodes_branch, List.forall_mem_cons, List.forall_mem_append] at hs
    refine (ih.expr hs.2.1).bind fun v => ?_
    split
    · exact ih.block hs.2.2.1
    · cases e with
      | none => exact .pure ()
      | some b => exact ih.block hs.2.2.2
  | loop m h b =>
    simp only [Stmt.nodes, List.forall_mem_cons, List.forall_mem_append] at hs
    exact ih.loop hs.2.1 hs.2.2
  | ret m e =>
    cases e with
    | none => exact native_leave fun _ he => by cases he
    | some e =>
      simp only [Stmt.nodes, List.forall_mem_cons] at hs
      exact (native_copyAll _).bind fun _ => (ih.expr hs.2).bind fun v => .interrupt
        fun _ he => by cases he
  | brk => exact native_jump fun _ he => by cases he
  | cont => exact native_jump fun _ he => by cases he
  | unknown => exact .fail id

/-- An assignment in the source fails with errors of the language only. -/
theorem native_assign {t : Expr Mark} {v : Value} (ht : ∀ x ∈ t.nodes, x.Plain) :
    Run.Native (assign (n + 1) a t v env) := by
  cases t with
  | name => exact native_assignName _ _ _
  | index m b i =>
    simp only [Expr.nodes, List.forall_mem_cons, List.forall_mem_append] at ht
    refine (ih.expr ht.2.1).bind fun w => (ih.expr ht.2.2).bind fun k => native_onStore ?_
    exact .changeAt (fun s => (Value.elementTarget_throws w k).native) fun _ _ => id
  | _ => exact .fail id

/-- A loop of the source fails with errors of the language only. -/
theorem native_loop {l : Loop} (hh : ∀ x ∈ l.header.nodes, x.Plain)
    (hb : ∀ x ∈ l.body.nodes, x.Plain) : Run.Native (loop (n + 1) a l pl env) := by
  obtain ⟨m, h, b⟩ := l
  rw [loop]
  dsimp only at hh hb ⊢
  cases h with
  | whileTrue k c =>
    simp only [Header.nodes, List.forall_mem_cons] at hh
    exact ih.rounds (fun e he => by cases he; exact hh.2) (fun s hs => by cases hs) hb
  | counting k i c u =>
    simp only [Header.nodes_counting, List.forall_mem_cons, List.forall_mem_append] at hh
    obtain ⟨-, hi, hc, hu⟩ := hh
    have hc' : ∀ e, c = some e → ∀ x ∈ e.nodes, x.Plain := fun e he => by subst he; exact hc
    have hu' : ∀ s, u = some s → ∀ x ∈ s.nodes, x.Plain := fun s hs => by subst hs; exact hu
    cases i with
    | none => exact ih.rounds hc' hu' hb
    | some s => exact (ih.stmt hi).bind fun _ => ih.rounds hc' hu' hb
  | forOf k x d e =>
    simp only [Header.nodes, List.forall_mem_cons] at hh
    exact (ih.expr hh.2).bind fun v => (native_onStore (Eval.sequenceOf_native v)).bind fun q =>
      ih.elements hb
  | unknown => exact .fail id

theorem native_rounds {c : Option (Expr Mark)} {u : Option (Stmt Mark)} {l : Loop}
    (hc : ∀ e, c = some e → ∀ x ∈ e.nodes, x.Plain) (hu : ∀ s, u = some s → ∀ x ∈ s.nodes, x.Plain)
    (hb : ∀ x ∈ l.body.nodes, x.Plain) : Run.Native (rounds (n + 1) a c u l pl env) := by
  rw [rounds]
  refine (ih.condition hc).bind fun holds => ?_
  split
  · refine (Native.goesOn (ih.body hb)).bind fun again => ?_
    split
    · exact (ih.update hu).bind fun _ => ih.rounds hc hu hb
    · exact .pure ()
  · exact .pure ()

theorem native_elements {q : Eval.Sequence} {i : Nat} {m : Mark} {x : Name}
    {d : Option DeclKind} {l : Loop} (hb : ∀ x ∈ l.body.nodes, x.Plain) :
    Run.Native (elements (n + 1) a q i m x d l pl env) := by
  rw [elements_succ]
  refine (native_onStore (.make fun _ => id)).bind fun v? => ?_
  cases v? with
  | none => exact .pure ()
  | some v =>
    have helement : Run.Native (startElement a m.id x d v (l.headerEnv a pl env)) := by
      cases d with
      | none => exact native_assignName _ _ _
      | some => exact native_declare _ _
    refine helement.bind fun _ => (Native.goesOn (ih.body hb)).bind fun again => ?_
    split
    · exact ih.elements hb
    · exact .pure ()

theorem native_body {l : Loop} (hb : ∀ x ∈ l.body.nodes, x.Plain) :
    Run.Native (body (n + 1) a l pl env) := by
  obtain ⟨m, h, ⟨k, ss⟩⟩ := l
  have hss : ∀ x ∈ Stmt.nodesOfList ss, x.Plain := fun x hx => hb x (List.mem_cons_of_mem _ hx)
  rw [body]
  split
  · exact ih.stmts hss
  · refine (native_make fun _ => rfl : Run.Native activate).bind fun f =>
      (native_copyAll _).bind fun _ => ?_
    exact native_dispatch ((ih.stmts hss).bind fun _ => native_copyAll _)

end Step

/-- By induction on the fuel, no code of the source fails with a foreign error. -/
theorem natives (n : Nat) : Natives n := by
  induction n with
  | zero => constructor <;> (intros; exact .outOfFuel)
  | succ n ih =>
    exact {
      expr := native_expr ih
      exprs := fun {a es env} hes => by
        cases es with
        | nil => exact .pure []
        | cons e es =>
          simp only [Expr.nodesOfList, List.forall_mem_append] at hes
          exact (ih.expr hes.1).bind fun v => (ih.exprs hes.2).bind fun vs => .pure _
      call := native_call ih
      callClosure := native_callClosure ih
      stmts := fun {a ss pl env} hss => by
        cases ss with
        | nil => exact .pure ()
        | cons s ss =>
          simp only [Stmt.nodesOfList, List.forall_mem_append] at hss
          exact (ih.stmt hss.1).bind fun _ => ih.stmts hss.2
      block := native_block ih
      stmt := native_stmt ih
      assign := native_assign ih
      loop := native_loop ih
      rounds := native_rounds ih
      condition := fun {a c env} hc => by
        cases c with
        | none => exact .pure true
        | some e => exact (ih.expr (hc e rfl)).bind fun v => .pure _
      update := fun {a u pl env} hu => by
        cases u with
        | none => exact .pure ()
        | some s => exact ih.stmt (hu s rfl)
      elements := native_elements ih
      body := native_body ih }

/-! ## Programs -/

/-- Code that is plain, loaded or refused. -/
theorem load_native {fs : List Function} (h : ∀ f ∈ fs, ∀ x ∈ f.code.nodes, x.Plain) :
    (∀ m, load fs = .ok m → m.Plain) ∧ Throws (¬ ·.Foreign) (load fs) := by
  have hfold : ∀ {β : Type} {k : Machine → β → Except RunError Machine} (l : List β) {m : Machine},
      (∀ b ∈ l, ∀ m : Machine, m.Plain →
        (∀ t, k m b = .ok t → t.Plain) ∧ Throws (¬ ·.Foreign) (k m b)) → m.Plain →
      (∀ t, l.foldlM k m = .ok t → t.Plain) ∧ Throws (¬ ·.Foreign) (l.foldlM k m) := by
    intro β k l
    induction l with
    | nil => exact fun _ hm => ⟨fun t ht => by cases ht; exact hm, .ok _⟩
    | cons b l ih =>
      intro m hk hm
      obtain ⟨hok, herr⟩ := hk b List.mem_cons_self m hm
      rw [List.foldlM_cons]
      cases hb : k m b with
      | error e => exact ⟨fun t ht => (by cases ht), .error (herr e hb)⟩
      | ok t => exact ih (fun c hc => hk c (List.mem_cons_of_mem _ hc)) (hok t hb)
  have hdefine : ∀ (m : Machine) (x : Name) (v : Value), m.Plain →
      (∀ t, m.define x v = .ok t → t.Plain) ∧
      Throws (¬ ·.Foreign) (m.define x v) := fun m x v hm => by
    rw [Machine.define, Store.define]
    cases m.store.frames[Eval.globalFrame]? with
    | none => exact ⟨fun t ht => by cases ht; exact hm, .ok _⟩
    | some fr =>
      dsimp only
      rw [Frame.define]
      split
      · exact ⟨fun t ht => (by cases ht), .error id⟩
      · exact ⟨fun t ht => by cases ht; exact hm, .ok _⟩
  obtain ⟨hok, herr⟩ := hfold Builtin.all
    (k := fun m b => m.define b.name (.builtin b)) (fun b _ m hm => hdefine m _ _ hm)
    (m := Machine.initial) (fun i c hc => by cases hc)
  rw [load]
  cases hb : Builtin.all.foldlM (fun m b => m.define b.name (.builtin b)) Machine.initial with
  | error e => exact ⟨fun t ht => (by cases ht), .error (herr e hb)⟩
  | ok m =>
    refine hfold fs (fun f hf m hm => hdefine _ _ _ fun i c hi => ?_) (hok m hb)
    change (m.closures.push _)[i]? = some c at hi
    rw [Array.getElem?_push] at hi
    split at hi
    · cases hi
      exact fun x hx => h f hf x (FunctionDef.mem_nodes_of_statements hx)
    · exact hm i c hi

/-- A machine with plain code ends by no foreign error. -/
theorem not_foreign {fs : List Function} {main : Function}
    (h : ∀ f ∈ fs, ∀ x ∈ f.code.nodes, x.Plain) (hmain : ∀ x ∈ main.code.nodes, x.Plain)
    {lines : List Text} {e : RunError} (he : EndsWith fs main ⟨lines, some (.failed e)⟩) :
    ¬ e.Foreign := by
  obtain ⟨n, hn⟩ := he
  obtain ⟨hok, herr⟩ := load_native h
  rw [run] at hn
  cases hl : load fs with
  | error e' =>
    rw [hl] at hn
    cases hn
    exact herr e hl
  | ok m =>
    rw [hl] at hn
    have ho : Run.Native (callClosure n main.closure []) :=
      (natives n).callClosure fun x hx => hmain x (FunctionDef.mem_nodes_of_statements hx)
    replace ho := ho m (hok m hl)
    dsimp only at hn
    cases hc : callClosure n main.closure [] m with
    | done a t =>
      rw [hc] at hn
      cases hn
    | interrupted w t =>
      rw [hc] at hn ho
      cases hn
      exact ho.2 e rfl
    | outOfFuel =>
      rw [hc] at hn
      cases hn

end Regional

/-- If the operators of a program are those of the language, what it is transformed to ends by no
    foreign error. -/
theorem Program.not_foreign_of_transform {p : Program Span} {o : Options} {t : TransformedProgram}
    (hsrc : p.IsSource) (hplain : ∀ fn, p.IsCode fn → ∀ x ∈ fn.number.nodes, x.Plain)
    (h : p.transform o = .ok t) (hok : t.ok) {lines : List Text} {e : RunError}
    (he : t.program.EndsWith ⟨lines, some (.failed e)⟩) : ¬ e.Foreign := by
  obtain ⟨fs, main, hmeans⟩ := means_of_transform h hok
  obtain ⟨u, hu, -, hends⟩ := hmeans.transform hsrc
  obtain rfl : t = u := Except.ok.inj (h.symm.trans hu)
  refine Regional.not_foreign (fun f hf => ?_) ?_ ((hends _).1 he)
  · obtain ⟨i, hi, rfl⟩ := List.getElem_of_mem hf
    have hlt := hmeans.functions.length_eq ▸ hi
    have hm : (p.functions[i]).Means _ fs[i] := hmeans.functions.get hlt hi
    rw [hm.code]
    exact hplain _ (.inl (List.getElem_mem hlt))
  · rw [hmeans.main.code]
    exact hplain _ (.inr rfl)

end FlatScope
