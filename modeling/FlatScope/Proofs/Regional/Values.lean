import FlatScope.Proofs.Regional.Signals

/-!
# Expressions of lowered programs

Operators, arrays and the functions that every program can call keep the two stores alike
(`World.store_sim`). A name of lowered code is a variable at the location of the binding that the
name of the source means, or a name from outside of all functions (`World.read_sim`,
`World.assignName_sim`, `World.declare_sim`).
-/

namespace FlatScope

open Process

/-- What a computation yields, as the result of a process. -/
def Process.raised {α : Type} : Except RunError α → Except Interrupt α := Except.mapError .failed

theorem Process.read_eq {σ α : Type} (x : σ → Except RunError α) (s : σ) :
    Process.read x s = .ended (raised (x s)) s := by
  rw [Process.read]
  cases x s <;> rfl

namespace Regional

namespace World

variable {w w' : World} {f : FrameId} {i : Nat} {v v' : Value}

theorem both_raised {κ : Nat → Option Nat} {r r' : Except RunError Value}
    (h : Value.LikeResult κ r r') : Both (Value.Like κ) Fails (raised r) (raised r') := by
  cases h with
  | ok hv => exact hv
  | error e => exact .mk e

/-! ## Steps on the stores -/

/-- Two steps that keep the stores alike. -/
theorem store_sim {α β : Type} {x : FlatScope.Run α} {y : FlatScope.Run β}
    {φ : World → α → β → Prop}
    (h : ∀ {w' s m}, w.Le w' → w'.Matches s m → ∃ r s' r' t', x s = .ended r s' ∧
      y m.store = .ended r' t' ∧ Store.Moves w'.closure s m.store s' t' ∧ Both (φ w') Fails r r') :
    lowering.Sim i w (fun w => Both (φ w) Fails) (fun _ => x) (fun _ => onStore y) := by
  refine .now fun w' s m hle hm => ?_
  obtain ⟨r, s', r', t', hx, hy, hmoves, hr⟩ := h hle hm
  refine ⟨r, s', hx, .inr ⟨r', { m with store := t' }, ?_, w', .refl w', hm.moves hmoves, hr⟩⟩
  rw [onStore, hy]
  cases r' <;> rfl

/-- Two steps that only read the stores. -/
theorem readStore_sim {x y : Store → Except RunError Value}
    (h : ∀ {w' s m}, w.Le w' → w'.Matches s m → Value.LikeResult w'.closure (x s) (y m.store)) :
    lowering.Sim i w Yields (fun _ => .read x) (fun _ => onStore (.read y)) :=
  store_sim fun {_ s m} hle hm => ⟨raised (x s), s, raised (y m.store), m.store, read_eq x s,
    read_eq y m.store, hm.store.moves, both_raised (h hle hm)⟩

/-- An operator yields the same for operands that are the same. -/
theorem operate_sim {x y : Store → Except RunError Value}
    (h : ∀ {w' s m}, w.Le w' → w'.Matches s m → x s = y m.store ∧ Store.IsPlainResult (x s)) :
    lowering.Sim i w Yields (fun _ => Eval.operate x) (fun _ => onStore (Eval.operate y)) := by
  refine store_sim fun {w' s m} hle hm => ?_
  obtain ⟨heq, hplain⟩ := h hle hm
  cases hx : x s with
  | error e =>
    refine ⟨.error (.failed e), s, .error (.failed e), m.store, ?_, ?_, hm.store.moves, .mk e⟩
    · exact bind_error (x := Process.read x) (by rw [read_eq, hx]; rfl)
    · exact bind_error (x := Process.read y) (by rw [read_eq, ← heq, hx]; rfl)
  | ok v =>
    obtain ⟨hsame, hv, hmoves⟩ := hm.store.identify (hplain v hx)
    refine ⟨.ok (s.identify v).1, _, .ok (m.store.identify v).1, _, ?_, ?_, hmoves, ?_⟩
    · exact (bind_ok (x := Process.read x) (by rw [read_eq, hx]; rfl)).trans rfl
    · exact (bind_ok (x := Process.read y) (by rw [read_eq, ← heq, hx]; rfl)).trans rfl
    · change Value.Like _ _ _
      rw [← hsame]
      exact .plain hv

/-- A value is the wrong one for both programs. -/
theorem failWith_sim {α β : Type} {φ : World → α → β → Prop} (e : Text → RunError)
    (hv : v.Like w.closure v') : lowering.Sim i w (fun w => Both (φ w) Fails)
      (fun _ => Eval.failWith e v) (fun _ => onStore (Eval.failWith e v')) := by
  refine store_sim fun {w' s m} hle hm => ?_
  have hrender := hm.store.render (hv.mono hle.closure)
  cases hs : v.render s with
  | error d =>
    refine ⟨.error (.failed d), s, .error (.failed d), m.store, ?_, ?_, hm.store.moves, .mk d⟩
    · exact bind_error (x := Process.read fun s => v.render s) (by rw [read_eq, hs]; rfl)
    · exact bind_error (x := Process.read fun s => v'.render s)
        (by rw [read_eq, ← hrender, hs]; rfl)
  | ok t =>
    refine ⟨.error (.failed (e t)), s, .error (.failed (e t)), m.store, ?_, ?_, hm.store.moves,
      .mk _⟩
    · exact (bind_ok (x := Process.read fun s => v.render s) (by rw [read_eq, hs]; rfl)).trans rfl
    · exact (bind_ok (x := Process.read fun s => v'.render s)
        (by rw [read_eq, ← hrender, hs]; rfl)).trans rfl

theorem unary_sim (op : UnaryOp) (hv : v.Like w.closure v') : lowering.Sim i w Yields
    (fun _ => Eval.operate fun s => v.unary s op)
    (fun _ => onStore (Eval.operate fun s => v'.unary s op)) :=
  operate_sim fun hle hm => ⟨hm.store.unary op (hv.mono hle.closure), Store.isPlainResult_unary op⟩

theorem binary_sim (op : BinaryOp) {u u' : Value} (hv : v.Like w.closure v')
    (hu : u.Like w.closure u') : lowering.Sim i w Yields
      (fun _ => Eval.operate fun s => v.binary s op u)
      (fun _ => onStore (Eval.operate fun s => v'.binary s op u')) :=
  operate_sim fun hle hm => ⟨hm.store.binary hm.injective op (hv.mono hle.closure)
    (hu.mono hle.closure), Store.isPlainResult_binary op⟩

theorem array_sim {vs vs' : List Value} (hv : Value.AreLike w.closure vs vs') :
    lowering.Sim i w Yields (fun _ => .make fun s => s.newArray vs.toArray)
      (fun _ => onStore (.make fun s => s.newArray vs'.toArray)) := by
  refine store_sim fun {w' s m} hle hm => ?_
  have hwv : Value.AreLike w'.closure vs.toArray.toList vs'.toArray.toList := hv.mono hle.closure
  obtain ⟨hsame, hmoves⟩ := hm.store.newArray hwv
  refine ⟨.ok (s.newArray vs.toArray).1, _, .ok (m.store.newArray vs'.toArray).1, _, rfl, rfl,
    hmoves, ?_⟩
  change Value.Like _ _ _
  rw [← hsame]
  exact .plain rfl

theorem element_sim {u u' : Value} (hv : v.Like w.closure v') (hu : u.Like w.closure u') :
    lowering.Sim i w Yields (fun _ => .read fun s => v.element s u)
      (fun _ => onStore (.read fun s => v'.element s u')) :=
  readStore_sim fun hle hm => hm.store.element (hv.mono hle.closure) (hu.mono hle.closure)

/-- Both programs do something, or fail. -/
abbrev Does (_ : World) : Except Interrupt Unit → Except Interrupt Unit → Prop :=
  Both (fun _ _ => True) Fails

theorem setElement_sim {b b' u u' : Value} (hb : b.Like w.closure b') (hu : u.Like w.closure u')
    (hv : v.Like w.closure v') : lowering.Sim i w Does
      (fun _ => .changeAt (fun _ => b.elementTarget u) fun (id, i) s => s.setElement id i v)
      (fun _ => onStore (.changeAt (fun _ => b'.elementTarget u') fun (id, i) s =>
        s.setElement id i v')) := by
  refine store_sim fun {w' s m} hle hm => ?_
  have htarget := hb.elementTarget hu
  cases ht : b.elementTarget u with
  | error e =>
    rw [ht] at htarget
    exact ⟨.error (.failed e), s, .error (.failed e), m.store,
      rfl, by rw [changeAt, ← htarget]; rfl, hm.store.moves, .mk e⟩
  | ok t =>
    rw [ht] at htarget
    exact ⟨.ok (), _, .ok (), _, rfl, by rw [changeAt, ← htarget]; rfl,
      hm.store.setElement t.1 t.2 (hv.mono hle.closure), trivial⟩

/-- The same sequence. -/
theorem sequence_sim (hv : v.Like w.closure v') :
    lowering.Sim i w (fun _ => Both (fun q q' => q = q') Fails) (fun _ => Eval.sequenceOf v)
      (fun _ => onStore (Eval.sequenceOf v')) := by
  have hsame (q : Eval.Sequence) : lowering.Sim i w (fun _ => Both (fun q q' => q = q') Fails)
      (fun _ => pure q) (fun _ => onStore (pure q)) :=
    store_sim fun {_ s m} _ hm => ⟨.ok q, s, .ok q, m.store, rfl, rfl, hm.store.moves, rfl⟩
  cases hv with
  | closure h => exact failWith_sim .notIterable (.closure h)
  | plain h => cases v with
    | array id => exact hsame (.array id)
    | text t => exact hsame (.text t)
    | _ => exact failWith_sim .notIterable (.plain h)

/-! ## Calls -/

/-- Closures that are the same do the same within `i` steps. -/
def Calls (i : Nat) : Prop := ∀ {w : World} {C : FlatScope.Closure} {D : Closure}
  {args args' : List Value}, w.Represents C D → Value.AreLike w.closure args args' →
    lowering.Sim i w Yields (fun n => Eval.callClosure n C args) (fun k => callClosure k D args')

theorem call_closure (k : Nat) (d : Nat) (args : List Value) (m : Machine) :
    call (k + 1) (.closure d) args m = match m.closures[d]? with
      | none => .interrupted (.failed .target) m
      | some D => callClosure k D args m := rfl

/-- A call of a closure of the machine. -/
theorem leads_closure {m : Machine} {d : Nat} {D : Closure} (h : m.closures[d]? = some D)
    (args : List Value) :
    Leads (fun k => call k (.closure d) args) m (fun k => callClosure k D args) m := by
  refine .step rfl fun k => ?_
  rw [call_closure, h]

theorem builtin_sim (b : Builtin) {args args' : List Value}
    (ha : Value.AreLike w.closure args args') : lowering.Sim i w Yields
      (fun _ s => match b.call s args with
        | (.ok v, s) => .done v s
        | (.error e, s) => .interrupted (.failed e) s)
      (fun _ => onStore fun s => match b.call s args' with
        | (.ok v, s) => .done v s
        | (.error e, s) => .interrupted (.failed e) s) := by
  refine store_sim fun {w' s m} hle hm => ?_
  obtain ⟨hr, hmoves⟩ := hm.store.builtin b (ha.mono hle.closure)
  generalize b.call s args = o, b.call m.store args' = o' at hr hmoves ⊢
  obtain ⟨q, s₁⟩ := o
  obtain ⟨q', t₁⟩ := o'
  exact ⟨raised q, s₁, raised q', t₁, by cases q <;> rfl, by cases q' <;> rfl, hmoves,
    both_raised hr⟩

theorem call_sim (h : Calls i) (hv : v.Like w.closure v') {args args' : List Value}
    (ha : Value.AreLike w.closure args args') :
    lowering.Sim i w Yields (fun n => Eval.call n v args) (fun k => call k v' args') := by
  cases hv with
  | @closure c d hcd =>
    refine .leads fun w' s m hle hm => ?_
    obtain ⟨C, D, hC, hD, hCD⟩ := hm.closures (hle.closure hcd)
    exact ⟨w', s, m, _, _, .refl w', hm, Eval.leads_closure hC args, leads_closure hD args',
      h hCD (ha.mono hle.closure)⟩
  | plain hplain =>
    cases v with
    | builtin b => exact .step rfl rfl (fun n => rfl) (fun k => rfl) fun j _ => builtin_sim b ha
    | closure => cases hplain
    | _ => exact .step rfl rfl (fun n => rfl) (fun k => rfl) fun j _ =>
        failWith_sim .notCallable (.plain hplain)

/-! ## Variables -/

variable {p : LoweringPlan} {r : Region} {sc : ScopeId} {env : Env} {globals : List Name}

/-- What a name that is used in a scope is lowered to. -/
theorem Stands.refName (h : w.Stands p r sc f env) {node : NodeId} {n : Name} {isWrite : Bool}
    (hr : p.analysis.scoping.Refers globals sc node n isWrite) :
    (∃ b, meaning? p.analysis.scoping node = some b ∧ w.At f (p.refName r node n) (env b)) ∨
      meaning? p.analysis.scoping node = none ∧ w.Sees n f 0 ∧ p.refName r node n = n := by
  obtain ⟨x, hx, -, -, -, hb, hglobal⟩ := hr
  rw [meaning?, LoweringPlan.refName, hx, Option.bind_some, hb]
  cases hl : p.analysis.scoping.lookup? sc n with
  | none => exact .inr ⟨rfl, h.global hl (hglobal hl).2, rfl⟩
  | some b => exact .inl ⟨b.id, rfl, h.known hl⟩

theorem read_sim (h : w.Stands p r sc f env) {node : NodeId} {n : Name} {isWrite : Bool}
    (hr : p.analysis.scoping.Refers globals sc node n isWrite) (span : Span) :
    lowering.Sim i w Yields (fun k => Eval.expr k (.name span (p.refName r node n)) f)
      (fun _ => read p.analysis.scoping node n env) := by
  refine .left rfl (fun _ => rfl) ?_
  change lowering.Sim i w Yields (fun _ => Process.read fun s => s.get f _) _
  rcases h.refName hr with ⟨b, hb, hat⟩ | ⟨hb, hsees, hn⟩
  · rw [read, hb]
    refine .now fun w' s m hle hm => ?_
    obtain ⟨v, hv, hlike⟩ := hm.get (hat.mono hle)
    exact ⟨.ok v, s, by rw [read_eq, hv]; rfl, .inr ⟨.ok _, m, rfl, w', .refl w', hm, hlike⟩⟩
  · rw [read, hb, hn]
    exact readStore_sim fun hle hm => hm.getGlobal (hsees.mono hle)

/-- Assigning to a variable at a location. -/
theorem set_sim {x : Name} {l : Location} (h : w.At f x l) (hv : v.Like w.closure v') :
    lowering.Sim i w Does (fun _ => Eval.setVariable f x v) (fun _ => set l v') := by
  refine .now fun w' s m hle hm => ?_
  obtain ⟨htarget, hm'⟩ := hm.set (h.mono hle) (hv.mono hle.closure)
  exact ⟨.ok (), _, by rw [Eval.setVariable, changeAt, htarget]; rfl,
    .inr ⟨.ok (), _, rfl, w', .refl w', hm', trivial⟩⟩

theorem assignName_sim (h : w.Stands p r sc f env) {node : NodeId} {n : Name} {isWrite : Bool}
    (hr : p.analysis.scoping.Refers globals sc node n isWrite) (hv : v.Like w.closure v') :
    lowering.Sim i w Does (fun _ => Eval.setVariable f (p.refName r node n) v)
      (fun _ => assignName p.analysis.scoping node n v' env) := by
  rcases h.refName hr with ⟨b, hb, hat⟩ | ⟨hb, hsees, hn⟩
  · rw [assignName, hb]
    exact set_sim hat hv
  · rw [assignName, hb, hn]
    refine .now fun w' s m hle hm => ?_
    rcases hm.setGlobal (hsees.mono hle) (hv.mono hle.closure) with ⟨e, hs, ht⟩ | ⟨hs, ht, hm'⟩ <;>
      change m.store.setTarget Eval.globalFrame n = _ at ht
    · refine ⟨.error (.failed e), s, by rw [Eval.setVariable, changeAt, hs]; rfl,
        .inr ⟨.error (.failed e), m, ?_, w', .refl w', hm, .mk e⟩⟩
      simp only [onStore, Eval.setVariable, changeAt, ht]
      rfl
    · refine ⟨.ok (), _, by rw [Eval.setVariable, changeAt, hs]; rfl,
        .inr ⟨.ok (), _, ?_, w', .refl w', hm', trivial⟩⟩
      simp only [onStore, Eval.setVariable, changeAt, ht]
      rfl

theorem declare_sim (h : w.Stands p r sc f env) {node : NodeId} {n : Name} {b : Binding}
    (hd : p.analysis.scoping.declared? node = some b)
    (hl : p.analysis.scoping.lookup? sc n = some b) (hv : v.Like w.closure v') :
    lowering.Sim i w Does (fun _ => Eval.setVariable f (p.nameOf r b.id) v)
      (fun _ => declare p.analysis.scoping node v' env) := by
  rw [declare, hd]
  exact set_sim (h.known hl) hv

end World

end Regional

end FlatScope
