import FlatScope.Eval
import FlatScope.Proofs.Environment
import FlatScope.Signal
import FlatScope.Syntax.Numbering

/-!
# Where early exits lead

An early exit leaves the code that it stands in by itself or by the return of a signal
(`Stmt.leaving?`). Around it are the loops, the calls of wrappers and the function that it comes
through, from the inside out (`Level`). At the call of a wrapper it goes on as the statements behind
the call say, which can be read off their text (`Stmt.reactionOfList?`), until it arrives at the
loop or the function that it is for (`arrive`).

The reading of the text is right: when the statements are run, with the signal in its variable, they
end as it says (`Stmt.reactionOfList?_sound`).
-/

namespace FlatScope

/-! ## Leaving code -/

/-- How a statement leaves the code that it stands in: by an early exit itself or by the return of a
    signal of its kind, with the value of a `return`. -/
structure Leaving where
  bySignal : Bool
  kind : Exit
  value : Option (Expr Span)

/-- How a statement leaves the code that it stands in, if it does. -/
def Stmt.leaving? : Stmt Span → Option Leaving
  | .brk _ => some ⟨false, .brk, none⟩
  | .cont _ => some ⟨false, .cont, none⟩
  | .ret _ none => some ⟨false, .ret, none⟩
  | .ret _ (some (.signal _ k v)) => k.map (⟨true, ·, v⟩)
  | .ret _ (some e) => some ⟨false, .ret, some e⟩
  | _ => none

/-! ## What is done about a signal -/

/-- What is done after the call of a wrapper. -/
inductive Reaction where
  | goOn
  | breaks
  | continues
  /-- Returns the value that the signal carries. -/
  | returnsValue
  /-- Returns the signal. -/
  | propagates
  deriving DecidableEq, Repr

/-- What a test of the variable `sig` finds, with a signal of the given kind in it. -/
def Expr.finds? (sig : Name) (kind : SignalKind) : Expr Span → Option Bool
  | .signalIs _ (.name _ x) k => if x = sig then some (k = kind) else none
  | .unary _ .not e => (e.finds? sig kind).map (!·)
  | _ => none

mutual

/-- What a statement does, with a signal of the given kind in the variable `sig`. Nothing is said
    about statements of other forms than those behind the call of a wrapper. -/
def Stmt.reaction? (sig : Name) (kind : SignalKind) : Stmt Span → Option Reaction
  | .brk _ => some .breaks
  | .cont _ => some .continues
  | .ret _ (some (.name _ x)) => if x = sig then some .propagates else none
  | .ret _ (some (.signalValue _ (.name _ x))) => if x = sig then some .returnsValue else none
  | .assignment _ (.name _ x) (.name _ _) => if x = sig then none else some .goOn
  | .branch _ c t none =>
    match c.finds? sig kind with
    | some true => t.reaction? sig kind
    | some false => some .goOn
    | none => none
  | _ => none

/-- What statements do, with a signal of the given kind in the variable `sig`. -/
def Stmt.reactionOfList? (sig : Name) (kind : SignalKind) : List (Stmt Span) → Option Reaction
  | [] => some .goOn
  | s :: ss =>
    match s.reaction? sig kind with
    | some .goOn => Stmt.reactionOfList? sig kind ss
    | r => r

/-- What a block without names of its own does, with a signal of the given kind in the variable
    `sig`. -/
def Block.reaction? (sig : Name) (kind : SignalKind) : Block Span → Option Reaction
  | .mk m ss => if (Block.mk m ss).lexicals = [] then Stmt.reactionOfList? sig kind ss else none

end

section Lists

variable {sig : Name} {kind : SignalKind} {x : Stmt Span} {ss : List (Stmt Span)}

theorem Stmt.reactionOfList?_goOn (h : x.reaction? sig kind = some .goOn) :
    Stmt.reactionOfList? sig kind (x :: ss) = Stmt.reactionOfList? sig kind ss := by
  rw [Stmt.reactionOfList?, h]

theorem Stmt.reactionOfList?_leave {r : Reaction} (h : x.reaction? sig kind = some r)
    (hr : r ≠ .goOn) : Stmt.reactionOfList? sig kind (x :: ss) = some r := by
  rw [Stmt.reactionOfList?, h]
  cases r with
  | goOn => exact absurd rfl hr
  | _ => rfl

end Lists

/-! ## From level to level -/

/-- What code stands in. -/
inductive Level where
  /-- The loop that stands for the loop of the given number. -/
  | loop (id : NodeId)
  /-- A wrapper whose call puts its result into a variable, and the statements behind the call. -/
  | call (sig : Name) (handlers : List (Stmt Span))
  /-- A wrapper whose result nobody looks at. -/
  | plainCall
  /-- The function that stands for the function of the given number. -/
  | function (id : NodeId)

/-- The end of an early exit: a loop that is broken or continued, or a function that returns. -/
inductive Arrival where
  | jumped (e : Exit) (loop : NodeId)
  | returned (fn : NodeId) (value : Option (Expr Span))

/-- How a reaction leaves the code around the call, if it does. -/
def Reaction.leaving? (l : Leaving) : Reaction → Option Leaving
  | .goOn => none
  | .breaks => some ⟨false, .brk, none⟩
  | .continues => some ⟨false, .cont, none⟩
  | .returnsValue => some ⟨false, .ret, l.value⟩
  | .propagates => some l

/-- Where an early exit arrives, through the levels around it from the inside out. A `break` or
    `continue` is for the first loop, and a `return` for the first function. A wrapper lets nothing
    through but signals, and these go on from its call as the statements behind it say. -/
def arrive : List Level → Leaving → Option Arrival
  | [], _ => none
  | .loop id :: ls, l =>
    if l.bySignal || l.kind = .ret then arrive ls l else some (.jumped l.kind id)
  | .call sig handlers :: ls, l =>
    if l.bySignal then
      match (Stmt.reactionOfList? sig (some l.kind) handlers).bind (·.leaving? l) with
      | some l => arrive ls l
      | none => none
    else none
  | .plainCall :: _, _ => none
  | .function id :: _, l =>
    if l.bySignal || l.kind ≠ .ret then none else some (.returned id l.value)

/-! ## Running the statements behind a call -/

/-- The kind of the signal that a value is. -/
def Value.signalKind? : Value → Option SignalKind
  | .noSignal => some none
  | .signal k _ => some (some k)
  | _ => none

theorem Value.isSignal_eq {v : Value} {kind : SignalKind} (h : v.signalKind? = some kind)
    (k : SignalKind) : v.isSignal k = decide (k = kind) := by
  cases v with
  | noSignal | signal =>
    cases h
    cases k <;> simp [isSignal]
  | _ => cases h

/-- Statements behind the call of a wrapper end as a reaction says, with the value `v` in the
    variable `sig`, if they end and do not fail. -/
inductive Reaction.Ends (env : FrameId) (sig : Name) (v : Value) : Reaction →
    Outcome Store Unit → Prop where
  | unfinished {r : Reaction} : Ends env sig v r .outOfFuel
  | failed {r : Reaction} {e : RunError} {s : Store} : Ends env sig v r (.interrupted (.failed e) s)
  | goOn {s : Store} (kept : s.get env sig = .ok v) : Ends env sig v .goOn (.done () s)
  | breaks {s : Store} : Ends env sig v .breaks (.interrupted .broke s)
  | continues {s : Store} : Ends env sig v .continues (.interrupted .continued s)
  | returnsValue {s : Store} {k : Exit} {u : Value} (value : v = .signal k u) :
    Ends env sig v .returnsValue (.interrupted (.returned u) s)
  | propagates {s : Store} : Ends env sig v .propagates (.interrupted (.returned v) s)

section Run

variable {σ α β : Type} {x : Process σ α} {f : α → Process σ β} {s t : σ}

theorem Process.bind_done {a : α} (h : x s = .done a t) : (x >>= f) s = f a t := by
  change Process.bind x f s = _
  rw [Process.bind, h]

theorem Process.bind_outOfFuel (h : x s = .outOfFuel) : (x >>= f) s = .outOfFuel := by
  change Process.bind x f s = _
  rw [Process.bind, h]

theorem Process.bind_interrupted {w : Interrupt} (h : x s = .interrupted w t) :
    (x >>= f) s = .interrupted w t := by
  change Process.bind x f s = _
  rw [Process.bind, h]

end Run

variable {sig : Name} {kind : SignalKind} {env : FrameId} {v : Value} {s : Store}

/-- Reading the variable of a signal. -/
theorem Eval.expr_name (hg : s.get env sig = .ok v) (m : Span) (fuel : Nat) :
    Eval.expr fuel (.name m sig) env s = .outOfFuel ∨
      Eval.expr fuel (.name m sig) env s = .done v s := by
  cases fuel with
  | zero => exact .inl rfl
  | succ fuel =>
    refine .inr ?_
    simp only [Eval.expr, Process.read, hg]

/-- A test of a signal finds what it is read to find. -/
theorem Expr.finds?_sound (hv : v.signalKind? = some kind) (hg : s.get env sig = .ok v) :
    ∀ {c : Expr Span} {b : Bool}, c.finds? sig kind = some b → ∀ fuel,
      Eval.expr fuel c env s = .outOfFuel ∨ Eval.expr fuel c env s = .done (.bool b) s := by
  intro c b hc fuel
  fun_induction Expr.finds? sig kind c generalizing b fuel with
  | case1 m k k' =>
    cases hc
    cases fuel with
    | zero => exact .inl rfl
    | succ fuel =>
      rw [Eval.expr]
      rcases Eval.expr_name hg k fuel with h | h
      · exact .inl (Process.bind_outOfFuel h)
      · refine .inr ((Process.bind_done h).trans ?_)
        rw [v.isSignal_eq hv]
        rfl
  | case2 => cases hc
  | case3 m e ih =>
    obtain ⟨b', hb', rfl⟩ := Option.map_eq_some_iff.1 hc
    cases fuel with
    | zero => exact .inl rfl
    | succ fuel =>
      rw [Eval.expr]
      rcases ih hb' fuel with h | h
      · exact .inl (Process.bind_outOfFuel h)
      · refine .inr ((Process.bind_done h).trans ?_)
        cases b' <;> rfl
  | case4 => cases hc

theorem Eval.failWith_failed {α : Type} (e : Text → RunError) (u : Value) (s : Store) :
    ∃ e', (Eval.failWith e u : Run α) s = .interrupted (.failed e') s := by
  cases h : u.render s with
  | error e' => exact ⟨e', Process.bind_interrupted (by simp only [Process.read, h])⟩
  | ok t => exact ⟨e t, Process.bind_done (by simp only [Process.read, h])⟩

/-- The value of a signal, or the error of there being none. -/
theorem Eval.expr_signalValue (hg : s.get env sig = .ok v) (m k : Span) (fuel : Nat) :
    Eval.expr fuel (.signalValue m (.name k sig)) env s = .outOfFuel ∨
      (∃ e u, v = .signal e u ∧
        Eval.expr fuel (.signalValue m (.name k sig)) env s = .done u s) ∨
      ∃ e, Eval.expr fuel (.signalValue m (.name k sig)) env s = .interrupted (.failed e) s := by
  cases fuel with
  | zero => exact .inl rfl
  | succ fuel =>
    rw [Eval.expr]
    rcases Eval.expr_name hg k fuel with h | h
    · exact .inl (Process.bind_outOfFuel h)
    · rw [Process.bind_done h]
      cases v with
      | signal e u => exact .inr (.inl ⟨e, u, rfl, rfl⟩)
      | _ => exact .inr (.inr (Eval.failWith_failed _ _ s))

/-- Copying a variable to another one keeps a signal. -/
theorem Reaction.ends_assignment (hg : s.get env sig = .ok v) {x : Name} (hx : x ≠ sig) (y : Name)
    (m k l : Span) (fuel : Nat) : Ends env sig v .goOn
      (Eval.stmt (fuel + 1) (.assignment m (.name k x) (.name l y)) env s) := by
  rw [Eval.stmt]
  cases fuel with
  | zero => exact .unfinished
  | succ fuel =>
    cases hy : s.get env y with
    | error e =>
      have hread : Eval.expr (fuel + 1) (.name l y) env s = .interrupted (.failed e) s := by
        simp only [Eval.expr, Process.read, hy]
      rw [Process.bind_interrupted hread]
      exact .failed
    | ok w =>
      have hread : Eval.expr (fuel + 1) (.name l y) env s = .done w s := by
        simp only [Eval.expr, Process.read, hy]
      rw [Process.bind_done hread]
      simp only [Eval.assign, Eval.setVariable, Process.changeAt]
      cases s.setTarget env x with
      | error e => exact .failed
      | ok owner => exact .goOn ((Store.get_write_ne hx.symm).trans hg)

/-- What is behind the call of a wrapper ends as it is read, within any number of steps. -/
theorem Reaction.ends_of_reads (hv : v.signalKind? = some kind) (fuel : Nat) :
    (∀ {x : Stmt Span} {r : Reaction} {s : Store}, s.get env sig = .ok v →
      x.reaction? sig kind = some r → r.Ends env sig v (Eval.stmt fuel x env s)) ∧
    (∀ {ss : List (Stmt Span)} {r : Reaction} {s : Store}, s.get env sig = .ok v →
      Stmt.reactionOfList? sig kind ss = some r → r.Ends env sig v (Eval.stmts fuel ss env s)) ∧
    (∀ {b : Block Span} {r : Reaction} {s : Store}, s.get env sig = .ok v →
      b.reaction? sig kind = some r → r.Ends env sig v (Eval.block fuel b env s)) := by
  induction fuel with
  | zero => exact ⟨fun _ _ => .unfinished, fun _ _ => .unfinished, fun _ _ => .unfinished⟩
  | succ fuel ih =>
    -- a statement by its form, a list by how its first statement reacts, a block by its list
    obtain ⟨ihs, ihl, ihb⟩ := ih
    refine ⟨fun {x r s} hg hr => ?_, fun {ss r s} hg hr => ?_, fun {b r s} hg hr => ?_⟩
    · unfold Stmt.reaction? at hr
      split at hr
      · cases hr
        exact .breaks
      · cases hr
        exact .continues
      · split at hr
        case isFalse => cases hr
        case isTrue hx =>
          cases hr
          subst hx
          rw [Eval.stmt]
          rcases Eval.expr_name hg _ fuel with h | h
          · rw [Process.bind_outOfFuel h]
            exact .unfinished
          · rw [Process.bind_done h]
            exact .propagates
      · split at hr
        case isFalse => cases hr
        case isTrue hx =>
          cases hr
          subst hx
          rw [Eval.stmt]
          rcases Eval.expr_signalValue hg _ _ fuel with h | ⟨e, u, hu, h⟩ | ⟨e, h⟩
          · rw [Process.bind_outOfFuel h]
            exact .unfinished
          · rw [Process.bind_done h]
            exact .returnsValue hu
          · rw [Process.bind_interrupted h]
            exact .failed
      · split at hr
        · cases hr
        case isFalse hx =>
          cases hr
          exact ends_assignment hg hx _ _ _ _ fuel
      · rename_i m c t
        rw [Eval.stmt]
        cases hc : c.finds? sig kind with
        | none =>
          rw [hc] at hr
          cases hr
        | some b =>
          rw [hc] at hr
          rcases Expr.finds?_sound hv hg hc fuel with h | h
          · rw [Process.bind_outOfFuel h]
            exact .unfinished
          · rw [Process.bind_done h]
            cases b with
            | true => exact ihb hg hr
            | false =>
              cases hr
              exact .goOn hg
      · cases hr
    · cases ss with
      | nil =>
        cases hr
        exact .goOn hg
      | cons x ss =>
        rw [Eval.stmts]
        rw [Stmt.reactionOfList?] at hr
        cases hx : x.reaction? sig kind with
        | none =>
          rw [hx] at hr
          cases hr
        | some q =>
          have hends := ihs hg hx
          rw [hx] at hr
          generalize ho : Eval.stmt fuel x env s = o at hends
          cases hends with
          | goOn hkept =>
            rw [Process.bind_done ho]
            exact ihl hkept hr
          | unfinished =>
            rw [Process.bind_outOfFuel ho]
            exact .unfinished
          | failed =>
            rw [Process.bind_interrupted ho]
            exact .failed
          | returnsValue hu =>
            cases hr
            rw [Process.bind_interrupted ho]
            exact .returnsValue hu
          | _ =>
            cases hr
            rw [Process.bind_interrupted ho]
            constructor
    · obtain ⟨m, ss⟩ := b
      rw [Block.reaction?] at hr
      split at hr
      case isFalse => cases hr
      case isTrue hl =>
        have hframe : Eval.blockFrame (.mk m ss) env s = .done env s := by
          rw [Eval.blockFrame, hl]
          rfl
        rw [Eval.block, Process.bind_done hframe]
        exact ihl hg hr

/-- With a signal in its variable, the statements behind the call of a wrapper end as they are
    read. -/
theorem Stmt.reactionOfList?_sound (hv : v.signalKind? = some kind) (hg : s.get env sig = .ok v)
    {handlers : List (Stmt Span)} {r : Reaction}
    (hr : Stmt.reactionOfList? sig kind handlers = some r) (fuel : Nat) :
    r.Ends env sig v (Eval.stmts fuel handlers env s) :=
  (Reaction.ends_of_reads hv fuel).2.1 hg hr

end FlatScope
