import FlatScope.Proofs.Lowering.Rendered

/-!
# The signals that wrappers raise

The code of a wrapper is left early with a signal that it makes itself, or with one of a wrapper
that it calls and that the statements behind the call hand on. Which signals these are can be read
off the lowered code (`Raises`). The wrappers have their exits from the source, where loops are
counted and no wrapper is known.

The two agree, for every nesting of blocks, loops, wrappers and functions: the lowered code of a
region raises a signal just if the region is that of a wrapper and the source may be left by that
exit (`RaisesAs`).

* `FunctionDef.lower_raises`: every wrapper raises the signals of its exits and no others.
-/

namespace FlatScope

/-! ## Reading the signals off lowered code -/

/-- The call of a function whose result is put into a variable: the code of the function, the
    variable and the statements behind the call. -/
structure SignalCall where
  code : List (Stmt Span)
  signal : Name
  handlers : List (Stmt Span)

/-- The call in a statement before others, of a function that is made in the call. If a statement
    makes a function, the call may also be what the body of the loop behind it begins with. -/
def Stmt.callBefore : Stmt Span → List (Stmt Span) → List SignalCall
  | .declaration _ x _ (some (.call _ (.function _ _ b) _)), ss => [⟨b.statements, x, ss⟩]
  | .declaration _ n _ (some (.function _ _ b)),
      .loop _ _ (.mk _ (.declaration _ x _ (some (.call _ (.name _ f) _)) :: ss)) :: _ =>
    if f = n then [⟨b.statements, x, ss⟩] else []
  | _, _ => []

mutual

/-- The calls in a statement that are outside of the functions nested in it. -/
def Stmt.signalCalls : Stmt Span → List SignalCall
  | .block b => b.signalCalls
  | .branch _ _ t none => t.signalCalls
  | .branch _ _ t (some f) => t.signalCalls ++ f.signalCalls
  | .loop _ _ b => b.signalCalls
  | _ => []

def Stmt.signalCallsOfList : List (Stmt Span) → List SignalCall
  | [] => []
  | s :: ss => s.signalCalls ++ (s.callBefore ss ++ Stmt.signalCallsOfList ss)

/-- The calls in a block that are outside of the functions nested in it. -/
def Block.signalCalls : Block Span → List SignalCall
  | .mk _ ss => Stmt.signalCallsOfList ss

end

/-- A signal of the given kind is made among some nodes. -/
def Makes (e : Exit) (ns : List (Node Span)) : Prop := ∃ s v, .expr (.signal s (some e) v) ∈ ns

/-- Statements raise signals of the given kind: they make one outside of the functions nested in
    them, or call a function that raises one, which the statements behind the call return. -/
inductive Raises (e : Exit) : List (Stmt Span) → Prop
  | makes {ss : List (Stmt Span)} (h : Makes e (Stmt.ownOfList ss)) : Raises e ss
  | handsOn {ss : List (Stmt Span)} {c : SignalCall} (hc : c ∈ Stmt.signalCallsOfList ss)
    (h : Raises e c.code)
    (hr : Stmt.reactionOfList? c.signal (some e) c.handlers = some .propagates) : Raises e ss

/-- Code ends with the return of the marker. -/
def EndsWithMarker (code : List (Stmt Span)) : Prop :=
  ∃ before s t, code = before ++ [.ret s (some (.signal t none none))]

/-- What the `return`s in the code of a wrapper give back: a signal that is made there, or the
    variable of the call of another wrapper. -/
inductive ReturnsSignal (code : List (Stmt Span)) : Option (Expr Span) → Prop
  | made {s : Span} {e : Exit} {v : Option (Expr Span)} :
    ReturnsSignal code (some (.signal s (some e) v))
  | received {s : Span} {c : SignalCall} (hc : c ∈ Stmt.signalCallsOfList code)
    (ends : EndsWithMarker c.code) : ReturnsSignal code (some (.name s c.signal))

/-- The code and the call of a wrapper agree with its exits. A wrapper without exits returns nothing
    and is only called. Otherwise its code ends with the marker, all other `return`s in it give back
    signals, and it raises the signals of its exits and no others. -/
inductive RaisesExits (w : Wrapper) (code : List (Stmt Span)) (call : Expr Span) :
    List (Stmt Span) → Prop
  | never {s : Span} (exits : w.exits = [])
    (stays : ∀ s v, .stmt (.ret s v) ∉ Stmt.ownOfList code) :
    RaisesExits w code call [.expression s call]
  | early {before handlers : List (Stmt Span)} {s t u : Span} {x : Name} (exits : w.exits ≠ [])
    (ends : code = before ++ [.ret s (some (.signal t none none))])
    (returns : ∀ s v, .stmt (.ret s v) ∈ Stmt.ownOfList before → ReturnsSignal code v)
    (raises : ∀ e, Raises e code ↔ e ∈ w.exits) :
    RaisesExits w code call (.declaration u x .var (some call) :: handlers)

/-- That wrappers raise the signals of their exits, and functions of the source none. -/
def raisesExits : Demands :=
  ⟨fun _ _ out => ∀ e, ¬ Raises e out, RaisesExits⟩

/-! ## Statement by statement -/

section Makes

variable {e : Exit} {ns ms : List (Node Span)}

@[simp] theorem makes_nil : ¬ Makes e [] := fun ⟨_, _, h⟩ => List.not_mem_nil h

@[simp] theorem makes_append : Makes e (ns ++ ms) ↔ Makes e ns ∨ Makes e ms := by
  simp only [Makes, List.mem_append, exists_or]

@[simp] theorem makes_stmt {x : Stmt Span} : Makes e (.stmt x :: ns) ↔ Makes e ns := by
  simp [Makes]

@[simp] theorem makes_block {b : Block Span} : Makes e (.block b :: ns) ↔ Makes e ns := by
  simp [Makes]

@[simp] theorem makes_header {h : Header Span} : Makes e (.header h :: ns) ↔ Makes e ns := by
  simp [Makes]

/-- An expression that is no signal itself. -/
theorem makes_expr {x : Expr Span} (h : ∀ s k v, x ≠ .signal s k v) :
    Makes e (.expr x :: ns) ↔ Makes e ns := by
  constructor
  · rintro ⟨s, v, hm⟩
    rcases List.mem_cons.1 hm with he | hm
    · exact absurd (Node.expr.inj he).symm (h _ _ _)
    · exact ⟨s, v, hm⟩
  · exact fun ⟨s, v, hm⟩ => ⟨s, v, List.mem_cons_of_mem _ hm⟩

end Makes

/-- What a call hands on of the signals of the function. -/
def SignalCall.HandsOn (c : SignalCall) (e : Exit) : Prop :=
  Raises e c.code ∧ Stmt.reactionOfList? c.signal (some e) c.handlers = some .propagates

section Lists

variable {e : Exit} {x : Stmt Span} {xs ys : List (Stmt Span)}

theorem raises_iff : Raises e xs ↔
    Makes e (Stmt.ownOfList xs) ∨ ∃ c ∈ Stmt.signalCallsOfList xs, c.HandsOn e := by
  constructor
  · intro h
    cases h with
    | makes h => exact .inl h
    | handsOn hc h hr => exact .inr ⟨_, hc, h, hr⟩
  · rintro (h | ⟨c, hc, h, hr⟩)
    · exact .makes h
    · exact .handsOn hc h hr

theorem not_raises_nil : ¬ Raises e [] := by
  simp [raises_iff, Stmt.ownOfList, Stmt.signalCallsOfList]

/-- Statements raise what the first of them and the others raise. -/
theorem raises_cons : Raises e (x :: xs) ↔ (Makes e x.own ∨ ∃ c ∈ x.signalCalls, c.HandsOn e) ∨
    (∃ c ∈ x.callBefore xs, c.HandsOn e) ∨ Raises e xs := by
  simp only [raises_iff, Stmt.ownOfList, Stmt.signalCallsOfList, makes_append,
    List.mem_append, or_and_right, exists_or, or_assoc, or_left_comm]

theorem raises_statements {b : Block Span} :
    Raises e b.statements ↔ Makes e b.own ∨ ∃ c ∈ b.signalCalls, c.HandsOn e := by
  obtain ⟨m, ss⟩ := b
  rw [Block.own, makes_block]
  exact raises_iff

theorem raises_block {b : Block Span} :
    Raises e (.block b :: xs) ↔ Raises e b.statements ∨ Raises e xs := by
  rw [raises_cons, raises_statements, Stmt.signalCalls, Stmt.own]
  simp [Stmt.callBefore]

theorem raises_branch {m : Span} {c : Expr Span} {t : Block Span} {f : Option (Block Span)}
    (hc : ¬ Makes e c.own) : Raises e (.branch m c t f :: xs) ↔
      (Raises e t.statements ∨ ∃ b, f = some b ∧ Raises e b.statements) ∨ Raises e xs := by
  cases f with
  | none => simp [raises_cons, raises_statements, Stmt.callBefore, Stmt.signalCalls, Stmt.own, hc]
  | some b =>
    simp [raises_cons, raises_statements, Stmt.callBefore, Stmt.signalCalls, Stmt.own,
      hc, or_and_right, exists_or, or_assoc, or_left_comm]

theorem raises_loop {m : Span} {h : Header Span} {b : Block Span} (hh : ¬ Makes e h.own) :
    Raises e (.loop m h b :: xs) ↔ Raises e b.statements ∨ Raises e xs := by
  simp [raises_cons, raises_statements, Stmt.callBefore, Stmt.signalCalls, Stmt.own, hh]

theorem Block.mem_signalCalls {b : Block Span} {c : SignalCall}
    (h : c ∈ Stmt.signalCallsOfList b.statements) : c ∈ b.signalCalls := by
  cases b
  exact h

theorem ret_mem_own_block {b : Block Span} {s : Span} {v : Option (Expr Span)} :
    .stmt (.ret s v) ∈ b.own ↔ .stmt (.ret s v) ∈ Stmt.ownOfList b.statements := by
  cases b
  simp [Block.own, Block.statements]

theorem signalCallsOfList_append_right {c : SignalCall} (h : c ∈ Stmt.signalCallsOfList ys) :
    c ∈ Stmt.signalCallsOfList (xs ++ ys) := by
  induction xs with
  | nil => exact h
  | cons x xs ih => exact List.mem_append_right _ (List.mem_append_right _ ih)

theorem ReturnsSignal.mono {v : Option (Expr Span)} (h : ReturnsSignal xs v)
    (hs : ∀ c ∈ Stmt.signalCallsOfList xs, c ∈ Stmt.signalCallsOfList ys) : ReturnsSignal ys v := by
  cases h with
  | made => exact .made
  | received hc ends => exact .received (hs _ hc) ends

end Lists

/-! ## Expressions and statements that raise nothing -/

/-- The code of the function that an expression makes, or makes and calls. -/
def Expr.made : Expr Span → List (List (Stmt Span))
  | .function _ _ b => [b.statements]
  | .call _ f _ => f.made
  | _ => []

/-- An expression that makes no signals, and no functions that raise any. -/
structure Expr.Quiet (x : Expr Span) : Prop where
  makes : ∀ e, ¬ Makes e x.own
  made : ∀ code ∈ x.made, ∀ e, ¬ Raises e code

/-- A statement that raises nothing, whatever is behind it. -/
def Stmt.Still (x : Stmt Span) : Prop := ∀ e ss, Raises e (x :: ss) ↔ Raises e ss

theorem Stmt.mem_callBefore {m : Span} {n : Name} {k : DeclKind} {v : Expr Span}
    {ss : List (Stmt Span)} {c : SignalCall}
    (h : c ∈ (Stmt.declaration m n k (some v)).callBefore ss) : c.code ∈ v.made := by
  unfold callBefore at h
  split at h
  · rename_i heq
    cases heq
    obtain rfl := List.mem_singleton.1 h
    exact List.mem_cons_self
  · rename_i heq
    cases heq
    split at h
    · obtain rfl := List.mem_singleton.1 h
      exact List.mem_cons_self
    · exact absurd h List.not_mem_nil
  · exact absurd h List.not_mem_nil

section Still

variable {e : Exit} {v : Expr Span} {m : Span} {n : Name} {xs ys : List (Stmt Span)}

/-- A statement that makes no signals, and calls no function that raises any. -/
theorem Stmt.still_of {x : Stmt Span} (hm : ∀ e, ¬ Makes e x.own) (hc : x.signalCalls = [])
    (hb : ∀ ss, ∀ c ∈ x.callBefore ss, ∀ e, ¬ Raises e c.code) : x.Still := by
  intro e ss
  rw [raises_cons, hc]
  constructor
  · rintro ((h | ⟨_, hc, _⟩) | ⟨c, hc, h, _⟩ | h)
    · exact absurd h (hm e)
    · exact absurd hc List.not_mem_nil
    · exact absurd h (hb _ _ hc e)
    · exact h
  · exact fun h => .inr (.inr h)

theorem Stmt.still_declaration {value : Option (Expr Span)} {kind : DeclKind}
    (h : ∀ v ∈ value, v.Quiet) : (Stmt.declaration m n kind value).Still := by
  cases value with
  | none => exact still_of (by simp [own]) rfl fun _ _ hc => absurd hc List.not_mem_nil
  | some v =>
    exact still_of (fun e => by simpa [own] using (h v rfl).makes e) rfl
      fun _ c hc => (h v rfl).made _ (mem_callBefore hc)

theorem Stmt.still_assignment {t : Expr Span} (ht : t.Quiet) (hv : v.Quiet) :
    (Stmt.assignment m t v).Still :=
  still_of (fun e => by simpa [own] using ⟨ht.makes e, hv.makes e⟩) rfl
    fun _ _ hc => absurd hc List.not_mem_nil

theorem Stmt.still_expression (hv : ∀ e, ¬ Makes e v.own) : (Stmt.expression m v).Still :=
  still_of (fun e => by simpa [own] using hv e) rfl fun _ _ hc => absurd hc List.not_mem_nil

theorem Stmt.still_ret {value : Option (Expr Span)} (h : ∀ v ∈ value, ∀ e, ¬ Makes e v.own) :
    (Stmt.ret m value).Still := by
  refine still_of (fun e => ?_) rfl fun _ _ hc => absurd hc List.not_mem_nil
  cases value with
  | none => simp [own]
  | some v => simpa [own] using h v rfl e

theorem Stmt.still_brk : (Stmt.brk m).Still :=
  still_of (by simp [own]) rfl fun _ _ hc => absurd hc List.not_mem_nil

theorem Stmt.still_cont : (Stmt.cont m).Still :=
  still_of (by simp [own]) rfl fun _ _ hc => absurd hc List.not_mem_nil

theorem Expr.quiet_name : (Expr.name m n).Quiet :=
  ⟨fun e => by simp [own, makes_expr], fun _ h => absurd h List.not_mem_nil⟩

/-- Statements that raise nothing in front of others. -/
theorem raises_still (h : ∀ x ∈ xs, x.Still) : Raises e (xs ++ ys) ↔ Raises e ys := by
  induction xs with
  | nil => exact Iff.rfl
  | cons x xs ih =>
    rw [List.cons_append, h x List.mem_cons_self, ih fun y hy => h y (List.mem_cons_of_mem _ hy)]

theorem not_raises_still (h : ∀ x ∈ xs, x.Still) : ¬ Raises e xs := by
  rw [← List.append_nil xs, raises_still h]
  exact not_raises_nil

theorem writeBackStmts_still (ws : WriteBacks) : ∀ x ∈ writeBackStmts ws, x.Still := by
  intro x hx
  obtain ⟨w, -, rfl⟩ := List.mem_map.1 hx
  exact Stmt.still_assignment Expr.quiet_name Expr.quiet_name

/-- No expression holds a `return` outside of the functions nested in it. -/
theorem Expr.ret_not_mem_own {s : Span} {u : Option (Expr Span)} : .stmt (.ret s u) ∉ v.own := by
  intro h
  obtain ⟨⟨f, hf⟩, -⟩ := v.own_expr h
  cases hf

theorem ret_not_mem_writeBackStmts {ws : WriteBacks} {s : Span} {u : Option (Expr Span)} :
    .stmt (.ret s u) ∉ Stmt.ownOfList (writeBackStmts ws) := by
  intro h
  obtain ⟨x, hx, hr⟩ := Stmt.mem_ownOfList.1 h
  obtain ⟨w, -, rfl⟩ := List.mem_map.1 hx
  simp [Stmt.own, Expr.own] at hr

end Still

/-! ## The statements behind the call of a wrapper -/

mutual

/-- A loop holds up every `break` and `continue`. -/
theorem Stmt.mayExit_inLoop {α : Type} {e : Exit} (he : e ≠ .ret) :
    ∀ s : Stmt α, s.mayExit e true = false
  | .declaration .. | .assignment .. | .expression .. | .unknown .. => rfl
  | .ret .. => by simpa [Stmt.mayExit] using he
  | .brk _ | .cont _ => by simp [Stmt.mayExit]
  | .block b | .loop _ _ b => b.mayExitIn_inLoop he
  | .branch _ _ t none => by rw [Stmt.mayExit, t.mayExitIn_inLoop he]; rfl
  | .branch _ _ t (some f) => by
    rw [Stmt.mayExit, t.mayExitIn_inLoop he]; exact f.mayExitIn_inLoop he

theorem Stmt.mayExitList_inLoop {α : Type} {e : Exit} (he : e ≠ .ret) :
    ∀ ss : List (Stmt α), Stmt.mayExitList e true ss = false
  | [] => rfl
  | s :: ss => by rw [Stmt.mayExitList, s.mayExit_inLoop he, Stmt.mayExitList_inLoop he ss]; rfl

theorem Block.mayExitIn_inLoop {α : Type} {e : Exit} (he : e ≠ .ret) :
    ∀ b : Block α, b.mayExitIn e true = false
  | .mk _ ss => Stmt.mayExitList_inLoop he ss

end

/-- A clause of the header of a loop holds no exits. -/
theorem Stmt.mayExit_clause {α : Type} {s : Stmt α} (h : s.isInit ∨ s.isUpdate) {e : Exit}
    {inLoop : Bool} : s.mayExit e inLoop = false := by
  cases s with
  | declaration | assignment | expression | unknown => rfl
  | _ => simp [Stmt.isInit, Stmt.isUpdate] at h

section Handlers

variable {site : CallSite} {sig : Name} {exits : List Exit} {ws : WriteBacks}
    {s t : Span} {e : Exit}
  {ss : List (Stmt Mark)} {v : Option (Expr Span)}

/-- A call hands on the exits that go on outwards from where it stands. -/
theorem CallSite.Handles.propagates_iff (h : site.Handles exits) (hexits : exits = Stmt.exits ss) :
    e ∈ exits ∧ site.action e = .propagate ↔
      (site.inWrapper && Stmt.mayExitList e site.inLoop ss) = true := by
  have hmem : e ∈ exits ↔ Stmt.mayExitList e false ss := hexits ▸ Block.mem_exits
    (b := .mk default ss)
  have hhandles := fun he => h e he
  rw [Bool.and_eq_true]
  cases e with
  | ret =>
    rw [hmem, Stmt.mayExitList_ret ss site.inLoop false, and_comm]
    cases hw : site.inWrapper <;> simp [CallSite.action, hw]
  | brk | cont =>
    cases hl : site.inLoop with
    | true => simp [CallSite.action, hl, Stmt.mayExitList_inLoop]
    | false =>
      rw [← hmem]
      simp only [CallSite.action, hl, Bool.false_eq_true, if_false, and_true]
      exact ⟨fun he => ⟨by simpa [hl] using hhandles he, he⟩, And.right⟩

theorem handleSignal_still (action : ExitAction) : (handleSignal sig ws s e action).Still := by
  intro f xs
  have hstill : ∀ x ∈ actionStmts sig ws s e action, x.Still := by
    intro x hx
    cases action with
    | jump =>
      obtain rfl := List.mem_singleton.1 hx
      split
      · exact Stmt.still_brk
      · exact Stmt.still_cont
    | returnValue =>
      obtain rfl := List.mem_singleton.1 hx
      exact Stmt.still_ret (by simp [Expr.own, makes_expr])
    | propagate =>
      rcases List.mem_append.1 hx with hx | hx
      · exact writeBackStmts_still ws x hx
      · obtain rfl := List.mem_singleton.1 hx
        exact Stmt.still_ret (by simp [Expr.own, makes_expr])
  rw [handleSignal, raises_branch (by simp [Expr.own, makes_expr])]
  simp [Block.statements, not_raises_still hstill]

theorem propagateAll_still : (propagateAll sig ws s).Still := by
  intro f xs
  have hstill : ∀ x ∈ writeBackStmts ws ++ [Stmt.ret s (some (.name s sig))], x.Still := by
    intro x hx
    rcases List.mem_append.1 hx with hx | hx
    · exact writeBackStmts_still ws x hx
    · obtain rfl := List.mem_singleton.1 hx
      exact Stmt.still_ret (by simp [Expr.own, makes_expr])
  rw [propagateAll, raises_branch (by simp [Expr.own, makes_expr])]
  simp [Block.statements, not_raises_still hstill]

/-- The statements behind a call raise nothing themselves. -/
theorem handlers_still : ∀ x ∈ site.handlers sig exits ws s, x.Still := by
  intro x hx
  rw [CallSite.handlers] at hx
  split at hx
  · obtain rfl := List.mem_singleton.1 hx
    exact propagateAll_still
  · obtain ⟨⟨e, action⟩, -, rfl⟩ := List.mem_map.1 hx
    exact handleSignal_still action

theorem ret_mem_propagateAll (h : .stmt (.ret t v) ∈ (propagateAll sig ws s).own) :
    v = some (.name s sig) := by
  rw [propagateAll, Stmt.own, Block.own, Stmt.ownOfList_append] at h
  have h : t = s ∧ v = some (.name s sig) := by
    simpa [Stmt.ownOfList, Stmt.own, Expr.own, ret_not_mem_writeBackStmts] using h
  exact h.2

theorem ret_mem_handleSignal {action : ExitAction}
    (h : .stmt (.ret t v) ∈ (handleSignal sig ws s e action).own) :
    action = .returnValue ∨ action = .propagate ∧ v = some (.name s sig) := by
  cases action with
  | jump =>
    rw [handleSignal, actionStmts] at h
    split at h <;> simp [Stmt.ownOfList, Block.own, Stmt.own, Expr.own] at h
  | returnValue => exact .inl rfl
  | propagate =>
    rw [handleSignal, actionStmts, Stmt.own, Block.own, Stmt.ownOfList_append] at h
    have h : t = s ∧ v = some (.name s sig) := by
      simpa [Stmt.ownOfList, Stmt.own, Expr.own, ret_not_mem_writeBackStmts] using h
    exact .inr ⟨rfl, h.2⟩

/-- What the statements behind a call in a wrapper return is the variable of the call, and some
    signal is handed on. -/
theorem ret_mem_handlers (hw : site.inWrapper = true)
    (h : .stmt (.ret t v) ∈ Stmt.ownOfList (site.handlers sig exits ws s)) :
    v = some (.name s sig) ∧ ∃ e ∈ exits, site.action e = .propagate := by
  have hplan :
      ∀ {e action}, (e, action) ∈ site.plan exits → e ∈ exits ∧ action = site.action e := by
    intro e action hq
    obtain ⟨f, hf, heq⟩ := List.mem_map.1 hq
    cases heq
    exact ⟨by simpa using (List.mem_filter.1 hf).2, rfl⟩
  obtain ⟨x, hx, hr⟩ := Stmt.mem_ownOfList.1 h
  rw [CallSite.handlers] at hx
  split at hx
  · rename_i hall
    obtain rfl := List.mem_singleton.1 hx
    rw [Bool.and_eq_true, List.all_eq_true] at hall
    obtain ⟨⟨e, action⟩, hq⟩ := List.exists_mem_of_ne_nil (site.plan exits) (by simpa using hall.1)
    obtain ⟨he, rfl⟩ := hplan hq
    exact ⟨ret_mem_propagateAll hr, e, he, by simpa using hall.2 _ hq⟩
  · obtain ⟨⟨e, action⟩, hq, rfl⟩ := List.mem_map.1 hx
    obtain ⟨he, haction⟩ := hplan hq
    rcases ret_mem_handleSignal hr with ha | ⟨ha, hv⟩
    · -- in a wrapper, nobody returns the value of a signal
      rw [haction] at ha
      cases e <;> simp [CallSite.action, hw] at ha
      all_goals split at ha <;> cases ha
    · exact ⟨hv, e, he, haction ▸ ha⟩

/-- So the source may be left by some exit. -/
theorem CallSite.Handles.of_ret_mem (h : site.Handles exits) (hexits : exits = Stmt.exits ss)
    (hw : site.inWrapper = true)
    (hr : .stmt (.ret t v) ∈ Stmt.ownOfList (site.handlers sig exits ws s)) :
    v = some (.name s sig) ∧ ∃ e, Stmt.mayExitList e site.inLoop ss = true := by
  obtain ⟨hv, e, he⟩ := ret_mem_handlers hw hr
  have hexit := (h.propagates_iff hexits).1 he
  rw [hw, Bool.true_and] at hexit
  exact ⟨hv, e, hexit⟩

theorem reactionOfList?_append {k : SignalKind} {q : Reaction} {xs ys : List (Stmt Span)}
    (h : Stmt.reactionOfList? sig k xs = some q) (hq : q ≠ .goOn) :
    Stmt.reactionOfList? sig k (xs ++ ys) = some q := by
  induction xs with
  | nil =>
    cases h
    exact absurd rfl hq
  | cons x xs ih =>
    rw [List.cons_append, Stmt.reactionOfList?]
    rw [Stmt.reactionOfList?] at h
    split
    · rename_i hx
      rw [hx] at h
      exact ih h
    · rename_i hx
      split at h
      · exact absurd ‹_› hx
      · exact h

/-- Which signals of a wrapper its call hands on. -/
theorem handsOn_iff {code os : List (Stmt Span)} (h : site.Handles exits)
    (hexits : exits = Stmt.exits ss) (hsig : sig ∉ ws.map (·.1))
    (hcode : Raises e code ↔ e ∈ exits) :
    (SignalCall.mk code sig (site.handlers sig exits ws s ++ os)).HandsOn e ↔
      (site.inWrapper && Stmt.mayExitList e site.inLoop ss) = true := by
  rw [← h.propagates_iff hexits, SignalCall.HandsOn, hcode]
  refine and_congr_right fun he => ?_
  have hreaction : Stmt.reactionOfList? sig (some e) (site.handlers sig exits ws s) =
      some ((site.action e).reaction e) := (reactionOfList?_handlers hsig site exits).2 e he
  rw [reactionOfList?_append hreaction (reaction_ne_goOn e _), Option.some.injEq]
  cases e <;> cases site.action _ <;> simp [ExitAction.reaction]

end Handlers

/-! ## Code that raises what the source may be left by -/

/-- Lowered code of a region raises, in a wrapper, the signals of certain exits, and in a function
    none. All that it returns in a wrapper are signals. -/
structure RaisesAs (r : Region) (may : Exit → Bool) (out : List (Stmt Span)) : Prop where
  raises : ∀ e ss, Raises e (out ++ ss) ↔ (r.inWrapper && may e) = true ∨ Raises e ss
  returns : r.inWrapper = true → ∀ s v, .stmt (.ret s v) ∈ Stmt.ownOfList out →
    (∃ e, may e = true) ∧ ∀ ss, ReturnsSignal (out ++ ss) v

/-- Nodes among which no signals are made, and in a wrapper nothing is returned. -/
structure Region.Silent (r : Region) (ns : List (Node Span)) : Prop where
  makes : ∀ e, ¬ Makes e ns
  stays : r.inWrapper = true → ∀ s v, .stmt (.ret s v) ∉ ns

namespace Region.Silent

variable {r : Region} {ns ms : List (Node Span)}

theorem nil : r.Silent [] := ⟨fun _ => makes_nil, fun _ _ _ => List.not_mem_nil⟩

theorem append (h : r.Silent ns) (h' : r.Silent ms) : r.Silent (ns ++ ms) where
  makes e hm := (makes_append.1 hm).elim (h.makes e) (h'.makes e)
  stays hr s v hs := (List.mem_append.1 hs).elim (h.stays hr s v) (h'.stays hr s v)

theorem header {h : Header Span} (hns : r.Silent ns) : r.Silent (.header h :: ns) where
  makes e hm := hns.makes e (makes_header.1 hm)
  stays hr s v hs := hns.stays hr s v (by simpa using hs)

theorem expr {x : Expr Span} (h : ∀ e, ¬ Makes e x.own) : r.Silent x.own :=
  ⟨h, fun _ _ _ => Expr.ret_not_mem_own⟩

end Region.Silent

namespace RaisesAs

variable {r i : Region} {may may' : Exit → Bool} {out out' : List (Stmt Span)} {m : Span}

/-- Code without early exits. -/
theorem still (h : ∀ x ∈ out, x.Still) (hmay : r.inWrapper = true → ∀ e, may e = false)
    (hret : r.inWrapper = true → ∀ s v, .stmt (.ret s v) ∉ Stmt.ownOfList out) :
    RaisesAs r may out where
  raises e ss := by
    rw [raises_still h, Bool.and_eq_true]
    refine ⟨.inr, fun h => h.resolve_left fun ⟨hr, he⟩ => ?_⟩
    rw [hmay hr] at he
    cases he
  returns hr s v h := absurd h (hret hr s v)

/-- Statements one after the other. -/
theorem append (h : RaisesAs r may out) (h' : RaisesAs r may' out') :
    RaisesAs r (fun e => may e || may' e) (out ++ out') where
  raises e ss := by
    rw [List.append_assoc, h.raises, h'.raises, Bool.and_or_distrib_left, Bool.or_eq_true, or_assoc]
  returns hr s v hs := by
    rw [Stmt.ownOfList_append] at hs
    rcases List.mem_append.1 hs with hs | hs
    · obtain ⟨⟨e, he⟩, hret⟩ := h.returns hr s v hs
      refine ⟨⟨e, by rw [he, Bool.true_or]⟩, fun ss => ?_⟩
      rw [List.append_assoc]
      exact hret _
    · obtain ⟨⟨e, he⟩, hret⟩ := h'.returns hr s v hs
      refine ⟨⟨e, by rw [he, Bool.or_true]⟩, fun ss => ?_⟩
      rw [List.append_assoc]
      exact (hret ss).mono fun c hc => signalCallsOfList_append_right hc

/-- The code of a function raises nothing. -/
theorem not_raises (h : RaisesAs r may out) (hr : r.inWrapper = false) (e : Exit) :
    ¬ Raises e out := by
  have := h.raises e []
  rw [hr, List.append_nil] at this
  exact fun hraises => (this.1 hraises).elim Bool.false_ne_true not_raises_nil

/-- Code by itself. -/
theorem raises_iff (h : RaisesAs r may out) (e : Exit) :
    Raises e out ↔ (r.inWrapper && may e) = true := by
  have := h.raises e []
  rw [List.append_nil] at this
  exact this.trans (or_iff_left not_raises_nil)

theorem returns_self (h : RaisesAs r may out) (hr : r.inWrapper = true) {s : Span}
    {v : Option (Expr Span)} (hs : .stmt (.ret s v) ∈ Stmt.ownOfList out) : (∃ e, may e = true) ∧
    ReturnsSignal out v := by
  obtain ⟨he, hret⟩ := h.returns hr s v hs
  exact ⟨he, List.append_nil out ▸ hret []⟩

theorem block {b : Block Span} (h : RaisesAs r may b.statements) : RaisesAs r may [.block b] where
  raises e ss := by rw [List.singleton_append, raises_block, h.raises_iff]
  returns hr s v hs := by
    obtain ⟨he, hret⟩ := h.returns_self hr
      (by simpa [Stmt.ownOfList, Stmt.own, ret_mem_own_block] using hs)
    exact ⟨he, fun ss => hret.mono fun c hc => List.mem_append_left _ (Block.mem_signalCalls hc)⟩

theorem branch {c : Expr Span} {t : Block Span} {f : Option (Block Span)}
    (hc : ∀ e, ¬ Makes e c.own) (ht : RaisesAs r may t.statements)
    (hf : ∀ b, f = some b → RaisesAs r may' b.statements) (hnone : f = none → ∀ e, may' e = false) :
    RaisesAs r (fun e => may e || may' e) [.branch m c t f] where
  raises e ss := by
    rw [List.singleton_append, raises_branch (hc e), ht.raises_iff, Bool.and_or_distrib_left,
      Bool.or_eq_true]
    cases f with
    | none => simp [hnone rfl]
    | some b => simp [(hf b rfl).raises_iff]
  returns hr s v hs := by
    cases f with
    | none =>
      obtain ⟨⟨e, he⟩, hret⟩ := ht.returns_self hr
        (by simpa [Stmt.ownOfList, Stmt.own, ret_mem_own_block, Expr.ret_not_mem_own] using hs)
      exact ⟨⟨e, by rw [he, Bool.true_or]⟩,
        fun ss => hret.mono fun d hd => List.mem_append_left _ (Block.mem_signalCalls hd)⟩
    | some b =>
      have hs : .stmt (.ret s v) ∈ Stmt.ownOfList t.statements ∨
          .stmt (.ret s v) ∈ Stmt.ownOfList b.statements := by
        simpa [Stmt.ownOfList, Stmt.own, ret_mem_own_block, Expr.ret_not_mem_own] using hs
      rcases hs with hs | hs
      · obtain ⟨⟨e, he⟩, hret⟩ := ht.returns_self hr hs
        exact ⟨⟨e, by rw [he, Bool.true_or]⟩, fun ss => hret.mono fun d hd =>
          List.mem_append_left _ (List.mem_append_left _ (Block.mem_signalCalls hd))⟩
      · obtain ⟨⟨e, he⟩, hret⟩ := (hf b rfl).returns_self hr hs
        exact ⟨⟨e, by rw [he, Bool.or_true]⟩, fun ss => hret.mono fun d hd =>
          List.mem_append_left _ (List.mem_append_right _ (Block.mem_signalCalls hd))⟩

/-- A loop whose header raises and returns nothing. -/
theorem loop {h : Header Span} {b : Block Span} (hh : r.Silent h.own)
    (hr : i.inWrapper = r.inWrapper) (hb : RaisesAs i may b.statements) :
    RaisesAs r may [.loop m h b] where
  raises e ss := by rw [List.singleton_append, raises_loop (hh.makes e), hb.raises_iff, hr]
  returns hw s v hs := by
    obtain ⟨he, hret⟩ := hb.returns_self (hr.trans hw)
      (by simpa [Stmt.ownOfList, Stmt.own, ret_mem_own_block, hh.stays hw] using hs)
    exact ⟨he, fun ss => hret.mono fun c hc => List.mem_append_left _ (Block.mem_signalCalls hc)⟩

/-- An early exit that is not for a loop in the same function or wrapper. -/
theorem leave {e : Exit} {v : Option (Expr Span)} (hv : ∀ x ∈ v, ∀ e, ¬ Makes e x.own)
    {plain : Stmt Span} (hplain : plain.Still) :
    RaisesAs r (fun f => f == e) (Lower.leave r e v m plain) := by
  rw [Lower.leave]
  split
  case isFalse hr =>
    refine still (fun x hx => ?_) (fun h => absurd h hr) fun h => absurd h hr
    rwa [List.mem_singleton.1 hx]
  case isTrue hr =>
    refine ⟨fun f ss => ?_, fun _ s u hs => ?_⟩
    · have hmakes : Makes f (Stmt.ret m (some (.signal m (some e) v))).own ↔ f = e := by
        constructor
        · rintro ⟨s, u, hm⟩
          cases v with
          | none =>
            have hm : s = m ∧ f = e ∧ u = none := by simpa [Stmt.own, Expr.own] using hm
            exact hm.2.1
          | some x =>
            have hm : (s = m ∧ f = e ∧ u = some x) ∨ .expr (.signal s (some f) u) ∈ x.own := by
              simpa [Stmt.own, Expr.own] using hm
            exact hm.elim (·.2.1) fun hm => absurd ⟨s, u, hm⟩ (hv x rfl f)
        · rintro rfl
          exact ⟨m, v, by cases v <;> simp [Stmt.own, Expr.own]⟩
      rw [exitStmts, List.append_assoc, raises_still (writeBackStmts_still _),
        List.singleton_append, raises_cons, hmakes]
      simp [Stmt.signalCalls, Stmt.callBefore, hr]
    · have hs : s = m ∧ u = some (.signal m (some e) v) := by
        rw [exitStmts, Stmt.ownOfList_append] at hs
        simpa [ret_not_mem_writeBackStmts, Stmt.ownOfList, Stmt.own, Expr.ret_not_mem_own] using hs
      exact ⟨⟨e, beq_self_eq_true e⟩, fun ss => hs.2 ▸ .made⟩

/-- A `break` or `continue`, which is for a loop in the same function or wrapper or leaves it. -/
theorem jump {e : Exit} {plain : Stmt Span} (hplain : plain.Still)
    (hstays : ∀ s v, .stmt (.ret s v) ∉ plain.own) : RaisesAs r (fun f => f == e && !r.inLoop)
      (if r.inLoop then [plain] else Lower.leave r e none m plain) := by
  cases hl : r.inLoop with
  | true =>
    refine still (fun x hx => ?_) (fun _ f => Bool.and_false _) fun _ s v hs => ?_
    · obtain rfl := List.mem_singleton.1 hx
      exact hplain
    · exact hstays s v (by simpa [Stmt.ownOfList] using hs)
  | false => simpa using leave (m := m) (fun _ hv => absurd hv (by simp)) hplain

/-- A clause of the header of a loop, which is left by no exit. -/
theorem clause {x : Option (Stmt Span)} (h : RaisesAs r may x.toList) (hmay : ∀ e, may e = false) :
    r.Silent (x.elim [] Stmt.own) := by
  cases x with
  | none => exact .nil
  | some x =>
    refine ⟨fun e hm => ?_, fun hr s v hs => ?_⟩
    · have hraises : Raises e [x] := raises_cons.2 (.inl (.inl hm))
      simpa [hmay e] using (h.raises_iff e).1 hraises
    · obtain ⟨⟨e, he⟩, -⟩ := h.returns hr s v (by simpa [Stmt.ownOfList] using hs)
      exact Bool.false_ne_true ((hmay e).symm.trans he)

/-! ### Calls of wrappers -/

section Calls

variable {p : LoweringPlan} {exits : List Exit} {site : CallSite} {s t u k l : Span} {n : Name}
  {args : List (Expr Span)} {ss : List (Stmt Mark)} {code : List (Stmt Span)} {ps : List Name}

/-- The call of a wrapper that cannot be left early. -/
theorem plain {call : Expr Span} (hcall : ∀ e, ¬ Makes e call.own)
    (hsite : site.inWrapper = r.inWrapper) (hexits : Stmt.exits ss = []) :
    RaisesAs r (fun e => Stmt.mayExitList e site.inLoop ss) (plainCall call s) := by
  refine still (fun x hx => ?_) (fun hr e => ?_) fun _ s v hs => ?_
  · obtain rfl := List.mem_singleton.1 hx
    exact Stmt.still_expression hcall
  · have hhandles : site.Handles [] := fun _ he => absurd he List.not_mem_nil
    simpa [hsite, hr] using hhandles.propagates_iff (e := e) hexits.symm
  · simp [plainCall, Stmt.ownOfList, Stmt.own, Expr.ret_not_mem_own] at hs

/-- The call of a wrapper that is made in the call. -/
theorem call (h : p.CallsBy r exits site s (.call t (.function u ps (.mk k code)) args) out)
    (hargs : ∀ e, ¬ Makes e (Expr.ownOfList args)) (hsite : site.inWrapper = r.inWrapper)
    (hexits : exits = Stmt.exits ss) (hcode : ∀ e, Raises e code ↔ e ∈ exits)
    (hends : exits ≠ [] → EndsWithMarker code) :
    RaisesAs r (fun e => Stmt.mayExitList e site.inLoop ss) out := by
  have hcall : ∀ e, ¬ Makes e (Expr.call t (.function u ps (.mk k code)) args).own := fun e => by
    simpa [Expr.own, makes_expr] using hargs e
  rw [LoweringPlan.CallsBy] at h
  split at h
  case isTrue hempty =>
    subst h
    exact plain hcall hsite (hexits ▸ List.isEmpty_iff.1 hempty)
  case isFalse hne =>
    obtain ⟨sig, hhandles, hsig, -, rfl⟩ := h
    refine ⟨fun e os => ?_, fun hr q v hq => ?_⟩
    · rw [List.cons_append, raises_cons, raises_still handlers_still]
      simp [Stmt.callBefore, Stmt.signalCalls, Stmt.own, hcall e, Block.statements,
        handsOn_iff hhandles hexits hsig (hcode e), hsite]
    · have hq : .stmt (.ret q v) ∈ Stmt.ownOfList (site.handlers sig exits r.writeBacks s) := by
        simpa [Stmt.ownOfList, Stmt.own, Expr.ret_not_mem_own] using hq
      obtain ⟨rfl, hexit⟩ := hhandles.of_ret_mem hexits (hsite.trans hr) hq
      refine ⟨hexit, fun os => ?_⟩
      exact .received (c := ⟨code, sig, _⟩) (List.mem_cons_self)
        (hends fun h => hne (by rw [h]; rfl))

/-- A loop that calls a wrapper that is made before it. -/
theorem namedLoop {h : Header Span} {inner : List (Stmt Span)}
    (hcalls : p.CallsBy r exits site s (.call t (.name l n) args) inner)
    (hargs : ∀ e, ¬ Makes e (Expr.ownOfList args)) (hsite : site.inWrapper = r.inWrapper)
    (hexits : exits = Stmt.exits ss) (hcode : ∀ e, Raises e code ↔ e ∈ exits)
    (hends : exits ≠ [] → EndsWithMarker code) (hh : r.Silent h.own) :
    RaisesAs r (fun e => Stmt.mayExitList e site.inLoop ss)
      [.declaration m n .var (some (.function u ps (.mk k code))), .loop m h (.mk s inner)] := by
  have hcall : ∀ e, ¬ Makes e (Expr.call t (.name l n) args).own := fun e => by
    simpa [Expr.own, makes_expr] using hargs e
  rw [LoweringPlan.CallsBy] at hcalls
  split at hcalls
  case isTrue hempty =>
    rw [List.isEmpty_iff] at hempty
    subst hcalls
    have hquiet : (Expr.function u ps (.mk k code)).Quiet := by
      refine ⟨fun e => by simp [Expr.own, makes_expr], fun c hc e => ?_⟩
      obtain rfl := List.mem_singleton.1 hc
      exact fun h => absurd ((hcode e).1 h) (hempty ▸ List.not_mem_nil)
    have hdecl : RaisesAs r (fun _ => false)
        [.declaration m n .var (some (.function u ps (.mk k code)))] := by
      refine still (fun x hx => ?_) (fun _ _ => rfl) fun _ q v hq => ?_
      · obtain rfl := List.mem_singleton.1 hx
        exact Stmt.still_declaration fun v hv => Option.some.inj hv ▸ hquiet
      · simp [Stmt.ownOfList, Stmt.own, Expr.ret_not_mem_own] at hq
    have hplain := plain (s := s) hcall hsite (hexits ▸ hempty)
    simpa [plainCall] using hdecl.append (loop (m := m) (b := .mk s _) hh rfl hplain)
  case isFalse hne =>
    obtain ⟨sig, hhandles, hsig, -, rfl⟩ := hcalls
    have hquiet : (Expr.call t (.name l n) args).Quiet :=
      ⟨hcall, fun _ h => absurd h List.not_mem_nil⟩
    have hinner : ∀ e, ¬ Raises e (.declaration s sig .var (some (.call t (.name l n) args)) ::
        site.handlers sig exits r.writeBacks s) := by
      refine fun e => not_raises_still fun x hx => ?_
      rcases List.mem_cons.1 hx with rfl | hx
      · exact Stmt.still_declaration fun v hv => Option.some.inj hv ▸ hquiet
      · exact handlers_still x hx
    refine ⟨fun e os => ?_, fun hr q v hq => ?_⟩
    · have hhands :
          (SignalCall.mk code sig (site.handlers sig exits r.writeBacks s ++ [])).HandsOn e ↔ _ :=
        handsOn_iff hhandles hexits hsig (hcode e)
      rw [List.append_nil] at hhands
      rw [List.cons_append, List.singleton_append, raises_cons, raises_loop (hh.makes e)]
      simp [Stmt.callBefore, Stmt.signalCalls, Stmt.own, Expr.own, makes_expr,
        Block.statements, hinner e, hhands, hsite]
    · have hq : .stmt (.ret q v) ∈ Stmt.ownOfList (site.handlers sig exits r.writeBacks s) := by
        simpa [Stmt.ownOfList, Stmt.own, Block.own, Expr.ret_not_mem_own, hh.stays hr] using hq
      obtain ⟨rfl, hexit⟩ := hhandles.of_ret_mem hexits (hsite.trans hr) hq
      refine ⟨hexit, fun os => ?_⟩
      refine .received (c := ⟨code, sig, site.handlers sig exits r.writeBacks s⟩) ?_
        (hends fun h => hne (by rw [h]; rfl))
      simp [Stmt.signalCallsOfList, Stmt.callBefore, Stmt.signalCalls, Block.statements]

end Calls

/-! ### The code of wrappers -/

section Code

variable {w : Wrapper} {ss : List (Stmt Mark)} {body : List (Stmt Span)} {ws : WriteBacks}

/-- The code of a wrapper, with its end, raises the signals of its exits. -/
theorem raises_code (h : RaisesAs r (Stmt.mayExitList · false ss) body) (hr : r.inWrapper = true)
    (hexits : w.exits = Stmt.exits ss) (e : Exit) :
    Raises e (Lower.wrapperCode w ws body) ↔ e ∈ w.exits := by
  have hmem : e ∈ w.exits ↔ Stmt.mayExitList e false ss := hexits ▸ Block.mem_exits
    (b := .mk default ss)
  have hend : ¬ Raises e (if w.exits.isEmpty then writeBackStmts ws else epilogue ws) := by
    refine not_raises_still fun x hx => ?_
    split at hx
    · exact writeBackStmts_still ws x hx
    · rcases List.mem_append.1 hx with hx | hx
      · exact writeBackStmts_still ws x hx
      · obtain rfl := List.mem_singleton.1 hx
        exact Stmt.still_ret fun v hv f => Option.some.inj hv ▸ by simp [Makes, Expr.own]
  rw [Lower.wrapperCode, h.raises, hr, Bool.true_and, or_iff_left hend, hmem]

theorem ends_code (hw : w.exits ≠ []) :
    Lower.wrapperCode w ws body =
      body ++ writeBackStmts ws ++ [.ret .unknown (some (.signal .unknown none none))] := by
  rw [Lower.wrapperCode, if_neg (by simpa using hw), epilogue, exitStmts, List.append_assoc]

/-- A wrapper agrees with its exits, if its code raises the exits of the source. -/
theorem raisesExits {p : LoweringPlan} {site : CallSite} {s : Span} {call : Expr Span}
    (h : RaisesAs r (Stmt.mayExitList · false ss) body) (hr : r.inWrapper = true)
    (hexits : w.exits = Stmt.exits ss) (hcalls : p.CallsBy i w.exits site s call out) :
    RaisesExits w (Lower.wrapperCode w ws body) call out := by
  rw [LoweringPlan.CallsBy] at hcalls
  split at hcalls
  case isTrue hempty =>
    subst hcalls
    rw [List.isEmpty_iff] at hempty
    refine .never hempty fun s v hs => ?_
    rw [Lower.wrapperCode, hempty, List.isEmpty_nil, if_pos rfl, Stmt.ownOfList_append] at hs
    obtain ⟨⟨e, he⟩, -⟩ := h.returns hr s v
      ((List.mem_append.1 hs).resolve_right ret_not_mem_writeBackStmts)
    have hmem : e ∈ w.exits := hexits ▸ (Block.mem_exits (b := .mk default ss)).2 he
    exact List.not_mem_nil (hempty ▸ hmem)
  case isFalse hne =>
    have hne : w.exits ≠ [] := fun h => hne (by rw [h]; rfl)
    obtain ⟨sig, -, -, -, rfl⟩ := hcalls
    refine .early hne (ends_code hne) (fun s v hs => ?_) (h.raises_code hr hexits)
    rw [Stmt.ownOfList_append] at hs
    obtain ⟨-, hret⟩ := h.returns hr s v
      ((List.mem_append.1 hs).resolve_right ret_not_mem_writeBackStmts)
    rw [ends_code hne, List.append_assoc]
    exact hret _

end Code

end RaisesAs

/-! ## Lowered code -/

namespace LoweringPlan

variable {p : LoweringPlan} {D : Demands} {fn : FunctionDef Mark} {globals : List Name} {r : Region}

theorem hoistedDeclarations_still (bs : List BindingId) :
    ∀ x ∈ p.hoistedDeclarations bs, x.Still := by
  intro x hx
  obtain ⟨b, -, rfl⟩ := List.mem_map.1 hx
  exact Stmt.still_declaration nofun

theorem loopArgs_makes (m : Mark) (drivers : List (BindingId × Name)) (e : Exit) :
    ¬ Makes e (Expr.ownOfList (loopArgs m drivers)) := by
  induction drivers with
  | nil => simp [loopArgs, Expr.ownOfList]
  | cons d ds ih => simpa [loopArgs, Expr.ownOfList, Expr.own, makes_expr] using ih

/-- What the declaration of a binding becomes raises and returns nothing. -/
theorem rendersDeclaration_raisesAs {m : Mark} {b : Binding} {value : Option (Expr Span)}
    (h : ∀ v ∈ value, v.Quiet) :
    RaisesAs r (fun _ => false) (p.rendersDeclaration r m b value) := by
  have hvalue : ∀ v ∈ some (value.getD (.literal m.span .undefined)), v.Quiet := by
    intro v hv
    obtain rfl := Option.some.inj hv
    cases value with
    | none => exact ⟨fun e => by simp [Expr.own, makes_expr], fun _ h => absurd h List.not_mem_nil⟩
    | some v => exact h v rfl
  have hform :
      ∀ x ∈ p.rendersDeclaration r m b value, x.Still ∧ ∀ s v, .stmt (.ret s v) ∉ x.own := by
    intro x hx
    rw [rendersDeclaration] at hx
    split at hx
    · obtain rfl := List.mem_singleton.1 hx
      exact ⟨Stmt.still_declaration hvalue, by simp [Stmt.own, Expr.ret_not_mem_own]⟩
    · split at hx
      · obtain ⟨v, hv, rfl⟩ := List.mem_map.1 hx
        exact ⟨Stmt.still_assignment Expr.quiet_name (h v (by simpa using hv)),
          by simp [Stmt.own, Expr.ret_not_mem_own]⟩
      · obtain rfl := List.mem_singleton.1 hx
        refine ⟨Stmt.still_declaration h, fun s v => ?_⟩
        cases value <;> simp [Stmt.own, Expr.ret_not_mem_own]
  refine .still (fun x hx => (hform x hx).1) (fun _ _ => rfl) fun _ s v hs => ?_
  obtain ⟨x, hx, hs⟩ := Stmt.mem_ownOfList.1 hs
  exact (hform x hx).2 s v hs

mutual

theorem RendersExpr.quiet (hp : p.Sound fn globals) :
    ∀ {e : Expr Mark} {r : Region} {x : Expr Span}, e.IsSource → (∀ y ∈ e.nodes, y ∈ fn.nodes) →
    p.RendersExpr D r e x → x.Quiet
  | .literal .., _, _, _, _, h => by
    obtain rfl := h
    exact ⟨fun e => by simp [Expr.own, makes_expr], fun _ h => absurd h List.not_mem_nil⟩
  | .name .., _, _, _, _, h => by
    obtain rfl := h
    exact Expr.quiet_name
  | .unary _ _ e, _, _, hsrc, hin, h => by
    have hsub : e.IsSource := hsrc
    obtain ⟨e', he, rfl⟩ := h
    have hq := RendersExpr.quiet hp hsub (fun y hy => hin y (List.mem_cons_of_mem _ hy)) he
    exact ⟨fun e => by simpa [Expr.own, makes_expr] using hq.makes e,
      fun _ h => absurd h List.not_mem_nil⟩
  | .binary _ _ e f, _, _, hsrc, hin, h => by
    obtain ⟨e', f', he, hf, rfl⟩ := h
    have hqe := RendersExpr.quiet hp hsrc.1
      (fun y hy => hin y (List.mem_cons_of_mem _ (List.mem_append_left _ hy))) he
    have hqf := RendersExpr.quiet hp hsrc.2
      (fun y hy => hin y (List.mem_cons_of_mem _ (List.mem_append_right _ hy))) hf
    exact ⟨fun e => by simpa [Expr.own, makes_expr] using ⟨hqe.makes e, hqf.makes e⟩,
      fun _ h => absurd h List.not_mem_nil⟩
  | .call _ f args, _, _, hsrc, hin, h => by
    obtain ⟨f', args', hf, hargs, rfl⟩ := h
    have hqf := RendersExpr.quiet hp hsrc.1
      (fun y hy => hin y (List.mem_cons_of_mem _ (List.mem_append_left _ hy))) hf
    have hqargs := RendersExprs.makes hp hsrc.2
      (fun y hy => hin y (List.mem_cons_of_mem _ (List.mem_append_right _ hy))) hargs
    exact ⟨fun e => by simpa [Expr.own, makes_expr] using ⟨hqf.makes e, hqargs e⟩, hqf.made⟩
  | .array _ es, _, _, hsrc, hin, h => by
    have hsub : Expr.AreSource es := hsrc
    obtain ⟨es', hes, rfl⟩ := h
    have hq := RendersExprs.makes hp hsub (fun y hy => hin y (List.mem_cons_of_mem _ hy)) hes
    exact ⟨fun e => by simpa [Expr.own, makes_expr] using hq e,
      fun _ h => absurd h List.not_mem_nil⟩
  | .index _ e f, _, _, hsrc, hin, h => by
    obtain ⟨e', f', he, hf, rfl⟩ := h
    have hqe := RendersExpr.quiet hp hsrc.1
      (fun y hy => hin y (List.mem_cons_of_mem _ (List.mem_append_left _ hy))) he
    have hqf := RendersExpr.quiet hp hsrc.2
      (fun y hy => hin y (List.mem_cons_of_mem _ (List.mem_append_right _ hy))) hf
    exact ⟨fun e => by simpa [Expr.own, makes_expr] using ⟨hqe.makes e, hqf.makes e⟩,
      fun _ h => absurd h List.not_mem_nil⟩
  | .function _ _ (.mk _ ss), _, _, hsrc, hin, h => by
    have hsub : Stmt.AreSource ss := hsrc
    obtain ⟨hoisted, out, hout, -, rfl⟩ := h
    refine ⟨fun e => by simp [Expr.own, makes_expr], fun code hc e => ?_⟩
    obtain rfl := List.mem_singleton.1 hc
    rw [Block.statements, raises_still (hoistedDeclarations_still hoisted)]
    exact (RendersStmts.raisesAs hp hsub
      (fun y hy => hin y (List.mem_cons_of_mem _ (List.mem_cons_of_mem _ hy)))
      hout).not_raises rfl e
  | .signal .., _, _, _, _, h | .signalIs .., _, _, _, _, h | .signalValue .., _, _, _, _, h
  | .unknown .., _, _, _, _, h => h.elim

theorem RendersExprs.makes (hp : p.Sound fn globals) : ∀ {es : List (Expr Mark)} {r : Region}
    {xs : List (Expr Span)}, Expr.AreSource es → (∀ y ∈ Expr.nodesOfList es, y ∈ fn.nodes) →
    p.RendersExprs D r es xs → ∀ e, ¬ Makes e (Expr.ownOfList xs)
  | [], _, _, _, _, h => by
    obtain rfl := h
    exact fun _ => makes_nil
  | e :: es, _, _, hsrc, hin, h => by
    obtain ⟨e', es', he, hes, rfl⟩ := h
    have hq := RendersExpr.quiet hp hsrc.1 (fun y hy => hin y (List.mem_append_left _ hy)) he
    have hqs := RendersExprs.makes hp hsrc.2 (fun y hy => hin y (List.mem_append_right _ hy)) hes
    exact fun f => by simpa [Expr.ownOfList] using ⟨hq.makes f, hqs f⟩

/-- What a statement is lowered to raises the exits of the statement. -/
theorem RendersStmt.raisesAs (hp : p.Sound fn globals) : ∀ {s : Stmt Mark} {r : Region}
    {out : List (Stmt Span)}, s.IsSource → (∀ y ∈ s.nodes, y ∈ fn.nodes) → p.RendersStmt D r s out →
    RaisesAs r (fun e => s.mayExit e r.inLoop) out
  | .declaration _ _ _ none, _, _, _, _, h => by
    obtain ⟨b, -, rfl⟩ := h
    exact rendersDeclaration_raisesAs nofun
  | .declaration _ _ _ (some e), _, _, hsrc, hin, h => by
    have hsub : e.IsSource := hsrc
    obtain ⟨b, e', -, he, rfl⟩ := h
    have hq := RendersExpr.quiet hp hsub (fun y hy => hin y (List.mem_cons_of_mem _ hy)) he
    exact rendersDeclaration_raisesAs fun v hv => Option.some.inj hv ▸ hq
  | .assignment _ t v, _, _, hsrc, hin, h => by
    obtain ⟨t', v', ht, hv, rfl⟩ := h
    have hqt := RendersExpr.quiet hp hsrc.1
      (fun y hy => hin y (List.mem_cons_of_mem _ (List.mem_append_left _ hy))) ht
    have hqv := RendersExpr.quiet hp hsrc.2
      (fun y hy => hin y (List.mem_cons_of_mem _ (List.mem_append_right _ hy))) hv
    refine .still (fun x hx => ?_) (fun _ _ => rfl) fun _ s v hs => ?_
    · obtain rfl := List.mem_singleton.1 hx
      exact Stmt.still_assignment hqt hqv
    · simp [Stmt.ownOfList, Stmt.own, Expr.ret_not_mem_own] at hs
  | .expression _ e, _, _, hsrc, hin, h => by
    have hsub : e.IsSource := hsrc
    obtain ⟨e', he, rfl⟩ := h
    have hq := RendersExpr.quiet hp hsub (fun y hy => hin y (List.mem_cons_of_mem _ hy)) he
    refine .still (fun x hx => ?_) (fun _ _ => rfl) fun _ s v hs => ?_
    · obtain rfl := List.mem_singleton.1 hx
      exact Stmt.still_expression hq.makes
    · simp [Stmt.ownOfList, Stmt.own, Expr.ret_not_mem_own] at hs
  | .block b, _, _, hsrc, hin, h => by
    have hsub : b.IsSource := hsrc
    obtain ⟨c, hc, rfl⟩ := h
    have hb := RendersBlock.raisesAs hp hsub hin hc
    split
    · exact hb
    · exact hb.block
  | .branch _ c t none, _, _, hsrc, hin, h => by
    obtain ⟨c', t', hc, ht, rfl⟩ := h
    have hqc := RendersExpr.quiet hp hsrc.1
      (fun y hy => hin y (List.mem_cons_of_mem _ (List.mem_append_left _ hy))) hc
    exact .branch hqc.makes (RendersBlock.raisesAs hp hsrc.2 (fun y hy =>
      hin y (List.mem_cons_of_mem _ (List.mem_append_right _ (List.mem_append_left _ hy))))
        ht) nofun
        fun _ _ => rfl
  | .branch _ c t (some f), _, _, hsrc, hin, h => by
    obtain ⟨c', t', f', hc, ht, hf, rfl⟩ := h
    have hqc := RendersExpr.quiet hp hsrc.1
      (fun y hy => hin y (List.mem_cons_of_mem _ (List.mem_append_left _ hy))) hc
    refine .branch hqc.makes (RendersBlock.raisesAs hp hsrc.2.1 (fun y hy =>
      hin y (List.mem_cons_of_mem _ (List.mem_append_right _ (List.mem_append_left _ hy)))) ht)
      (fun b hb => ?_) nofun
    obtain rfl := Option.some.inj hb
    exact RendersBlock.raisesAs hp hsrc.2.2 (fun y hy =>
      hin y (List.mem_cons_of_mem _ (List.mem_append_right _ (List.mem_append_right _ hy)))) hf
  | .loop m hd (.mk b ss), r, _, hsrc, hin, h => by
    have hx : .stmt (.loop m hd (.mk b ss)) ∈ fn.nodes := hin _ List.mem_cons_self
    have hinh : ∀ y ∈ hd.nodes, y ∈ fn.nodes := fun y hy =>
      hin y (List.mem_cons_of_mem _ (List.mem_append_left _ hy))
    have hinb : ∀ y ∈ Stmt.nodesOfList ss, y ∈ fn.nodes := fun y hy =>
      hin y (Stmt.mem_nodes_body hy)
    rw [RendersStmt] at h
    cases hw : (p.loopPlan m.id).wrapper with
    | none =>
      rw [hw] at h
      obtain ⟨h', body, hh, hb, rfl⟩ := h
      exact .loop (i := r.loopBody) (RendersHeader.silent hp hsrc.1 hinh hh) rfl
        (RendersStmts.raisesAs hp hsrc.2 hinb hb)
    | some w =>
      rw [hw] at h
      obtain ⟨drivers, h', body, inner, callee, -, hh, hb, hcalls, -, hout⟩ := h
      obtain ⟨hmakes, hstays⟩ := RendersHeader.silent (r := r.loopHeader drivers) hp hsrc.1 hinh hh
      have hexits : w.exits = Stmt.exits ss := hp.loopExits hx hw
      have hcode := RendersStmts.raisesAs (r := p.loopRegion r m drivers) hp hsrc.2 hinb hb
      have hends := fun hne =>
        (⟨_, _, _, RaisesAs.ends_code hne⟩ : EndsWithMarker (Lower.wrapperCode w
        (Lower.loopWriteBacks p (p.loopPlan m.id) drivers) body))
      -- the wrapper is made in the call, or before the loop under a name
      rcases hout with ⟨rfl, rfl⟩ | ⟨n, -, rfl, rfl⟩
      · exact .loop ⟨hmakes, hstays⟩ rfl (RaisesAs.call hcalls (loopArgs_makes m drivers) rfl hexits
          (hcode.raises_code rfl hexits) hends)
      · exact .namedLoop hcalls (loopArgs_makes m drivers) rfl hexits
          (hcode.raises_code rfl hexits) hends
          ⟨hmakes, hstays⟩
  | .ret m none, _, _, _, _, h => by
    obtain rfl := h
    exact .leave (fun _ hv => absurd hv (by simp)) (Stmt.still_ret nofun)
  | .ret m (some e), _, _, hsrc, hin, h => by
    have hsub : e.IsSource := hsrc
    obtain ⟨e', he, rfl⟩ := h
    have hq := RendersExpr.quiet hp hsub (fun y hy => hin y (List.mem_cons_of_mem _ hy)) he
    have hv : ∀ x ∈ some e', ∀ e, ¬ Makes e x.own := fun x hx => Option.some.inj hx ▸ hq.makes
    exact .leave hv (Stmt.still_ret hv)
  | .brk _, _, _, _, _, h => by
    obtain rfl := h
    exact .jump Stmt.still_brk fun _ _ => by simp [Stmt.own]
  | .cont _, _, _, _, _, h => by
    obtain rfl := h
    exact .jump Stmt.still_cont fun _ _ => by simp [Stmt.own]
  | .unknown .., _, _, hsrc, _, _ => hsrc.elim

theorem RendersStmts.raisesAs (hp : p.Sound fn globals) : ∀ {ss : List (Stmt Mark)} {r : Region}
    {out : List (Stmt Span)}, Stmt.AreSource ss → (∀ y ∈ Stmt.nodesOfList ss, y ∈ fn.nodes) →
    p.RendersStmts D r ss out → RaisesAs r (fun e => Stmt.mayExitList e r.inLoop ss) out
  | [], _, _, _, _, h => by
    obtain rfl := h
    exact .still (fun _ h => absurd h List.not_mem_nil) (fun _ _ => rfl)
      fun _ _ _ h => absurd h List.not_mem_nil
  | s :: ss, _, _, hsrc, hin, h => by
    obtain ⟨o, os, ho, hos, rfl⟩ := h
    exact (RendersStmt.raisesAs hp hsrc.1 (fun y hy => hin y (List.mem_append_left _ hy)) ho).append
      (RendersStmts.raisesAs hp hsrc.2 (fun y hy => hin y (List.mem_append_right _ hy)) hos)

theorem RendersBlock.raisesAs (hp : p.Sound fn globals) :
    ∀ {b : Block Mark} {r : Region} {x : Block Span}, b.IsSource → (∀ y ∈ b.nodes, y ∈ fn.nodes) →
    p.RendersBlock D r b x → RaisesAs r (fun e => b.mayExitIn e r.inLoop) x.statements
  | .mk m ss, r, _, hsrc, hin, h => by
    have hin' : ∀ y ∈ Stmt.nodesOfList ss, y ∈ fn.nodes :=
      fun y hy => hin y (List.mem_cons_of_mem _ hy)
    rw [RendersBlock] at h
    cases hw : p.analysis.wrapper? m.id with
    | none =>
      rw [hw] at h
      obtain ⟨out, hout, rfl⟩ := h
      exact RendersStmts.raisesAs hp hsrc hin' hout
    | some w =>
      rw [hw] at h
      obtain ⟨body, out, hbody, hcalls, -, rfl⟩ := h
      have hexits : w.exits = Stmt.exits ss := hp.blockExits (hin _ List.mem_cons_self) hw
      exact RaisesAs.call hcalls (fun _ => makes_nil) rfl hexits
        ((RendersStmts.raisesAs (r := r.wrapper []) hp hsrc hin' hbody).raises_code rfl hexits)
        fun hne => ⟨_, _, _, RaisesAs.ends_code hne⟩

/-- The lowered header of a loop makes no signals, and in a wrapper it returns nothing. -/
theorem RendersHeader.silent (hp : p.Sound fn globals) :
    ∀ {h : Header Mark} {r : Region} {x : Header Span}, h.IsSource → (∀ y ∈ h.nodes, y ∈ fn.nodes) →
    p.RendersHeader D r h x → r.Silent x.own
  | .whileTrue _ c, _, _, hsrc, hin, h => by
    have hsub : c.IsSource := hsrc
    obtain ⟨c', hc, rfl⟩ := h
    have hq := RendersExpr.quiet hp hsub (fun y hy => hin y (List.mem_cons_of_mem _ hy)) hc
    exact .header (.expr hq.makes)
  | .counting _ i c u, r, _, hsrc, hin, h => by
    obtain ⟨hi, hc, hu⟩ := Header.shaped_counting.1 hsrc
    obtain ⟨i', c', u', ⟨hi₀, hi'⟩, ⟨hc₀, hc'⟩, ⟨hu₀, hu'⟩, rfl⟩ := rendersHeader_counting.1 h
    rw [Header.nodes_counting] at hin
    have hinit : r.Silent (i'.elim [] Stmt.own) := by
      cases i with
      | none => exact hi₀ rfl ▸ .nil
      | some s =>
        exact (RendersStmt.raisesAs hp (hi s rfl).2
          (fun y hy => hin y (List.mem_cons_of_mem _ (List.mem_append_left _ hy)))
          (hi' s rfl)).clause
            fun e => Stmt.mayExit_clause (.inl (hi s rfl).1)
    have hcond : r.Silent (c'.elim [] Expr.own) := by
      cases c with
      | none => exact hc₀ rfl ▸ .nil
      | some e =>
        obtain ⟨e', he, rfl⟩ := hc' e rfl
        exact .expr (RendersExpr.quiet hp (hc e rfl) (fun y hy => hin y (List.mem_cons_of_mem _
          (List.mem_append_right _ (List.mem_append_left _ hy)))) he).makes
    have hupdate : r.Silent (u'.elim [] Stmt.own) := by
      cases u with
      | none => exact hu₀ rfl ▸ .nil
      | some s =>
        exact (RendersStmt.raisesAs hp (hu s rfl).2 (fun y hy => hin y (List.mem_cons_of_mem _
          (List.mem_append_right _ (List.mem_append_right _ hy)))) (hu' s rfl)).clause
            fun e => Stmt.mayExit_clause (.inr (hu s rfl).1)
    rw [Header.own_counting]
    exact .header (hinit.append (hcond.append hupdate))
  | .forOf _ _ _ e, _, _, hsrc, hin, h => by
    have hsub : e.IsSource := hsrc
    obtain ⟨e', n', k', he, -, rfl⟩ := h
    have hq := RendersExpr.quiet hp hsub (fun y hy => hin y (List.mem_cons_of_mem _ hy)) he
    exact .header (.expr hq.makes)
  | .unknown .., _, _, hsrc, _, _ => hsrc.elim

end

/-- Lowered wrappers raise the signals of their exits. -/
theorem Sound.meets_raisesExits (hp : p.Sound fn globals) : p.Meets fn globals raisesExits where
  function {r _ _ _ _ _ _} _ _ _ hsrc hin h :=
    (RendersStmts.raisesAs (r := r.function) hp hsrc hin h).not_raises rfl
  block {r _ _ _ m ss _ _ _ _} _ _ hsrc hin hw h hcalls _ :=
    (RendersStmts.raisesAs (r := r.wrapper []) hp hsrc
      (fun y hy => hin y (List.mem_cons_of_mem _ hy)) h).raisesExits rfl
        (hp.blockExits (b := .mk m ss) (hin _ List.mem_cons_self) hw) hcalls
  loop {r _ _ _ m _ _ _ _ drivers _ _ _} _ _ hsrc hin hw _ h hcalls :=
    (RendersStmts.raisesAs (r := p.loopRegion r m drivers) hp hsrc (fun y hy => hin y
      (Stmt.mem_nodes_body hy))
      h).raisesExits rfl
        (hp.loopExits (hin _ List.mem_cons_self) hw) hcalls

end LoweringPlan

/-- In what an analysed function is lowered to, every wrapper without exits returns nothing and is
    only called. Every other one ends with the marker, and otherwise returns signals that it makes
    or that it receives from wrappers that it calls; the signals that it raises are those of its
    exits. No function of the source raises any. -/
theorem FunctionDef.lower_raises {fn : FunctionDef Span} (hsrc : fn.IsSource) {globals : List Name}
    {hoisting : Bool} {a : Analysis} (h : fn.number.analyse globals hoisting = .ok a) :
    ∃ out, fn.number.lower a = .ok out ∧
      LoweringPlan.RendersFunction ⟨a, .ofAnalysis a⟩ raisesExits fn.number out := by
  have ha := FunctionDef.analyse_analysed (fn.shaped_number.2 hsrc) (fn.numberFrom_consecutive 1) h
  exact ha.lower_renders (LoweringPlan.Sound.meets_raisesExits ⟨ha, rfl⟩)

/-- The theorem for the function in `capturingLoop`, whose loop has a wrapper that is left by a
    `break`. -/
theorem FunctionDef.lower_raises_capturingLoop : ∃ a out,
    capturingLoop.number.analyse ["g"] true = .ok a ∧ a.wrappers.map (·.exits) = [[.brk]] ∧
      capturingLoop.number.lower a = .ok out ∧
      LoweringPlan.RendersFunction ⟨a, .ofAnalysis a⟩ raisesExits capturingLoop.number out := by
  have hsrc : capturingLoop.IsSource := by
    simp [capturingLoop, FunctionDef.Shaped, Block.Shaped, Stmt.ShapedList, Stmt.Shaped,
      Header.Shaped, Expr.Shaped, Expr.ShapedList]
  have hexits : (capturingLoop.number.analyse ["g"] true).map (·.wrappers.map (·.exits)) =
      .ok [[.brk]] := by rfl
  cases ha : capturingLoop.number.analyse ["g"] true with
  | error e =>
    rw [ha] at hexits
    cases hexits
  | ok a =>
    rw [ha] at hexits
    obtain ⟨out, hout, hrenders⟩ := FunctionDef.lower_raises hsrc ha
    exact ⟨a, out, rfl, Except.ok.inj hexits, hout, hrenders⟩

end FlatScope
