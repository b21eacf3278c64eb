import FlatScope.Proofs.Run.Kept

/-!
# Code that copies a variable before it is left

The code of a wrapper that has to hand a variable back *covers* every way out of it if each `return`
of the code itself stands directly behind a copy of the variable, and so does the end
(`Block.Covers`). Then the two variables agree wherever such code returns or ends
(`Block.Covers.agree`), unless it returns for the function around the wrapper, with a value that is
computed after the copy.
-/

namespace FlatScope

variable {α : Type}

/-- A statement that gives the variable `d` the value of `q`. -/
def Stmt.Copies (d q : Name) (s : Stmt α) : Prop :=
  ∃ a b c, s = .assignment a (.name b d) (.name c q)

/-- What a wrapper returns where it is left: a signal, or what another wrapper has returned. -/
def Expr.HandsOn : Option (Expr α) → Prop
  | some (.signal _ _ none) | some (.signal _ (some .ret) (some _)) | some (.name ..) => True
  | _ => False

mutual

/-- Every `return` in a block, outside of the functions nested in it, stands directly behind a copy
    and returns a signal. -/
def Block.Covered (d q : Name) : Block α → Prop
  | .mk _ ss => Stmt.AreCovered d q False ss

/-- Every `return` in a statement stands directly behind a copy; `copied` says whether the statement
    does. -/
def Stmt.Covered (d q : Name) (copied : Prop) : Stmt α → Prop
  | .ret _ v => copied ∧ Expr.HandsOn v
  | .block b => b.Covered d q
  | .branch _ _ t none => t.Covered d q
  | .branch _ _ t (some e) => t.Covered d q ∧ e.Covered d q
  | .loop _ h b => h.Covered d q ∧ b.Covered d q
  | .declaration .. | .assignment .. | .expression .. | .brk _ | .cont _ | .unknown .. => True

/-- A list of statements is covered; the first may count on the copy that `copied` speaks of. -/
def Stmt.AreCovered (d q : Name) (copied : Prop) : List (Stmt α) → Prop
  | [] => True
  | s :: ss => s.Covered d q copied ∧ Stmt.AreCovered d q (s.Copies d q) ss

/-- A header is covered where its clauses are. -/
def Header.Covered (d q : Name) : Header α → Prop
  | .counting _ i _ u =>
    (match i with
      | none => True
      | some s => s.Covered d q False) ∧
    (match u with
      | none => True
      | some s => s.Covered d q False)
  | .whileTrue .. | .forOf .. | .unknown .. => True

end

/-- Every way out of a block stands directly behind a copy of `q` into `d`: each `return` of the
    block itself, and its end. -/
structure Block.Covers (d q : Name) (b : Block α) : Prop where
  returns : b.Covered d q
  ends : ∃ ss c, c.Copies d q ∧
    (b.statements = ss ++ [c] ∨ ∃ a v, b.statements = ss ++ [c, .ret a v])

/-- Both variables hold the same value. -/
def Store.Agree (s : Store) (env : FrameId) (d q : Name) : Prop :=
  ∃ v, s.get env d = .ok v ∧ s.get env q = .ok v

section Syntax

variable {d q : Name} {copied : Prop}

theorem Header.covered_counting {a : α} {i : Option (Stmt α)} {c : Option (Expr α)}
    {u : Option (Stmt α)} : (Header.counting a i c u).Covered d q ↔
      (∀ s, i = some s → s.Covered d q False) ∧ ∀ s, u = some s → s.Covered d q False := by
  cases i <;> cases u <;> simp [Header.Covered]

/-- What is covered without a copy is covered with one. -/
theorem Stmt.Covered.weaken {s : Stmt α} (h : s.Covered d q False) : s.Covered d q copied := by
  cases s with
  | ret a v =>
    rw [Stmt.Covered] at h
    exact h.1.elim
  | branch a c t e => cases e <;> (rw [Stmt.Covered] at h ⊢; exact h)
  | _ =>
    rw [Stmt.Covered] at h ⊢
    exact h

theorem Stmt.AreCovered.weaken {ss : List (Stmt α)} (h : Stmt.AreCovered d q False ss) :
    Stmt.AreCovered d q copied ss := by
  cases ss with
  | nil => trivial
  | cons s ss => exact ⟨h.1.weaken, h.2⟩

theorem Stmt.AreCovered.append {ss ts : List (Stmt α)} (h : Stmt.AreCovered d q copied ss)
    (h' : Stmt.AreCovered d q False ts) : Stmt.AreCovered d q copied (ss ++ ts) := by
  induction ss generalizing copied with
  | nil => exact h'.weaken
  | cons s ss ih => exact ⟨h.1, ih h.2⟩

theorem Stmt.areCovered_of_forall {ss : List (Stmt α)} (h : ∀ s ∈ ss, s.Covered d q False) :
    Stmt.AreCovered d q copied ss := by
  induction ss generalizing copied with
  | nil => trivial
  | cons s ss ih =>
    exact ⟨(h s List.mem_cons_self).weaken, ih fun t ht => h t (List.mem_cons_of_mem _ ht)⟩

end Syntax

namespace Eval

open Store

variable {β : Type} {n : Nat} {env : FrameId} {d q : Name} {copied : Prop} {s s' : Store}

/-! ## Expressions never return -/

/-- A piece of a program that never returns from the function around it. -/
structure Quiet (x : Run α) : Prop where
  never : ∀ {s v t}, x s ≠ .interrupted (.returned v) t

namespace Quiet

variable {x : Run α} {f : α → Run β}

theorem bind (hx : Quiet x) (hf : ∀ a, Quiet (f a)) : Quiet (x >>= f) where
  never {s v t} h := by
    rw [Process.bind_apply] at h
    cases hxs : x s with
    | done a s₁ =>
      rw [hxs] at h
      exact (hf a).never h
    | interrupted w s₁ =>
      rw [hxs] at h
      cases h
      exact hx.never hxs
    | outOfFuel =>
      rw [hxs] at h
      cases h

theorem outOfFuel : Quiet (Process.outOfFuel : Run α) := ⟨fun h => by cases h⟩

theorem pure (a : α) : Quiet (Pure.pure a : Run α) := ⟨fun h => by cases h⟩

theorem fail (e : RunError) : Quiet (Process.fail e : Run α) := ⟨fun h => by cases h⟩

theorem make (g : Store → α × Store) : Quiet (Process.make g) := ⟨fun h => by cases h⟩

theorem read (g : Store → Except RunError α) : Quiet (Process.read g) where
  never {s v t} h := by
    rw [Process.read] at h
    cases hg : g s <;> rw [hg] at h <;> cases h

theorem changeAt {ι : Type} (place : Store → Except RunError ι) (g : ι → Store → Store) :
    Quiet (Process.changeAt place g) where
  never {s v t} h := by
    rw [Process.changeAt] at h
    cases hp : place s <;> rw [hp] at h <;> cases h

theorem failWith (e : Text → RunError) (v : Value) : Quiet (Eval.failWith e v : Run α) :=
  (read _).bind fun _ => fail _

theorem operate (g : Store → Except RunError Value) : Quiet (Eval.operate g) :=
  (read _).bind fun _ => make _

theorem sequenceOf (v : Value) : Quiet (Eval.sequenceOf v) := by
  unfold Eval.sequenceOf
  split
  · exact pure _
  · exact pure _
  · exact failWith _ _

/-- A call ends where its function returns. -/
theorem callClosure (n : Nat) (c : Closure) (args : List Value) :
    Quiet (Eval.callClosure n c args) := by
  cases n with
  | zero => exact outOfFuel
  | succ n =>
    rw [Eval.callClosure]
    refine Quiet.bind ⟨fun {s v t} h => ?_⟩ fun env => ⟨fun {s v t} h => ?_⟩
    · cases hc : callFrame c args <;> rw [hc] at h <;> cases h
    · split at h
      · cases h
      · cases h
      · next hne _ =>
        cases h
        exact hne _ rfl
      · cases h

theorem call (n : Nat) (f : Value) (args : List Value) : Quiet (Eval.call n f args) := by
  cases n with
  | zero => exact outOfFuel
  | succ n =>
    cases f with
    | builtin b =>
      refine ⟨fun {s v t} h => ?_⟩
      rw [call_builtin] at h
      split at h <;> cases h
    | closure i => exact (read _).bind fun c => callClosure n c args
    | _ => exact failWith _ _

end Quiet

/-- Expressions never return. -/
theorem quiet (n : Nat) : (∀ (e : Expr Span) (env : FrameId), Quiet (expr n e env)) ∧
    ∀ (es : List (Expr Span)) (env : FrameId), Quiet (exprs n es env) := by
  induction n with
  | zero => exact ⟨fun _ _ => .outOfFuel, fun _ _ => .outOfFuel⟩
  | succ n ih =>
    obtain ⟨ihe, ihes⟩ := ih
    refine ⟨fun e env => ?_, fun es env => ?_⟩
    · cases e with
      | literal m v => cases v <;> rw [expr] <;> exact .pure _
      | name m x =>
        rw [expr]
        exact .read _
      | unary m op e =>
        rw [expr]
        exact (ihe e env).bind fun _ => .operate _
      | binary m op l r =>
        cases op with
        | and | or =>
          rw [expr]
          refine (ihe l env).bind fun v => ?_
          split <;> first | exact ihe r env | exact .pure _
        | _ =>
          rw [expr]
          · exact (ihe l env).bind fun _ => (ihe r env).bind fun _ => .operate _
          all_goals simp
      | call m f args =>
        rw [expr]
        exact (ihe f env).bind fun _ => (ihes args env).bind fun _ => .call n _ _
      | array m es =>
        rw [expr]
        exact (ihes es env).bind fun _ => .make _
      | index m b i =>
        rw [expr]
        exact (ihe b env).bind fun _ => (ihe i env).bind fun _ => .read _
      | function m ps b =>
        rw [expr]
        exact .make _
      | signal m k v =>
        cases v with
        | none =>
          rw [expr]
          refine (Quiet.pure _).bind fun v => ?_
          split <;> exact .pure _
        | some e =>
          rw [expr]
          refine (ihe e env).bind fun v => ?_
          split <;> exact .pure _
      | signalIs m e k =>
        rw [expr]
        exact (ihe e env).bind fun _ => .pure _
      | signalValue m e =>
        rw [expr]
        refine (ihe e env).bind fun v => ?_
        split
        · exact .pure _
        · exact .failWith _ _
      | unknown m x =>
        rw [expr]
        exact .fail _
    · cases es with
      | nil =>
        rw [exprs]
        exact .pure _
      | cons e es =>
        rw [exprs]
        exact (ihe e env).bind fun _ => (ihes es env).bind fun _ => .pure _

/-! ## Ways out -/

/-- A statement that copies a variable makes both agree. -/
theorem agree_of_copies {c : Stmt Span} (hc : c.Copies d q) (hs : s.Sound)
    (h : stmt n c env s = .done () s') : s'.Agree env d q := by
  obtain ⟨a, b, c, rfl⟩ := hc
  obtain _ | _ | n := n
  · cases h
  · cases h
  · rw [stmt, Process.bind_apply, expr] at h
    rw [Process.read] at h
    cases hq : s.get env q with
    | error e =>
      rw [hq] at h
      cases h
    | ok v =>
      rw [hq] at h
      dsimp only at h
      rw [assign, setVariable, Process.changeAt] at h
      cases ht : s.setTarget env d with
      | error e =>
        rw [ht] at h
        cases h
      | ok o =>
        rw [ht] at h
        cases h
        have hd : s.Finds d env o := by
          rw [setTarget] at ht
          split at ht
          · cases ht
          · cases ht
          · cases ht
          · next hfind =>
            cases ht
            exact (finds_of_find? hfind).1
        obtain ⟨f, e, hqf⟩ : ∃ f e, s.find? q env = some (f, e) := by
          rw [Store.get] at hq
          split at hq
          · cases hq
          · cases hq
          · exact ⟨_, _, by assumption⟩
        have hq' := (finds_of_find? hqf).1
        have hlater := extends_write s o d v
        have hs' := hs.write o d v
        obtain ⟨e', he'⟩ := hd.cell?
        refine ⟨v, ((hlater.finds hd).get hs').2 (content?_write_self he'),
          ((hlater.finds hq').get hs').2 ?_⟩
        -- the two names may mean one variable
        by_cases hne : (f, q) = (o, d)
        · obtain ⟨rfl, rfl⟩ := Prod.mk.inj hne
          exact content?_write_self he'
        · rw [content?_write_ne hne]
          exact (hq'.get hs).1 hq

/-- Where a piece of a program returns from its function, both variables agree, or the value is that
    of a `return` of the function around it. It may be that they have agreed before. -/
structure Leaves (d q : Name) (env : FrameId) (copied : Prop) (x : Run α) : Prop where
  handed : ∀ {s v t}, s.Sound → env < s.frames.size → (copied → s.Agree env d q) →
    x s = .interrupted (.returned v) t → (∃ u, v = .signal .ret u) ∨ t.Agree env d q

namespace Leaves

variable {x : Run α} {f : α → Run β} {ns : List (Node Span)}

theorem weaken (h : Leaves d q env False x) : Leaves d q env copied x :=
  ⟨fun hs he _ hx => h.handed hs he False.elim hx⟩

theorem bind (hk : KeepsTo ns env x) (hx : Leaves d q env copied x)
    (hf : ∀ a, Leaves d q env False (f a)) : Leaves d q env copied (x >>= f) where
  handed {s v t} hs he hc h := by
    rw [Process.bind_apply] at h
    cases hxs : x s with
    | done a s₁ =>
      rw [hxs] at h
      have hch : s.Changes ns env s₁ := hk.changes hs he (by rw [hxs]; rfl)
      exact (hf a).handed hch.sound (hch.later.lt he) False.elim h
    | interrupted w s₁ =>
      rw [hxs] at h
      cases h
      exact hx.handed hs he hc hxs
    | outOfFuel =>
      rw [hxs] at h
      cases h

theorem goesOn {x : Run Unit} (h : Leaves d q env False x) :
    Leaves d q env False (Eval.goesOn x) where
  handed {s v t} hs he hc hx := by
    refine h.handed hs he hc ?_
    rw [Eval.goesOn] at hx
    cases hxs : x s with
    | done a s₁ =>
      rw [hxs] at hx
      cases hx
    | interrupted w s₁ =>
      rw [hxs] at hx
      cases w <;> cases hx
      rfl
    | outOfFuel =>
      rw [hxs] at hx
      cases hx

end Leaves

/-- What never returns has nothing to hand over. -/
theorem Quiet.leaves {x : Run α} (h : Quiet x) : Leaves d q env copied x :=
  ⟨fun _ _ _ hx => absurd hx h.never⟩

theorem leaves_expr (e : Expr Span) : Leaves d q env copied (expr n e env) :=
  ((quiet n).1 e env).leaves

/-- Within a number of steps, covered code leaves its function with both variables agreeing. -/
structure Covering (d q : Name) (n : Nat) : Prop where
  stmts : ∀ {ss env copied}, Stmt.AreFlat ss → Stmt.AreCovered d q copied ss →
    Leaves d q env copied (stmts n ss env)
  block : ∀ {b env}, b.IsFlat → b.Covered d q → Leaves d q env False (block n b env)
  stmt : ∀ {s env copied}, s.IsFlat → s.Covered d q copied → Leaves d q env copied (stmt n s env)
  loop : ∀ {h b env}, h.IsFlat → h.Covered d q → b.IsFlat → b.Covered d q →
    Leaves d q env False (loop n h b env)
  whileLoop : ∀ {c b env}, c.IsFlat → b.IsFlat → b.Covered d q →
    Leaves d q env False (whileLoop n c b env)
  countingLoop : ∀ {c u b env}, (∀ e, c = some e → e.IsFlat) →
    (∀ s, u = some s → s.IsFlat ∧ s.Covered d q False) → b.IsFlat → b.Covered d q →
    Leaves d q env False (countingLoop n false c u b env)
  update : ∀ {u env}, (∀ s, u = some s → s.IsFlat ∧ s.Covered d q False) →
    Leaves d q env False (update n u env)
  forOfLoop : ∀ {p i x k b env}, k = none ∨ k = some .var → b.IsFlat → b.Covered d q →
    Leaves d q env False (forOfLoop n p i x k b env)

/-- Without fuel nothing runs. -/
theorem covering_zero : Covering d q 0 where
  stmts _ _ := Quiet.outOfFuel.leaves
  block _ _ := Quiet.outOfFuel.leaves
  stmt _ _ := Quiet.outOfFuel.leaves
  loop _ _ _ _ := Quiet.outOfFuel.leaves
  whileLoop _ _ _ := Quiet.outOfFuel.leaves
  countingLoop _ _ _ _ := Quiet.outOfFuel.leaves
  update _ := Quiet.outOfFuel.leaves
  forOfLoop _ _ _ := Quiet.outOfFuel.leaves

/-- Where covered statements return, both variables agree. -/
theorem leaves_stmts (ih : Covering d q n) {ss : List (Stmt Span)} (hf : Stmt.AreFlat ss)
    (hc : Stmt.AreCovered d q copied ss) : Leaves d q env copied (stmts (n + 1) ss env) := by
  cases ss with
  | nil =>
    rw [stmts]
    exact (Quiet.pure _).leaves
  | cons x ss =>
    rw [Stmt.AreFlat] at hf
    rw [Stmt.AreCovered] at hc
    rw [stmts]
    refine ⟨fun {s v t} hs he hag h => ?_⟩
    rw [Process.bind_apply] at h
    cases hx : stmt n x env s with
    | done a s₁ =>
      rw [hx] at h
      have hch : s.Changes x.own env s₁ := ((kept n).stmt hf.1).changes hs he (by rw [hx]; rfl)
      exact (ih.stmts hf.2 hc.2).handed hch.sound (hch.later.lt he)
        (fun hcopy => agree_of_copies hcopy hs hx) h
    | interrupted w s₁ =>
      rw [hx] at h
      cases h
      exact (ih.stmt hf.1 hc.1).handed hs he hag hx
    | outOfFuel =>
      rw [hx] at h
      cases h

theorem leaves_block (ih : Covering d q n) {b : Block Span} (hf : b.IsFlat) (hc : b.Covered d q) :
    Leaves d q env False (block (n + 1) b env) := by
  rw [block, blockFrame_flat hf]
  obtain ⟨k, ss⟩ := b
  exact ih.stmts hf hc

/-- What a wrapper returns where it is left. -/
theorem leaves_ret {a : Span} {v : Option (Expr Span)} (hc : copied ∧ Expr.HandsOn v) :
    Leaves d q env copied (stmt (n + 1) (.ret a v) env) := by
  obtain ⟨hcopied, hv⟩ := hc
  refine ⟨fun {s w t} hs he hag h => ?_⟩
  cases v with
  | none => exact hv.elim
  | some e =>
    rw [stmt, Process.bind_apply] at h
    cases n with
    | zero => cases h
    | succ n =>
      cases e with
      | name b x =>
        rw [expr, Process.read] at h
        cases hx : s.get env x with
        | error e =>
          rw [hx] at h
          cases h
        | ok u =>
          rw [hx] at h
          cases h
          exact .inr (hag hcopied)
      | signal b k u =>
        cases u with
        | none =>
          rw [expr] at h
          cases k <;> cases h <;> exact .inr (hag hcopied)
        | some u =>
          obtain rfl : k = some .ret := by
            cases k with
            | none => exact hv.elim
            | some k => cases k <;> first | rfl | exact hv.elim
          rw [expr, Process.bind_apply] at h
          cases hu : expr n u env s with
          | done z s₁ =>
            rw [hu] at h
            cases h
            exact .inl ⟨z, rfl⟩
          | interrupted w' s₁ =>
            rw [hu] at h
            cases h
            exact absurd hu ((quiet n).1 u env).never
          | outOfFuel =>
            rw [hu] at h
            cases h
      | _ => exact hv.elim

/-- Where a covered statement returns, both variables agree. -/
theorem leaves_stmt (ih : Covering d q n) : ∀ {s : Stmt Span}, s.IsFlat → s.Covered d q copied →
    Leaves d q env copied (stmt (n + 1) s env)
  | .declaration _ _ k none, hf, _ => by
    rw [Stmt.IsFlat] at hf
    rw [hf, stmt]
    exact (Quiet.pure _).leaves
  | .declaration _ _ k (some e), hf, _ => by
    rw [Stmt.IsFlat] at hf
    rw [hf.1, stmt]
    exact (((quiet n).1 e env).bind fun _ => .changeAt _ _).leaves
  | .assignment _ t e, _, _ => by
    rw [stmt]
    refine (((quiet n).1 e env).bind fun v => ?_).leaves
    cases n with
    | zero => exact .outOfFuel
    | succ n =>
      cases t with
      | name a x => exact .changeAt _ _
      | index a b i =>
        rw [assign]
        exact ((quiet n).1 b env).bind fun _ => ((quiet n).1 i env).bind fun _ => .changeAt _ _
      | _ => exact .fail _
  | .expression _ e, _, _ => by
    rw [stmt]
    exact (((quiet n).1 e env).bind fun _ => .pure _).leaves
  | .block b, hf, hc => by
    rw [Stmt.IsFlat] at hf
    rw [Stmt.Covered] at hc
    rw [stmt]
    exact (ih.block hf hc).weaken
  | .branch _ c t none, hf, hc => by
    rw [Stmt.IsFlat] at hf
    rw [Stmt.Covered] at hc
    rw [stmt]
    refine .bind ((kept n).expr hf.1) (leaves_expr c) fun v => ?_
    split
    · exact ih.block hf.2 hc
    · exact (Quiet.pure _).leaves
  | .branch _ c t (some e), hf, hc => by
    rw [Stmt.IsFlat] at hf
    rw [Stmt.Covered] at hc
    rw [stmt]
    refine .bind ((kept n).expr hf.1) (leaves_expr c) fun v => ?_
    split
    · exact ih.block hf.2.1 hc.1
    · exact ih.block hf.2.2 hc.2
  | .loop _ h b, hf, hc => by
    rw [Stmt.IsFlat] at hf
    rw [Stmt.Covered] at hc
    rw [stmt]
    exact (ih.loop hf.1 hc.1 hf.2 hc.2).weaken
  | .ret .., _, hc => by
    rw [Stmt.Covered] at hc
    exact leaves_ret hc
  | .brk _, _, _ | .cont _, _, _ => by
    rw [stmt]
    exact Quiet.leaves ⟨fun h => by cases h⟩
  | .unknown .., _, _ => by
    rw [stmt]
    exact (Quiet.fail _).leaves

theorem leaves_whileLoop (ih : Covering d q n) {c : Expr Span} {b : Block Span} (hc : c.IsFlat)
    (hb : b.IsFlat) (hcov : b.Covered d q) : Leaves d q env False (whileLoop (n + 1) c b env) := by
  rw [whileLoop_succ]
  refine .bind ((kept n).expr hc) (leaves_expr c) fun v => ?_
  split
  · refine .bind ((kept n).block hb).goesOn (ih.block hb hcov).goesOn fun g => ?_
    cases g with
    | true => exact ih.whileLoop hc hb hcov
    | false => exact (Quiet.pure _).leaves
  · exact (Quiet.pure _).leaves

theorem leaves_condition (n : Nat) (c : Option (Expr Span)) :
    Leaves d q env copied (condition n c env) := by
  cases n with
  | zero => exact Quiet.outOfFuel.leaves
  | succ n =>
    cases c with
    | none =>
      rw [condition]
      exact (Quiet.pure _).leaves
    | some e =>
      rw [condition]
      exact (((quiet n).1 e env).bind fun _ => .pure _).leaves

theorem leaves_update (ih : Covering d q n) {u : Option (Stmt Span)}
    (h : ∀ s, u = some s → s.IsFlat ∧ s.Covered d q False) :
    Leaves d q env False (update (n + 1) u env) := by
  cases u with
  | none =>
    rw [update]
    exact (Quiet.pure _).leaves
  | some s =>
    rw [update]
    exact ih.stmt (h s rfl).1 (h s rfl).2

theorem leaves_countingLoop (ih : Covering d q n) {c : Option (Expr Span)} {u : Option (Stmt Span)}
    {b : Block Span} (hc : ∀ e, c = some e → e.IsFlat)
    (hu : ∀ s, u = some s → s.IsFlat ∧ s.Covered d q False) (hb : b.IsFlat) (hcov : b.Covered d q) :
    Leaves d q env False (countingLoop (n + 1) false c u b env) := by
  rw [countingLoop_succ]
  refine .bind ((kept n).condition hc) (leaves_condition n c) fun v => ?_
  split
  · refine .bind ((kept n).block hb).goesOn (ih.block hb hcov).goesOn fun g => ?_
    cases g with
    | true =>
      exact .bind ((kept n).update fun s hs => (hu s hs).1) (ih.update hu) fun _ =>
        ih.countingLoop hc hu hb hcov
    | false => exact (Quiet.pure _).leaves
  · exact (Quiet.pure _).leaves

theorem leaves_forOfLoop (ih : Covering d q n) {p : Sequence} {i : Nat} {x : Name}
    {k : Option DeclKind} {b : Block Span} (hk : k = none ∨ k = some .var) (hb : b.IsFlat)
    (hcov : b.Covered d q) : Leaves d q env False (forOfLoop (n + 1) p i x k b env) where
  handed {s v t} hs he hc h := by
    rw [forOfLoop_flat p i x hk] at h
    cases hp : p.at? s i with
    | none =>
      rw [hp] at h
      cases h
    | some v =>
      rw [hp] at h
      have hset : KeepsTo [.header (.forOf .unknown x none (.literal .unknown .undefined))] env
          (setVariable env x v) := keepsTo_element List.mem_cons_self rfl v
      refine (Leaves.bind hset (Quiet.changeAt _ _).leaves fun _ => .bind ((kept n).block hb).goesOn
          (ih.block hb hcov).goesOn fun g => ?_).handed hs he False.elim h
      cases g with
      | true => exact ih.forOfLoop hk hb hcov
      | false => exact (Quiet.pure _).leaves

/-- Where a loop with a covered header and a covered body returns, both variables agree. -/
theorem leaves_loop (ih : Covering d q n) {b : Block Span} (hb : b.IsFlat) (hcov : b.Covered d q) :
    ∀ {h : Header Span}, h.IsFlat → h.Covered d q → Leaves d q env False (loop (n + 1) h b env)
  | .whileTrue _ c, hf, _ => by
    rw [Header.IsFlat] at hf
    rw [loop]
    exact ih.whileLoop hf hb hcov
  | .counting _ init c u, hf, hc => by
    obtain ⟨hfi, hfc, hfu⟩ := Header.isFlat_counting.1 hf
    obtain ⟨hci, hcu⟩ := Header.covered_counting.1 hc
    have hcu : Leaves d q env False (countingLoop n false c u b env) :=
      ih.countingLoop hfc (fun s hs => ⟨(hfu s hs).2, hcu s hs⟩) hb hcov
    cases init with
    | none =>
      rw [loop]
      exact hcu
    | some s =>
      simp only [loop, copied?_flat (hfi s rfl).2]
      exact .bind ((kept n).stmt (hfi s rfl).2) (ih.stmt (hfi s rfl).2 (hci s rfl)) fun _ => hcu
  | .forOf m x k e, hf, _ => by
    rw [Header.IsFlat] at hf
    rw [loop]
    have hseq : ∀ v, KeepsTo [] env (sequenceOf v) := .sequenceOf
    exact .bind ((kept n).expr hf.2) (leaves_expr e) fun v =>
      .bind (hseq v) (Quiet.sequenceOf v).leaves fun p => ih.forOfLoop hf.1 hb hcov
  | .unknown .., _, _ => by
    rw [loop]
    exact (Quiet.fail _).leaves

/-- Covered code leaves its function with both variables agreeing. -/
theorem covering (d q : Name) (n : Nat) : Covering d q n := by
  induction n with
  | zero => exact covering_zero
  | succ n ih =>
    exact {
      stmts := leaves_stmts ih
      block := leaves_block ih
      stmt := leaves_stmt ih
      loop := fun hf hc hb hcov => leaves_loop ih hb hcov hf hc
      whileLoop := leaves_whileLoop ih
      countingLoop := leaves_countingLoop ih
      update := leaves_update ih
      forOfLoop := leaves_forOfLoop ih }

/-- Statements that run to their end in front of others. -/
theorem stmts_append {ss ts : List (Stmt Span)} {n : Nat} (hf : Stmt.AreFlat ss) (hs : s.Sound)
    (he : env < s.frames.size) (h : stmts n (ss ++ ts) env s = .done () s') :
    ∃ m s₁, s₁.Sound ∧ stmts m ts env s₁ = .done () s' := by
  induction ss generalizing n s with
  | nil => exact ⟨n, s, hs, h⟩
  | cons x ss ih =>
    cases n with
    | zero => cases h
    | succ n =>
      rw [Stmt.AreFlat] at hf
      rw [List.cons_append, stmts, Process.bind_apply] at h
      cases hx : stmt n x env s with
      | done a s₁ =>
        rw [hx] at h
        have hch : s.Changes x.own env s₁ := ((kept n).stmt hf.1).changes hs he (by rw [hx]; rfl)
        exact ih hf.2 hch.sound (hch.later.lt he) h
      | interrupted w s₁ =>
        rw [hx] at h
        cases h
      | outOfFuel =>
        rw [hx] at h
        cases h

/-- A `return` is no end of statements. -/
theorem stmt_ret_ne_done {a : Span} {v : Option (Expr Span)} :
    stmt n (.ret a v) env s ≠ .done () s' := by
  intro h
  cases n with
  | zero => cases h
  | succ n =>
    cases v with
    | none => cases h
    | some e =>
      rw [stmt, Process.bind_apply] at h
      split at h <;> cases h

end Eval

open Eval

variable {d q : Name} {env : FrameId} {s t : Store} {n : Nat}

/-- Wherever code that covers every way out ends, both variables agree. -/
theorem Block.Covers.agree_of_done {b : Block Span} (h : b.Covers d q) (hf : b.IsFlat)
    (hs : s.Sound) (he : env < s.frames.size) (hrun : stmts n b.statements env s = .done () t) :
    t.Agree env d q := by
  obtain ⟨ss, c, hc, hend⟩ := h.ends
  obtain ⟨k, zs⟩ := b
  have hflat : ∀ {ys}, zs = ss ++ ys → Stmt.AreFlat ss := fun hz => by
    subst hz
    exact (Stmt.areFlat_append.1 hf).1
  -- the end is reached behind the copy
  have hlast : ∀ {ys m s₁}, s₁.Sound → stmts m (c :: ys) env s₁ = .done () t →
      (ys = [] ∨ ∃ a v, ys = [.ret a v]) → t.Agree env d q := by
    intro ys m s₁ hs₁ hm hys
    cases m with
    | zero => cases hm
    | succ m =>
      rw [stmts, Process.bind_apply] at hm
      cases hx : stmt m c env s₁ with
      | done a s₂ =>
        rw [hx] at hm
        dsimp only at hm
        rcases hys with rfl | ⟨a, v, rfl⟩
        · obtain rfl : s₂ = t := by
            cases m with
            | zero => cases hm
            | succ m =>
              rw [stmts] at hm
              cases hm
              rfl
          exact agree_of_copies hc hs₁ hx
        · cases m with
          | zero => cases hm
          | succ m =>
            rw [stmts, Process.bind_apply] at hm
            cases hr : stmt m (.ret a v) env s₂ with
            | done u s₃ => exact absurd hr stmt_ret_ne_done
            | _ =>
              rw [hr] at hm
              cases hm
      | _ =>
        rw [hx] at hm
        cases hm
  rcases hend with hend | ⟨a, v, hend⟩ <;> rw [hend] at hrun
  · obtain ⟨m, s₁, hs₁, hm⟩ := stmts_append (hflat hend) hs he hrun
    exact hlast hs₁ hm (.inl rfl)
  · obtain ⟨m, s₁, hs₁, hm⟩ := stmts_append (hflat hend) hs he hrun
    exact hlast hs₁ hm (.inr ⟨a, v, rfl⟩)

/-- Wherever code that covers every way out returns, both variables agree, or it returns for the
    function around it. -/
theorem Block.Covers.agree_of_returned {b : Block Span} (h : b.Covers d q) (hf : b.IsFlat)
    (hs : s.Sound) (he : env < s.frames.size) {v : Value}
    (hrun : stmts n b.statements env s = .interrupted (.returned v) t) :
    (∃ u, v = .signal .ret u) ∨ t.Agree env d q := by
  have hret := h.returns
  obtain ⟨k, ss⟩ := b
  exact ((covering d q n).stmts hf hret).handed hs he False.elim hrun

end FlatScope
