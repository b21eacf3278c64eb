import FlatScope.Proofs.Run.Covered
import FlatScope.Proofs.Run.Visits

/-!
# Calls that hand a parameter back

A wrapper with one parameter is called with the content of a variable of the frame that it is made
in. After the call, the variable and the parameter hold one value (`Store.Hands`) if the code of the
wrapper covers every way out (`hands_of_covers`), and also if neither that code nor any function
that it can call assigns one of the two (`hands_of_not_assigns`).
-/

namespace FlatScope

/-- Between the two stores a call was made from the frame `env`, and at its end the variable `d` of
    `env` holds what the parameter `q` of the call does. The frame of the call is the first that it
    made. -/
def Store.Hands (s t : Store) (env : FrameId) (d q : Name) : Prop :=
  ∃ u, t.get env d = .ok u ∧ t.content? s.frames.size q = some u

namespace Eval

open Store

variable {n : Nat} {c : Closure} {env : FrameId} {s t : Store} {x d q : Name} {code : Block Span}

/-! ## Variables of a call -/

theorem callFrame_eq (hc : c.body.IsFlat) (args : List Value) : callFrame c args =
    .ok (bindVars (bindParams ⟨some c.frame, []⟩ c.params args) c.body.vars) := by
  rw [callFrame, hc.lexicals]
  rfl

namespace Activation

/-- A name that the function declares means the variable in the frame of the call. -/
theorem finds (h : Activation c env s) (hx : x ∈ c.params ∨ x ∈ c.body.vars.map (·.1)) :
    s.Finds x env env := by
  obtain ⟨fr, hf, -, hhas⟩ := h.frame
  exact .here hf ((hhas x).2 hx)

/-- No closure assigns a variable of the call, unless the code of the function makes one that
    does. -/
theorem guards (h : Activation c env s) (hl : ∀ y ∈ c.body.own, ¬ y.Lends x) : s.Guards env x := by
  obtain ⟨s₀, args, fr, hs₀, -, -, rfl, hch⟩ := h.entered
  exact hch.guards (lt_of_frame getElem?_newFrame_self) (guards_newFrame hs₀ fr x) fun _ => hl

/-- A variable that the code of the function sets to one function only is undefined or holds a
    closure of that function. -/
theorem content_of_sets {ps : List Name} (h : Activation c env s) (hx : x ∈ c.body.vars.map (·.1))
    (hps : x ∉ c.params) (hl : ∀ y ∈ c.body.own, ¬ y.Lends x)
    (hset : ∀ y ∈ c.body.own, ∀ v, y.sets? = some (x, v) → ∃ m, v = some (.function m ps code)) :
    s.content? env x = some .undefined ∨ ∃ i : Nat, s.content? env x = some (.closure i) ∧
      s.closures[i]? = some ⟨ps, code, env, none⟩ := by
  obtain ⟨s₀, args, fr, hs₀, -, hfr, rfl, hch⟩ := h.entered
  have hfind : fr.find? x = some ⟨some .undefined, false⟩ := by
    rw [callFrame_eq h.flat] at hfr
    cases hfr
    have hno : (bindParams ⟨some c.frame, []⟩ c.params args).find? x = none := by
      have hhas : ¬ (bindParams ⟨some c.frame, []⟩ c.params args).has x = true := by
        rw [has_bindParams]
        simp [Frame.has, Frame.find?, hps]
      simpa [Frame.has] using hhas
    rw [find?_bindVars, hno]
    exact if_pos hx
  have hfirst : (s₀.newFrame fr).2.content? s₀.frames.size x = some .undefined := by
    rw [content?, cell?, getElem?_newFrame_self, Option.bind_some, hfind]
    rfl
  have hkeeps := hch.keeps (K := fun k => k = ⟨ps, code, s₀.frames.size, none⟩)
    (lt_of_frame getElem?_newFrame_self) (guards_newFrame hs₀ fr x) fun _ y hy => ⟨fun hs => by
      obtain ⟨m, rfl⟩ := hset y hy _ hs
      exact ⟨m, ps, code, rfl, rfl⟩, hl y hy⟩
  rcases hkeeps with hk | ⟨i, k, hi, rfl, hk⟩
  · exact .inl (hk.trans hfirst)
  · exact .inr ⟨i, hk, hi⟩

end Activation

/-! ## The wrapper that is called -/

/-- An expression for a wrapper with one parameter: the wrapper itself, or a variable that is set to
    nothing else. -/
inductive Names (c : Closure) (q : Name) (code : Block Span) : Expr Span → Prop
  | literal {m : Span} : Names c q code (.function m [q] code)
  | made {m : Span} {x : Name} (hx : x ∈ c.body.vars.map (·.1)) (hps : x ∉ c.params)
    (hl : ∀ y ∈ c.body.own, ¬ y.Lends x)
    (hset : ∀ y ∈ c.body.own, ∀ v, y.sets? = some (x, v) → ∃ m, v = some (.function m [q] code)) :
    Names c q code (.name m x)

/-- An expression for a wrapper yields a closure of it, and makes no frame. -/
theorem Names.value {e : Expr Span} {v : Value} (h : Names c q code e) (ha : Activation c env s)
    (hx : expr n e env s = .done v t) : t.frames = s.frames ∧
      (v = .undefined ∨ ∃ i : Nat, v = .closure i ∧
      t.closures[i]? = some ⟨[q], code, env, none⟩) := by
  cases n with
  | zero => cases hx
  | succ n =>
    cases h with
    | literal =>
      cases hx
      exact ⟨rfl, .inr ⟨_, rfl, getElem?_newClosure_self s _⟩⟩
    | @made _ x hv hps hl hset =>
      rw [expr, Process.read] at hx
      cases hg : s.get env x with
      | error e =>
        rw [hg] at hx
        cases hx
      | ok w =>
        rw [hg] at hx
        cases hx
        have hw := ((ha.finds (.inr hv)).get ha.sound).1 hg
        refine ⟨rfl, ?_⟩
        rcases ha.content_of_sets hv hps hl hset with hu | ⟨i, hi, hc⟩
        · exact .inl (Option.some.inj (hw.symm.trans hu))
        · obtain rfl := Option.some.inj (hw.symm.trans hi)
          exact .inr ⟨i, rfl, hc⟩

/-! ## The call -/

/-- A call of a wrapper with the content of a variable runs the code of the wrapper in a new
    frame. -/
theorem expr_call {m k : Span} {e : Expr Span} {v : Value} (h : Names c q code e)
    (ha : Activation c env s) (he : e.FlatAmong c.body.own)
    (hx : expr n (.call m e [.name k d]) env s = .done v t) :
    ∃ (j i : Nat) (r : Store) (u : Value), r.frames = s.frames ∧ Activation c env r ∧
      r.get env d = .ok u ∧ r.closures[i]? = some ⟨[q], code, env, none⟩ ∧
      callClosure j ⟨[q], code, env, none⟩ [u] r = .done v t := by
  cases n with
  | zero => cases hx
  | succ n =>
    rw [expr, Process.bind_apply] at hx
    cases hw : expr n e env s with
    | done w r =>
      obtain ⟨hframes, hval⟩ := h.value ha hw
      have hr := ha.expr he hw
      rw [hw] at hx
      dsimp only at hx
      rw [Process.bind_apply] at hx
      -- the argument reads the variable
      have hargs : ∀ {vs r'}, exprs n [.name k d] env r = .done vs r' →
          ∃ u, vs = [u] ∧ r' = r ∧ r.get env d = .ok u := by
        intro vs r' hvs
        rcases n with _ | _ | n
        · cases hvs
        · cases hvs
        · rw [exprs, Process.bind_apply, expr, Process.read] at hvs
          cases hg : r.get env d with
          | error e =>
            rw [hg] at hvs
            cases hvs
          | ok u =>
            rw [hg] at hvs
            dsimp only at hvs
            rw [Process.bind_apply, exprs] at hvs
            cases hvs
            exact ⟨u, rfl, rfl, rfl⟩
      cases hvs : exprs n [.name k d] env r with
      | done vs r' =>
        obtain ⟨u, rfl, rfl, hu⟩ := hargs hvs
        rw [hvs] at hx
        dsimp only at hx
        cases n with
        | zero => cases hx
        | succ n =>
          rcases hval with rfl | ⟨i, rfl, hi⟩
          · change failWith .notCallable _ _ = _ at hx
            rw [failWith, Process.bind_apply] at hx
            cases hx
          · change (Process.read (fun s => .ok (s.closures[i]?.getD default)) >>= fun c =>
              callClosure n c [u]) r' = _ at hx
            rw [Process.bind_apply] at hx
            dsimp only [Process.read] at hx
            rw [hi] at hx
            exact ⟨n, i, r', u, hframes, hr, hu, hi, hx⟩
      | _ =>
        rw [hvs] at hx
        cases hx
    | _ =>
      rw [hw] at hx
      cases hx

/-- The code of a wrapper with one parameter runs in a frame inside that of the closure, and its
    first content is the argument. -/
theorem callClosure_one {j : Nat} {u v : Value} {r : Store} (hb : code.IsFlat)
    (hx : callClosure j ⟨[q], code, env, none⟩ [u] r = .done v t) : ∃ (i : Nat) (fr : Frame),
      fr.parent = some env ∧ (∀ y, fr.has y = true ↔ y ∈ [q] ∨ y ∈ code.vars.map (·.1)) ∧
      (r.newFrame fr).2.content? r.frames.size q = some u ∧
      (stmts i code.statements r.frames.size (r.newFrame fr).2 = .done () t ∨
        stmts i code.statements r.frames.size (r.newFrame fr).2 = .interrupted
        (.returned v) t) := by
  cases j with
  | zero => cases hx
  | succ i =>
    obtain ⟨fr, hfr, hparent, hhas⟩ := callFrame_flat (c := ⟨[q], code, env, none⟩) hb [u]
    refine ⟨i, fr, hparent, hhas, ?_, ends_of_callClosure hfr hx⟩
    have hfr' := (callFrame_eq (c := ⟨[q], code, env, none⟩) hb [u]).symm.trans hfr
    cases hfr'
    rw [content?, cell?, getElem?_newFrame_self, Option.bind_some, find?_bindVars]
    simp [bindParams, Frame.has, Frame.find?, Frame.add]

/-- What the code of a wrapper does to the variables that there are while it runs. -/
theorem changes_code {i : Nat} {r : Store} {fr : Frame} {v : Value} (hb : code.IsFlat)
    (hs : (r.newFrame fr).2.Sound)
    (hrun : stmts i code.statements r.frames.size (r.newFrame fr).2 = .done () t ∨
      stmts i code.statements r.frames.size (r.newFrame fr).2 = .interrupted (.returned v) t) :
    (r.newFrame fr).2.Changes code.own r.frames.size t := by
  have hstate : (stmts i code.statements r.frames.size (r.newFrame fr).2).state? = some t := by
    rcases hrun with hrun | hrun <;> rw [hrun] <;> rfl
  obtain ⟨a, ss⟩ := code
  exact (((kept i).stmts hb).changes hs (lt_of_frame getElem?_newFrame_self) hstate).mono
    fun y hy => List.mem_cons_of_mem _ hy

section Hands

variable {m k : Span} {e : Expr Span} {v : Value} (h : Names c q code e) (ha : Activation c env s)
  (he : e.FlatAmong c.body.own) (hb : code.IsFlat) (hd : d ∈ c.params ∨ d ∈ c.body.vars.map (·.1))
  (hx : expr n (.call m e [.name k d]) env s = .done v t)

include h ha he hb hd hx

/-- A wrapper that covers every way out hands its parameter back, unless it returns for the function
    around it. -/
theorem hands_of_covers (hc : code.Covers d q) (hdq : d ≠ q) (hdv : d ∉ code.vars.map (·.1))
    (hv : ∀ w, v ≠ .signal .ret w) : s.Hands t env d q := by
  obtain ⟨j, -, r, u, hframes, hr, -, -, hcall⟩ := expr_call h ha he hx
  obtain ⟨i, fr, hparent, hhas, -, hrun⟩ := callClosure_one hb hcall
  have hs : (r.newFrame fr).2.Sound := hr.sound.newFrame hparent hr.lt
  have hch := changes_code hb hs hrun
  obtain ⟨fr', hf', hp', hhas'⟩ := hch.later.frames getElem?_newFrame_self
  obtain ⟨w, hgd, hgq⟩ : t.Agree r.frames.size d q := by
    have hlt : r.frames.size < (r.newFrame fr).2.frames.size := lt_of_frame getElem?_newFrame_self
    rcases hrun with hrun | hrun
    · exact hc.agree_of_done hb hs hlt hrun
    · exact (hc.agree_of_returned hb hs hlt hrun).resolve_left fun ⟨w, hw⟩ => hv w hw
  -- the variable is one of the frame around, and the parameter one of the frame of the call
  have hdenv : t.Finds d env env := hch.later.finds ((extends_newFrame r fr).finds (hr.finds hd))
  have hdg : t.Finds d r.frames.size env := by
    refine .up hf' ?_ (hp'.trans hparent) hdenv
    rw [hhas', ← Bool.not_eq_true, hhas]
    simp [hdq, hdv]
  have hqg : t.Finds q r.frames.size r.frames.size :=
    .here hf' ((hhas' q).trans ((hhas q).2 (.inl (List.mem_singleton.2 rfl))))
  refine ⟨w, (hdenv.get hch.sound).2 ((hdg.get hch.sound).1 hgd), ?_⟩
  rw [← hframes]
  exact (hqg.get hch.sound).1 hgq

/-- A wrapper hands its parameter back if it does not assign it, and nothing assigns the variable
    while it runs. -/
theorem hands_of_not_assigns (hq : ¬ code.Assigns q) (hl : ∀ y ∈ c.body.own, ¬ y.Lends d) :
    s.Hands t env d q := by
  obtain ⟨j, i, r, u, hframes, hr, hu, hi, hcall⟩ := expr_call h ha he hx
  obtain ⟨_, fr, hparent, -, hfirst, hrun⟩ := callClosure_one hb hcall
  have hdenv : r.Finds d env env := hr.finds hd
  have hparam : t.content? r.frames.size q = some u := by
    rcases (changes_code hb (hr.sound.newFrame hparent hr.lt) hrun).keeps (K := fun _ => False)
      (lt_of_frame getElem?_newFrame_self) (guards_newFrame hr.sound fr q)
      (fun _ => Block.spares_of_not_assigns hq _ _) with hk | ⟨_, _, _, hk, _⟩
    · exact hk.trans hfirst
    · exact hk.elim
  have hcalled : r.Changes [] env t := (kept j).callClosure hr.sound hr.lt hb
    (fun hg hx => hg hi hx) (by rw [hcall]; rfl)
  have hvariable : t.content? env d = some u := by
    rcases hcalled.keeps (K := fun _ => False) hr.lt (hr.guards hl) (fun _ y hy => by cases hy) with
      hk | ⟨_, _, _, hk, _⟩
    · exact hk.trans ((hdenv.get hr.sound).1 hu)
    · exact hk.elim
  refine ⟨u, ((hcalled.later.finds hdenv).get hcalled.sound).2 hvariable, ?_⟩
  rwa [← hframes]

end Hands

end Eval

end FlatScope
