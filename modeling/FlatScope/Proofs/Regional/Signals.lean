import FlatScope.Proofs.Lowering.Exits
import FlatScope.Proofs.Regional.Variables
import FlatScope.Proofs.Run.Steps

/-!
# Early exits of lowered programs

Where the machine for regions leaves a region by an early exit, lowered code leaves it by the same
exit or by the return of a signal (`World.Leaves`). What the machine copies then, the lowered code
assigns (`World.Matches.copies`). A call of a wrapper yields a signal for every exit by which the
wrapper is left (`World.Signals`), and the statements behind the call go on with it as the machine
does (`World.calls_sim`).
-/

namespace FlatScope

open Process

/-- The interruption by an early exit, with the value of a `return`. -/
def Exit.interruption (v : Value) : Exit → Interrupt
  | .ret => .returned v
  | .brk => .broke
  | .cont => .continued

namespace Regional

namespace World

/-- Both programs fail with the same error. -/
inductive Fails : Interrupt → Interrupt → Prop
  | mk (e : RunError) : Fails (.failed e) (.failed e)

/-- Code in a region is left by the same exit, which is one of the given ones, or both programs fail
    with the same error. -/
inductive Leaves (w : World) (r : Region) (may : Exit → Prop) : Interrupt → Interrupt → Prop
  | failed (e : RunError) : Leaves w r may (.failed e) (.failed e)
  | plain {e : Exit} {v v' : Value} (he : may e) (hs : r.bySignal e = false)
    (hv : v.Like w.closure v') : Leaves w r may (e.interruption v) (e.interruption v')
  | signal {e : Exit} {v v' : Value} (he : may e) (hs : r.bySignal e = true)
    (hv : v.Like w.closure v') : Leaves w r may (.returned (.signal e v)) (e.interruption v')

/-- How a wrapper with the given exits is left: with its signal for the exit, or with the marker if
    there are any exits. -/
inductive Signals (exits : List Exit) (w : World) :
    Except Interrupt Value → Except Interrupt Unit → Prop
  | done (h : exits = []) : Signals exits w (.ok .undefined) (.ok ())
  | goOn (h : exits ≠ []) : Signals exits w (.ok .noSignal) (.ok ())
  | signal {e : Exit} {v v' : Value} (he : e ∈ exits) (hv : v.Like w.closure v') :
    Signals exits w (.ok (.signal e v)) (.error (e.interruption v'))
  | failed (e : RunError) : Signals exits w (.error (.failed e)) (.error (.failed e))

/-- Both programs yield the same value, or fail. -/
abbrev Yields (w : World) : Except Interrupt Value → Except Interrupt Value → Prop :=
  Both (Value.Like w.closure) Fails

/-- Both programs yield the same values, or fail. -/
abbrev YieldsAll (w : World) : Except Interrupt (List Value) →
    Except Interrupt (List Value) → Prop :=
  Both (Value.AreLike w.closure) Fails

/-- Both programs run through code in a region, or leave it. -/
abbrev Runs (r : Region) (may : Exit → Prop) (w : World) :
    Except Interrupt Unit → Except Interrupt Unit → Prop :=
  Both (fun _ _ => True) (Leaves w r may)

variable {w w' : World} {r : Region} {may may' : Exit → Prop} {f : FrameId} {pl : Place}

theorem Fails.leaves {v v' : Interrupt} (h : Fails v v') : Leaves w r may v v' := by
  cases h
  exact .failed _

theorem Leaves.mono {v v' : Interrupt} (h : Leaves w r may v v') (hle : w.Le w')
    (hmay : ∀ e, may e → may' e) : Leaves w' r may' v v' := by
  cases h with
  | failed e => exact .failed e
  | plain he hs hv => exact .plain (hmay _ he) hs (hv.mono hle.closure)
  | signal he hs hv => exact .signal (hmay _ he) hs (hv.mono hle.closure)

/-! ## Writing back -/

/-- A signal is in no variable that a name means which stands for a location. -/
theorem At.ne_signal {s : Store} {m : Machine} (hm : w.Matches s m) (hf : 0 < f)
    (hlt : f < w.frames) {x y : Name} {l : Location} (h : w.At f x l)
    (hy : (y, .signal) ∈ w.host f) : y ≠ x := by
  rintro rfl
  obtain ⟨fr, hfr⟩ := hm.frame? hlt
  have hs := h.sees
  have hrole := h.role
  generalize l.activation = g at hs hrole
  cases hs with
  | here => cases (hm.frames hf hfr).distinct.coherent hy hrole
  | up _ _ hx => exact hx (Roles.mem_names hy)
  | top => exact Nat.lt_irrefl 0 hf

/-- The assignments that write parameters back do what the machine copies, and keep all signals. -/
theorem Matches.copies {s : Store} {m : Machine} (hm : w.Matches s m) (hf : 0 < f)
    (hlt : f < w.frames) {ws : WriteBacks} {ls : List (Location × Location)}
    (h : List.Forall₂ (fun v l => w.At f v.1 l.1 ∧ w.At f v.2 l.2) ws ls) :
    ∃ s', w.Matches s' (m.copyAll ls) ∧
      (∀ x v, (x, .signal) ∈ w.host f → s.get f x = .ok v → s'.get f x = .ok v) ∧
      ∀ ss, Leads (fun n => Eval.stmts n (writeBackStmts ws ++ ss) f) s
        (fun n => Eval.stmts n ss f) s' := by
  induction h generalizing s m with
  | nil => exact ⟨s, hm, fun _ _ _ => id, fun _ => .refl ..⟩
  | @cons v l ws ls hv _ ih =>
    obtain ⟨d, q⟩ := v
    obtain ⟨a, hq, hlike⟩ := hm.get hv.2
    obtain ⟨htarget, hm'⟩ := hm.set hv.1 hlike
    obtain ⟨s', hs', hkeep, hleads⟩ := ih hm'
    refine ⟨s', hs', fun x u hx hu => hkeep x u hx ?_, fun ss => ?_⟩
    · rw [Store.get_write_ne (hv.1.ne_signal hm hf hlt hx)]
      exact hu
    · exact .trans (Eval.stmts_of_ends (Eval.ends_copy hq htarget ..) _) (hleads ss)

/-- Before a wrapper is left, its parameters are written back. -/
theorem Stays.copies {s : Store} {m : Machine} (h : w.Stays r f pl) (hm : w.Matches s m) :
    ∃ s', w.Matches s' (m.copyAll pl.writeBacks) ∧
      (∀ x v, (x, .signal) ∈ w.host f → s.get f x = .ok v → s'.get f x = .ok v) ∧
      ∀ ss, Leads (fun n => Eval.stmts n (writeBackStmts r.writeBacks ++ ss) f) s
        (fun n => Eval.stmts n ss f) s' :=
  hm.copies h.positive h.known h.writeBacks

/-- A function has nothing to write back. -/
theorem Stays.nothing (h : w.Stays r f pl) (hr : r.inWrapper = false) : pl.writeBacks = [] := by
  have hws := h.writeBacks
  rw [h.plain hr] at hws
  exact List.forall₂_nil_left_iff.1 hws

/-! ## Leaving -/

theorem leave_leads {α : Type} (pl : Place) (q : Interrupt) (m : Machine) :
    Leads (fun _ => (leave pl q : Run α)) m (fun _ => interrupt q) (m.copyAll pl.writeBacks) :=
  .of_eq fun _ => rfl

/-- An early exit without a value that leaves the region. -/
theorem leave_sim {i : Nat} (h : w.Stays r f pl) {e : Exit} (he : may e)
    (hs : r.bySignal e = r.inWrapper) {plain : Stmt Span} (span : Span)
    (hplain : ∀ s, Leads (fun n => Eval.stmt n plain f) s
      (fun _ => interrupt (e.interruption .undefined)) s) :
    lowering.Sim i w (Runs r may) (fun n => Eval.stmts n (Lower.leave r e none span plain) f)
      (fun _ => leave pl (e.interruption .undefined)) := by
  refine .leads fun w' s m hle hm => ?_
  have h := h.mono hle
  rw [Lower.leave]
  split
  · rename_i hw
    obtain ⟨s', hm', -, hleads⟩ := h.copies hm
    refine ⟨w', s', _, _, _, .refl w', hm', (hleads _).trans (Eval.leads_ret
      (v := .signal e .undefined) (.trans (.step rfl fun _ => rfl) (.refl ..)) span),
      leave_leads .., ?_⟩
    exact .interrupt fun _ _ => .signal he (hs.trans hw) (.plain rfl)
  · rename_i hw
    rw [Bool.not_eq_true] at hw
    refine ⟨w', s, m, _, _, .refl w', hm, (Eval.stmts_singleton ..).trans (hplain s), ?_,
      .interrupt fun _ _ => .plain he (hs.trans hw) (.plain rfl)⟩
    have hleave := leave_leads (α := Unit) pl (e.interruption .undefined) m
    rwa [h.nothing hw] at hleave

/-- A `return` of a value. -/
theorem ret_sim {i : Nat} (h : w.Stays r f pl) (he : may .ret) {e : Expr Span} (span : Span)
    {y : Nat → Run Value} (hy : lowering.Sim i w Yields (fun n => Eval.expr n e f) y) :
    lowering.Sim i w (Runs r may)
      (fun n => Eval.stmts n (Lower.leave r .ret (some e) span (.ret span (some e))) f)
      (fun k => do
        copyAll pl.writeBacks
        let v ← y k
        .interrupt (.returned v)) := by
  refine .leads fun w' s m hle hm => ?_
  have h := h.mono hle
  have hcopied : Leads (fun k => do
      copyAll pl.writeBacks
      let v ← y k
      (.interrupt (.returned v) : Run Unit)) m (fun k => do
        let v ← y k
        .interrupt (.returned v)) (m.copyAll pl.writeBacks) := .of_eq fun _ => rfl
  rw [Lower.leave]
  split
  · rename_i hw
    obtain ⟨s', hm', -, hleads⟩ := h.copies hm
    refine ⟨w', s', _, fun n => Eval.stmt n
      (.ret span (some (.signal span (some .ret) (some e)))) f, _, .refl w', hm',
      (hleads _).trans (Eval.stmts_singleton ..), hcopied, ?_⟩
    refine .left rfl (fun n => rfl) ?_
    have hsignal : lowering.Sim i w' (fun w => Both (fun v v' => ∃ u, v = .signal .ret u ∧
        u.Like w.closure v') Fails)
        (fun n => Eval.expr n (.signal span (some .ret) (some e)) f) y := by
      refine .left rfl (fun n => rfl) ?_
      have hpure : y = fun k => y k >>= fun v => pure v := funext fun k => (bind_pure' (y k)).symm
      rw [hpure]
      exact (hy.later hle).bind (fun _ hq => hq) fun _ _ u v' hu => .pure fun _ hle =>
        ⟨u, rfl, hu.mono hle.closure⟩
    refine hsignal.bind (fun _ hq => hq.leaves) ?_
    rintro w₁ - _ v' ⟨u, rfl, hu⟩
    exact .interrupt fun _ hle => .signal he hw (hu.mono hle.closure)
  · rename_i hw
    rw [Bool.not_eq_true] at hw
    rw [h.nothing hw] at hcopied ⊢
    refine ⟨w', s, m, _, _, .refl w', hm, Eval.stmts_singleton .., hcopied, ?_⟩
    refine .left rfl (fun n => rfl) ?_
    refine (hy.later hle).bind (fun _ hq => hq.leaves) fun w₁ _ v v' hv => ?_
    exact .interrupt fun _ hle => .plain he hw (hv.mono hle.closure)

/-! ## Calls of wrappers -/

/-- What the machine goes on with after a wrapper. -/
def resume (pl : Place) (inLoop : Bool) : Except Interrupt Unit → Run Unit
  | .ok a => pure a
  | .error (.returned v) => leave pl (.returned v)
  | .error .broke => jump pl inLoop .broke
  | .error .continued => jump pl inLoop .continued
  | .error (.failed e) => .fail e

theorem dispatch_eq (pl : Place) (inLoop : Bool) (x : Run Unit) :
    dispatch pl inLoop x = x.andThen (resume pl inLoop) := by
  funext m
  rw [dispatch, andThen]
  cases x m with
  | interrupted q m => cases q <;> rfl
  | _ => rfl

section Handlers

variable {s : Store} {sig : Name} {ws : WriteBacks} {span : Span} {v : Value} {e : Exit}

/-- The test for another signal is passed over. -/
theorem handler_passes (hg : s.get f sig = .ok v) (hv : v.isSignal (some e) = false)
    (action : ExitAction) (ss : List (Stmt Span)) :
    Leads (fun n => Eval.stmts n (handleSignal sig ws span e action :: ss) f) s
      (fun n => Eval.stmts n ss f) s :=
  Eval.stmts_of_ends (Eval.ends_branch (hv ▸ Eval.ends_signalIs (Eval.ends_name hg _) _ _) ..) ss

/-- The test for the signal does what is planned for it. -/
theorem handler_acts {c : Expr Span} (hc : Ends (fun n => Eval.expr n c f) s (.bool true) s)
    {action : ExitAction} (ss : List (Stmt Span)) : Leads
      (fun n => Eval.stmts n
      (.branch span c (.mk span (actionStmts sig ws span e action)) none :: ss)
        f) s
      (fun n => Eval.stmts n (actionStmts sig ws span e action) f >>= fun _ =>
      Eval.stmts n ss f) s :=
  have hflat : Stmt.AreFlat (actionStmts sig ws span e action) :=
    Stmt.areFlat_iff.2 fun x hx => (actionStmts_flat sig ws span e action x hx).1
  .trans (Eval.leads_cons ..) ((Eval.leads_branch hc hflat ..).bind (Eval.stmts_grows _ _))

/-- The statements behind a call are passed over if the wrapper was not left early. -/
theorem handlers_pass (hg : s.get f sig = .ok .noSignal) (site : CallSite) (exits : List Exit) :
    Ends (fun n => Eval.stmts n (site.handlers sig exits ws span) f) s () s := by
  rw [CallSite.handlers]
  split
  · refine (Eval.stmts_of_ends (Eval.ends_branch ?_ ..) []).trans (Eval.stmts_nil ..)
    exact Eval.ends_not (b := true) (Eval.ends_signalIs (Eval.ends_name hg _) _ none) _
  · generalize site.plan exits = plan
    induction plan with
    | nil => exact Eval.stmts_nil ..
    | cons a plan ih => exact (handler_passes hg rfl ..).trans ih

/-- The statements behind a call do what is planned for the signal of the wrapper. -/
theorem handlers_act (hg : s.get f sig = .ok (.signal e v)) (site : CallSite) {exits : List Exit}
    (he : e ∈ exits) : ∃ ss, Leads (fun n => Eval.stmts n (site.handlers sig exits ws span) f) s
      (fun n => Eval.stmts n (actionStmts sig ws span e (site.action e)) f >>= fun _ =>
        Eval.stmts n ss f) s := by
  have hmem : e ∈ Exit.all.filter exits.contains :=
    List.mem_filter.2 ⟨by cases e <;> decide, by simpa using he⟩
  rw [CallSite.handlers]
  split
  · rename_i hall
    rw [Bool.and_eq_true, List.all_eq_true] at hall
    have haction : site.action e = .propagate := by
      simpa using hall.2 _ (List.mem_map_of_mem (f := fun e => (e, site.action e)) hmem)
    rw [haction, propagateAll]
    have hcond := Eval.ends_not (b := false)
      (Eval.ends_signalIs (Eval.ends_name hg span) span none) span
    have hacts : Leads (fun n => Eval.stmts n [.branch span
        (.unary span .not (.signalIs span (.name span sig) none))
        (.mk span (actionStmts sig ws span e .propagate)) none] f) s _ s := handler_acts hcond []
    exact ⟨[], hacts⟩
  · rw [CallSite.plan]
    generalize Exit.all.filter exits.contains = es at hmem
    induction es with
    | nil => cases hmem
    | cons d es ih =>
      by_cases hd : e = d
      · subst hd
        have htest := Eval.ends_signalIs (Eval.ends_name hg span) span (some e)
        rw [show (Value.signal e v).isSignal (some e) = true by simp [Value.isSignal]] at htest
        exact ⟨_, handler_acts htest _⟩
      · obtain ⟨ss, hss⟩ := ih ((List.mem_cons.1 hmem).resolve_left hd)
        exact ⟨ss, (handler_passes hg (by simpa [Value.isSignal] using Ne.symm hd) ..).trans hss⟩

end Handlers

/-- What a call does about an exit that is not made by a signal there. -/
theorem action_plain {s : Store} {m : Machine} (h : w.Stays r f pl) {sig : Name} {e : Exit}
    {v v' : Value} (hg : s.get f sig = .ok (.signal e v)) (hs : r.bySignal e = false)
    (hsite : e ≠ .ret → r.inLoop ∨ r.inWrapper) (ws : WriteBacks) (span : Span) :
    Leads (fun n => Eval.stmts n (actionStmts sig ws span e (r.site.action e)) f) s
      (fun _ => interrupt (e.interruption v)) s ∧
    Leads (fun _ => resume pl r.inLoop (.error (e.interruption v'))) m
      (fun _ => interrupt (e.interruption v')) m := by
  have hjump (he : e ≠ .ret) (hb : r.bySignal e = (r.inWrapper && !r.inLoop)) :
      r.inLoop = true := by
    rcases hsite he with hl | hw
    · exact hl
    · simpa [hs, hw] using hb.symm
  cases e with
  | ret =>
    rw [show r.site.action .ret = .returnValue from if_neg (by
      change ¬ r.inWrapper = true
      rw [show r.inWrapper = false from hs]
      decide)]
    refine ⟨Eval.leads_ret (.trans (.step rfl fun _ => rfl) (.trans (Eval.ends_name hg _).bind
      (.refl ..))) span, ?_⟩
    have hleave := leave_leads (α := Unit) pl (.returned v') m
    rwa [h.nothing hs] at hleave
  | brk | cont =>
    have hl := hjump (by decide) rfl
    refine ⟨?_, .of_eq fun _ => ?_⟩
    · simp only [CallSite.action, Region.site, hl, if_true, actionStmts]
      exact (Eval.stmts_singleton ..).trans (.step rfl fun _ => rfl)
    · simp only [resume, Exit.interruption, jump, hl, if_true]

/-- What a call does about an exit that is made by a signal there. -/
theorem action_signal {s : Store} {m : Machine} (h : w.Stays r f pl) (hm : w.Matches s m)
    {sig : Name} (hsig : (sig, .signal) ∈ w.host f) {e : Exit} {v v' : Value}
    (hg : s.get f sig = .ok (.signal e v)) (hs : r.bySignal e = true) (span : Span) :
    ∃ s', w.Matches s' (m.copyAll pl.writeBacks) ∧
      Leads (fun n => Eval.stmts n (actionStmts sig r.writeBacks span e (r.site.action e)) f) s
        (fun _ => interrupt (.returned (.signal e v))) s' ∧
      Leads (fun _ => resume pl r.inLoop (.error (e.interruption v'))) m
        (fun _ => interrupt (e.interruption v')) (m.copyAll pl.writeBacks) := by
  obtain ⟨s', hm', hkeep, hleads⟩ := h.copies hm
  have hname := Eval.ends_name (hkeep _ _ hsig hg) span
  refine ⟨s', hm', ?_, ?_⟩
  · rw [show r.site.action e = .propagate by
      cases e <;> simp_all [CallSite.action, Region.site, Region.bySignal]]
    exact (hleads _).trans (Eval.leads_ret hname _)
  · have hleave := leave_leads (α := Unit) pl (e.interruption v') m
    cases e with
    | ret => exact hleave
    | brk | cont =>
      obtain ⟨-, hl⟩ : r.inWrapper = true ∧ r.inLoop = false := by simpa [Region.bySignal] using hs
      simpa only [resume, Exit.interruption, jump, hl, Bool.false_eq_true, if_false] using hleave

/-- The statements that call a wrapper go on with its signals as the machine does. -/
theorem calls_sim {i : Nat} (h : w.Stays r f pl) {exits : List Exit} {span : Span}
    {call : Expr Span} {out : List (Stmt Span)} {roles : Roles}
    (hcalls : r.Calls exits r.site span call out roles) (hroles : ∀ ρ ∈ roles, ρ ∈ w.host f)
    (hmay : ∀ e ∈ exits, may e) {y : Nat → Run Unit}
    (hy : lowering.Sim i w (Signals exits) (fun n => Eval.expr n call f) y) :
    lowering.Sim i w (Runs r may) (fun n => Eval.stmts n out f)
      (fun k => dispatch pl r.inLoop (y k)) := by
  simp only [dispatch_eq]
  rw [Region.Calls] at hcalls
  split at hcalls
  · rename_i hempty
    obtain ⟨rfl, -⟩ := hcalls
    rw [List.isEmpty_iff] at hempty
    subst hempty
    refine .leads fun w' s m hle hm => ⟨w', s, m, fun n => Eval.expr n call f >>= fun _ => pure (),
      _, .refl w', hm, (Eval.stmts_singleton ..).trans (.step rfl fun _ => rfl), .refl .., ?_⟩
    rw [funext fun n => bind_eq_andThen (Eval.expr n call f) _]
    refine (hy.later hle).andThen (fun w₁ _ q q' hq => ?_) fun _ _ _ => False.elim
    cases hq with
    | done => exact .pure fun _ _ => trivial
    | goOn hne => exact absurd rfl hne
    | signal he => cases he
    | failed e => exact .interrupt fun _ _ => .failed e
  · rename_i hne
    obtain ⟨sig, hcall, rfl⟩ := hcalls
    obtain ⟨hsite, rfl⟩ := signalCall_ok hcall
    refine .leads fun w' s m hle hm => ⟨w', s, m, fun n => Eval.expr n call f >>= fun v => do
        Eval.setVariable f sig v
        Eval.stmts n (r.site.handlers sig exits r.writeBacks span) f, _, .refl w', hm, ?_,
      .refl .., ?_⟩
    · have hfirst : Leads (fun n => Eval.stmt n (.declaration span sig .var (some call)) f) s
          (fun n => Eval.expr n call f >>= fun v => Eval.setVariable f sig v) s :=
        .step rfl fun _ => rfl
      exact .trans (Eval.leads_cons ..) (.trans (hfirst.bind
        ((Eval.expr_grows call f).bind fun v => .const _))
          (.of_eq fun n => by rw [bind_assoc']))
    rw [funext fun n => bind_eq_andThen (Eval.expr n call f) _]
    have hsig : (sig, .signal) ∈ w'.host f := by
      rw [hle.host f h.known]
      exact hroles _ List.mem_cons_self
    have h := h.mono hle
    refine (hy.later hle).andThen (fun w₁ hle₁ q q' hq => ?_) fun _ _ _ => False.elim
    -- what the variable for the signal gets
    have hset (v : Value) {w₂ : World} {s : Store} {m : Machine} (hle₂ : w₁.Le w₂)
        (hm : w₂.Matches s m) : ∃ s', w₂.Matches s' m ∧ s'.get f sig = .ok v ∧
        Leads (fun n => do
          Eval.setVariable f sig v
          Eval.stmts n (r.site.handlers sig exits r.writeBacks span) f) s
          (fun n => Eval.stmts n (r.site.handlers sig exits r.writeBacks span) f) s' := by
      have hle₂ := hle₁.trans hle₂
      obtain ⟨htarget, hm', hg⟩ := hm.setSignal h.positive
        (Nat.lt_of_lt_of_le h.known hle₂.frames) (by rwa [hle₂.host f h.known]) v
      exact ⟨_, hm', hg, (Eval.ends_setVariable htarget).bind⟩
    cases hq with
    | done hnil => exact absurd (by rw [hnil]; rfl) hne
    | goOn =>
      refine .leads fun w₂ s m hle₂ hm => ?_
      obtain ⟨s', hm', hg, hleads⟩ := hset .noSignal hle₂ hm
      exact ⟨w₂, s', m, _, _, .refl w₂, hm', hleads.trans (handlers_pass hg ..), .refl ..,
        .pure fun _ _ => trivial⟩
    | @signal e v v' he hv =>
      refine .leads fun w₂ s m hle₂ hm => ?_
      obtain ⟨s', hm', hg, hleads⟩ := hset (.signal e v) hle₂ hm
      obtain ⟨ss, hact⟩ := handlers_act hg r.site he
      have hsig : (sig, .signal) ∈ w₂.host f := by rwa [(hle₁.trans hle₂).host f h.known]
      have h := h.mono (hle₁.trans hle₂)
      cases hs : r.bySignal e with
      | false =>
        obtain ⟨hl, hr⟩ := action_plain (m := m) h hg hs
          (fun hne => by simpa [Region.site] using hsite e he hne) r.writeBacks span
        exact ⟨w₂, s', m, _, _, .refl w₂, hm', hleads.trans (hact.trans hl.interrupted), hr,
          .interrupt fun _ hle₃ => .plain (hmay e he) hs (hv.mono (hle₂.trans hle₃).closure)⟩
      | true =>
        obtain ⟨s'', hm'', hl, hr⟩ := action_signal h hm' hsig hg hs span
        exact ⟨w₂, s'', _, _, _, .refl w₂, hm'', hleads.trans (hact.trans hl.interrupted), hr,
          .interrupt fun _ hle₃ => .signal (hmay e he) hs (hv.mono (hle₂.trans hle₃).closure)⟩
    | failed e => exact .interrupt fun _ _ => .failed e

end World

end Regional

end FlatScope
