import FlatScope.Eval.Session
import FlatScope.Proofs.Run.Visits

/-!
# Runs of programs

A program that has been loaded waits for calls: its statements can be run, and the functions that
its store holds can be called, one after the other. The stores in which it waits are
`Program.Waits`, and `Program.Visits` says which pieces of code are run in the course of such a
call, from which stores on.

All code of a flat program is flat, so whatever it runs is a piece of a run of flat code
(`Program.Visits.regular`).
-/

namespace FlatScope

namespace Store

variable {s s' : Store} {f : FrameId} {n : Name} {content : Option Value} {const : Bool}

/-- A frame gets one more variable. -/
theorem Sound.define (hs : s.Sound) (h : s.define f n content const = .ok s') : s'.Sound := by
  rw [Store.define] at h
  cases hf : s.frames[f]? with
  | none =>
    rw [hf] at h
    cases h
    exact hs
  | some fr =>
    rw [hf] at h
    obtain ⟨fr', hfr', rfl⟩ : ∃ fr', fr.define n content const = .ok fr' ∧
        s' = { s with frames := s.frames.setIfInBounds f fr' } := by
      cases hd : fr.define n content const with
      | error e =>
        simp only [hd] at h
        cases h
      | ok fr' =>
        simp only [hd] at h
        cases h
        exact ⟨fr', rfl, rfl⟩
    rw [Frame.define] at hfr'
    split at hfr'
    · cases hfr'
    · cases hfr'
      refine ⟨by simpa using hs.global, fun {i p fr'} hi hp => ?_,
        fun hi => by simpa using hs.closures hi⟩
      rw [Array.getElem?_setIfInBounds] at hi
      split at hi
      · rename_i he
        subst he
        split at hi <;> cases hi
        exact hs.parents hf hp
      · exact hs.parents hi hp

end Store

namespace Eval

/-- What holds of a store while the functions are defined in it holds before the program runs. -/
theorem initialStore_induction {p : Program Span} {P : Store → Prop} {s : Store}
    (hempty : P (Store.empty.newFrame ⟨none, []⟩).2)
    (hdefine : ∀ {s s' : Store} {x : Name} {content : Option Value} {const : Bool}, P s →
      s.define globalFrame x content const = .ok s' → P s')
    (hclosure : ∀ fn ∈ p.functions, ∀ {s : Store}, P s →
      P (s.newClosure ⟨fn.params, fn.body, globalFrame, some fn.name⟩).2)
    (h : initialStore p = .ok s) : P s := by
  have hfold : ∀ {α : Type} {step : Store → α → Except RunError Store} {as : List α} {s s' : Store},
      (∀ a ∈ as, ∀ {s s' : Store}, P s → step s a = .ok s' → P s') → P s →
      as.foldlM step s = .ok s' → P s' := by
    intro α step as
    induction as with
    | nil =>
      intro s s' _ hs h
      cases h
      exact hs
    | cons a as ih =>
      intro s s' hstep hs h
      rw [List.foldlM_cons] at h
      cases ha : step s a with
      | error e =>
        rw [ha] at h
        cases h
      | ok t =>
        rw [ha] at h
        exact ih (fun b hb => hstep b (List.mem_cons_of_mem _ hb))
          (hstep a List.mem_cons_self hs ha) h
  rw [initialStore] at h
  change (Builtin.all.foldlM _ (Store.empty.newFrame ⟨none, []⟩).2 >>= _) = _ at h
  cases hb : Builtin.all.foldlM
      (fun s b => s.define globalFrame b.name (some (.builtin b)) false)
      (Store.empty.newFrame ⟨none, []⟩).2 with
  | error e =>
    rw [hb] at h
    cases h
  | ok t =>
    rw [hb] at h
    exact hfold (fun fn hfn s s' hs ha => hdefine (hclosure fn hfn hs) ha)
      (hfold (fun _ _ _ _ hs ha => hdefine hs ha) hempty hb) h

/-- The store before a flat program runs is sound. -/
theorem initialStore_sound {p : Program Span} (hp : p.IsFlat) {s : Store}
    (h : initialStore p = .ok s) : s.Sound := by
  refine initialStore_induction ?_ (fun hs hd => hs.define hd)
    (fun fn hfn s hs => hs.newClosure hs.global (hp.1 fn hfn)) h
  refine ⟨Nat.zero_lt_one, fun {i q fr} hi hq => ?_, fun {i c} hi => ?_⟩
  · rw [Store.newFrame, Array.getElem?_push] at hi
    split at hi
    · cases hi
      cases hq
    · cases hi
  · cases hi

/-- A call of a closure with flat code leaves a sound store. -/
theorem callClosure_sound {n : Nat} {c : Closure} {args : List Value} {s s' : Store} (hs : s.Sound)
    (hf : c.frame < s.frames.size) (hb : c.body.IsFlat)
    (h : (callClosure n c args s).state? = some s') : s'.Sound := by
  cases n with
  | zero => cases h
  | succ n =>
    obtain ⟨fr, hfr, hparent, -⟩ := callFrame_flat hb args
    have hrun := state?_of_callClosure hfr h
    obtain ⟨params, ⟨k, ss⟩, frame, name⟩ := c
    exact ((kept n).stmts hb |>.changes (hs.newFrame hparent hf)
      (Store.lt_of_frame Store.getElem?_newFrame_self) hrun).sound

end Eval

namespace Program

/-- What can be called in a store: its closures, and the statements of the program. -/
def Callable (p : Program Span) (s : Store) (c : Closure) : Prop :=
  (∃ i : Nat, s.closures[i]? = some c) ∨
    c = ⟨[], (p.main .unknown).body, Eval.globalFrame, some mainName⟩

/-- The program is loaded, and waits in the store for the next call. -/
inductive Waits (p : Program Span) : Store → Prop
  | loaded {s : Store} (h : Eval.initialStore p = .ok s) : Waits p s
  | called {s s' : Store} {n : Nat} {c : Closure} {args : List Value} (h : Waits p s)
    (hc : p.Callable s c) (hr : (Eval.callClosure n c args s).state? = some s') : Waits p s'

/-- In the course of a call, a piece of code is run. -/
def Visits (p : Program Span) (q : Eval.Point) : Prop :=
  ∃ s n c args, p.Waits s ∧ p.Callable s c ∧ Eval.Visits n c args s q

variable {p : Program Span} {s : Store} {c : Closure} {q : Eval.Point}

theorem Callable.flat (hp : p.IsFlat) (h : p.Callable s c) (hs : s.Sound) :
    c.frame < s.frames.size ∧ c.body.IsFlat := by
  rcases h with ⟨i, hi⟩ | rfl
  · exact hs.closures hi
  · exact ⟨hs.global, hp.2⟩

theorem Waits.sound (hp : p.IsFlat) (h : p.Waits s) : s.Sound := by
  induction h with
  | loaded h => exact Eval.initialStore_sound hp h
  | called _ hc hr ih =>
    obtain ⟨hf, hb⟩ := hc.flat hp ih
    exact Eval.callClosure_sound ih hf hb hr

/-- Whatever a flat program runs is a piece of a run of flat code. -/
theorem Visits.regular (hp : p.IsFlat) (h : p.Visits q) : q.Regular := by
  obtain ⟨s, n, c, args, hw, hc, hv⟩ := h
  obtain ⟨hf, hb⟩ := hc.flat hp (hw.sound hp)
  exact Eval.Visits.regular hv (hw.sound hp) hf hb

end Program

end FlatScope
