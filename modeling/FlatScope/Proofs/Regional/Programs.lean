import FlatScope.Proofs.Regional.Closures
import FlatScope.Proofs.Run.Endings

/-!
# Lowered programs

The machine for regions runs a program as `FlatScope.Eval.Session` says, from the functions with
what their names mean (`Regional.load`, `Regional.run`). A program whose functions were lowered ends
as the machine does (`Regional.endsWith_iff`): while both are loaded, the same names get the same
values, and every function of the one is a function of the other.
-/

namespace FlatScope

open Process

/-- A name is defined in outermost frames that are alike, or it is taken in both. -/
theorem Frame.Like.define {κ : Nat → Option Nat} {s t : Store} {g g' : Frame} {v w : Value}
    (h : g.Like κ g') (hg : s.frames[0]? = some g) (hg' : t.frames[0]? = some g') (x : Name)
    (hv : v.Like κ w) :
    (∃ e, s.define Eval.globalFrame x (some v) false = .error e ∧
      t.define Eval.globalFrame x (some w) false = .error e) ∨
    s.define Eval.globalFrame x (some v) false = .ok
        { s with frames := s.frames.setIfInBounds 0 (g.add x ⟨some v, false⟩) } ∧
      t.define Eval.globalFrame x (some w) false = .ok
        { t with frames := t.frames.setIfInBounds 0 (g'.add x ⟨some w, false⟩) } ∧
      (s.frames.setIfInBounds 0 (g.add x ⟨some v, false⟩))[0]? = some (g.add x ⟨some v, false⟩) ∧
      (t.frames.setIfInBounds 0 (g'.add x ⟨some w, false⟩))[0]? = some (g'.add x ⟨some w, false⟩) ∧
      (g.add x ⟨some v, false⟩).Like κ (g'.add x ⟨some w, false⟩) := by
  have hdefine {t : Store} {e : Frame} {u : Value} (he : t.frames[0]? = some e) :
      t.define Eval.globalFrame x (some u) false = if e.has x then .error (.alreadyDefined x) else
        .ok { t with frames := t.frames.setIfInBounds 0 (e.add x ⟨some u, false⟩) } := by
    simp only [Store.define, Eval.globalFrame, he]
    rw [Frame.define]
    split
    · rfl
    · rfl
  have hhas : g.has x = g'.has x := by
    rw [Frame.has, Frame.has]
    rcases h.find? x with ⟨hx, hy⟩ | ⟨_, _, -, hx, hy⟩
    · rw [hx, hy]
    · rw [hx, hy]
      rfl
  have hfirst {t : Store} {e e' : Frame} (he : t.frames[0]? = some e) :
      (t.frames.setIfInBounds 0 e')[0]? = some e' := by
    rw [Array.getElem?_setIfInBounds, if_pos rfl, if_pos (Array.getElem?_eq_some_iff.1 he).1]
  rw [hdefine hg, hdefine hg', ← hhas]
  split
  · exact .inl ⟨_, rfl, rfl⟩
  · exact .inr ⟨rfl, rfl, hfirst hg, hfirst hg', h.left, h.right,
      List.rel_append h.cells (.cons ⟨rfl, v, w, hv, rfl, rfl⟩ .nil)⟩

namespace Regional

/-- A function with what its names mean. -/
structure Function where
  scoping : Scoping
  code : FunctionDef Mark

/-- The function as a value. Nothing is around it. -/
def Function.closure (f : Function) : Closure :=
  ⟨f.scoping, f.code.mark.id, f.code.params, f.code.body.statements, fun b => ⟨0, .binding b⟩⟩

namespace Machine

/-- The machine before anything is loaded. -/
def initial : Machine := ⟨(Store.empty.newFrame ⟨none, []⟩).2, 1, fun _ => .undefined, #[]⟩

/-- Gives a name a value that means something outside of all functions. -/
def define (m : Machine) (n : Name) (v : Value) : Except RunError Machine :=
  (m.store.define Eval.globalFrame n (some v) false).map fun s => { m with store := s }

end Machine

/-- Loads a program. -/
def load (fs : List Function) : Except RunError Machine := do
  let m ← Builtin.all.foldlM (fun m b => m.define b.name (.builtin b)) Machine.initial
  fs.foldlM (fun m f =>
    let (v, m) := m.newClosure f.closure
    m.define f.code.name v) m

/-- Runs the statements of a program outside of its functions. -/
def run (fs : List Function) (main : Function) (fuel : Nat) : Option Ending :=
  match load fs with
  | .error e => some ⟨[], some (.failed e)⟩
  | .ok m => (callClosure fuel main.closure [] m).ending? (·.store.lines)

/-- A program ends, and that is seen of it. -/
def EndsWith (fs : List Function) (main : Function) (e : Ending) : Prop :=
  ∃ fuel, run fs main fuel = some e

/-- What a function is lowered to, by some plan for it. -/
def Function.LowersTo (globals : List Name) (f : Function) (out : FunctionDef Span) : Prop :=
  ∃ p : LoweringPlan, p.Sound f.code globals ∧ p.analysis.scoping = f.scoping ∧
    p.LowersFunction f.code out

theorem Function.LowersTo.name {globals : List Name} {f : Function} {out : FunctionDef Span}
    (h : f.LowersTo globals out) : out.name = f.code.name := by
  obtain ⟨-, -, -, -, -, -, -, -, rfl⟩ := h
  rfl

/-! ## Loading -/

/-- While programs are loaded, both have states that are related, or cannot be loaded for the same
    reason. -/
def Loads (R : Store → Machine → Prop) : Except RunError Store → Except RunError Machine → Prop
  | .ok s, .ok m => R s m
  | .error e, .error e' => e = e'
  | _, _ => False

namespace Loads

variable {R : Store → Machine → Prop}

theorem bind {x : Except RunError Store} {y : Except RunError Machine}
    {f : Store → Except RunError Store} {g : Machine → Except RunError Machine} (h : Loads R x y)
    (hfg : ∀ {s m}, R s m → Loads R (f s) (g m)) : Loads R (x >>= f) (y >>= g) := by
  cases x with
  | error e => cases y with
    | error e' => exact h
    | ok m => exact h.elim
  | ok s => cases y with
    | error e' => exact h.elim
    | ok m => exact hfg h

/-- Things that get names one after the other, in the same way in both programs. -/
theorem foldlM {α β : Type} {Q : α → β → Prop} {f : Store → α → Except RunError Store}
    {g : Machine → β → Except RunError Machine} {xs : List α} {ys : List β}
    (hxy : List.Forall₂ Q xs ys)
    (hfg : ∀ {x y s m}, Q x y → R s m → Loads R (f s x) (g m y)) {s : Store} {m : Machine}
    (h : R s m) : Loads R (xs.foldlM f s) (ys.foldlM g m) := by
  induction hxy generalizing s m with
  | nil => exact h
  | cons hx _ ih =>
    rw [List.foldlM_cons, List.foldlM_cons]
    exact (hfg hx h).bind ih

/-- Programs are loaded alike if what is called by name is loaded so. -/
theorem program {Q : Function → FunctionDef Span → Prop} {fs : List Function} {p : Program Span}
    (h : List.Forall₂ Q fs p.functions) (hR : R (Store.empty.newFrame ⟨none, []⟩).2 Machine.initial)
    (hbuiltin : ∀ s m (b : Builtin), R s m →
      Loads R (s.define Eval.globalFrame b.name (some (.builtin b)) false)
        (m.define b.name (.builtin b)))
    (hfunction : ∀ (f : Function) (fn : FunctionDef Span) s m, Q f fn → R s m → Loads R
      ((s.newClosure ⟨fn.params, fn.body, Eval.globalFrame, some fn.name⟩).2.define Eval.globalFrame
        fn.name (some (s.newClosure ⟨fn.params, fn.body, Eval.globalFrame, some fn.name⟩).1) false)
      ((m.newClosure f.closure).2.define f.code.name (m.newClosure f.closure).1)) :
    Loads R (Eval.initialStore p) (load fs) := by
  have hbuiltins : Loads R
      (Builtin.all.foldlM (fun s b => s.define Eval.globalFrame b.name (some (.builtin b)) false)
        (Store.empty.newFrame ⟨none, []⟩).2)
      (Builtin.all.foldlM (fun m b => m.define b.name (.builtin b)) Machine.initial) := by
    refine foldlM (Q := Eq) (List.forall₂_refl _) ?_ hR
    rintro b - s m rfl h
    exact hbuiltin s m b h
  exact hbuiltins.bind fun h₀ => foldlM (Q := fun fn f => Q f fn) h.flip
    (fun {fn f s m} hf h => hfunction f fn s m hf h) h₀

end Loads

namespace World

variable {w : World} {s : Store} {m : Machine} {v v' : Value} {globals : List Name}

/-- Nothing is loaded. -/
def initial : World :=
  ⟨1, fun _ => [], fun _ => 0, fun _ => none, fun _ => none, fun _ _ => False⟩

theorem initial_matches : initial.Matches (Store.empty.newFrame ⟨none, []⟩).2 Machine.initial where
  size := rfl
  activations := rfl
  store := ⟨rfl, fun _ => .nil, rfl, rfl⟩
  outermost := ⟨⟨none, []⟩, ⟨none, []⟩, rfl, rfl, rfl, rfl, .nil⟩
  frames {f fr} hf hfr := by
    rw [Store.newFrame, Array.getElem?_push,
      if_neg (by simpa [Store.empty] using Nat.ne_of_gt hf)] at hfr
    cases hfr
  injective := nofun
  closures := nofun
  wrappers := nofun

/-- A name that means something outside of all functions gets the same value, or is taken. -/
theorem Matches.define (h : w.Matches s m) (x : Name) (hv : v.Like w.closure v') :
    (∃ e, s.define Eval.globalFrame x (some v) false = .error e ∧ m.define x v' = .error e) ∨
    ∃ s' m', s.define Eval.globalFrame x (some v) false = .ok s' ∧ m.define x v' = .ok m' ∧
      w.Matches s' m' := by
  obtain ⟨g, g', hg, hg', hgg⟩ := h.outermost
  rcases hgg.define hg hg' x hv with ⟨e, hs, ht⟩ | ⟨hs, ht, hframes, hframes', hgg'⟩
  · exact .inl ⟨e, hs, by rw [Machine.define, ht]; rfl⟩
  · refine .inr ⟨_, _, hs, by rw [Machine.define, ht]; rfl, ?_⟩
    exact {
      size := by simp [h.size]
      activations := h.activations
      store := ⟨h.store.size, h.store.elements, h.store.nans, h.store.printed⟩
      outermost := ⟨_, _, hframes, hframes', hgg'⟩
      frames := by
        intro f fr hf hfr
        rw [Array.getElem?_setIfInBounds, if_neg (Nat.ne_of_lt hf)] at hfr
        exact ⟨(h.frames hf hfr).parent, (h.frames hf hfr).before, (h.frames hf hfr).names,
          (h.frames hf hfr).cells, (h.frames hf hfr).distinct⟩
      injective := h.injective
      closures := h.closures
      wrappers := h.wrappers }

/-- A lowered function is the function that it is made of. -/
theorem represents_lowered (hpos : 0 < w.frames) {f : Function} {out : FunctionDef Span}
    (h : f.LowersTo globals out) (name : Option Name) :
    w.Represents ⟨out.params, out.body, Eval.globalFrame, name⟩ f.closure := by
  obtain ⟨p, hp, hscoping, hoisted, body, roles, hlow, hhosts, rfl⟩ := h
  obtain ⟨scoping, mark, fname, params, k, ss⟩ := f
  subst hscoping
  refine .mk (r := .outermost) _ name hp hp.analysed.source hp.analysed.resolved (fun x hx => ?_)
    hp.analysed.opens hlow hhosts.toHosts (fun {n b} hb hs => ?_) (fun _ _ => .top) hpos
  · have hbelow : x ∈ (Node.function ⟨mark, fname, params, .mk k ss⟩).nodes.tail :=
      List.mem_cons_of_mem _ hx
    exact ⟨List.mem_cons_of_mem _ hbelow, hp.analysed.lt_below List.mem_cons_self hbelow, nofun⟩
  · exact absurd (hp.analysed.consistent.of_lookup?_outermost
      hp.analysed.opens.scope hb) hs

/-- While programs are loaded, both have states that match. -/
def Met (s : Store) (m : Machine) : Prop := ∃ w : World, 0 < w.frames ∧ w.Matches s m

theorem Matches.loads (h : w.Matches s m) (hpos : 0 < w.frames) (x : Name)
    (hv : v.Like w.closure v') :
    Loads Met (s.define Eval.globalFrame x (some v) false) (m.define x v') := by
  rcases h.define x hv with ⟨e, hs, hm⟩ | ⟨s', m', hs, hm, h'⟩
  · rw [hs, hm]
    rfl
  · rw [hs, hm]
    exact ⟨w, hpos, h'⟩

/-- Programs are loaded alike if the functions of the one are those of the other. -/
theorem loads {fs : List Function} {p : Program Span}
    (h : List.Forall₂ (Function.LowersTo globals) fs p.functions) :
    Loads Met (Eval.initialStore p) (load fs) := by
  refine .program h ⟨_, Nat.one_pos, initial_matches⟩ ?_ ?_
  · rintro s m b ⟨w, hpos, hm⟩
    exact hm.loads hpos _ (.plain rfl)
  · rintro f out s m hf ⟨w, hpos, hm⟩
    obtain ⟨w', hle, hc, hm'⟩ := hm.close (represents_lowered hpos hf (some out.name))
    rw [← hf.name]
    exact hm'.loads (Nat.lt_of_lt_of_le hpos hle.frames) _ (.closure hc)

/-- The same is seen of the ends of two processes that yield the same. -/
theorem ending_iff {x : Nat → FlatScope.Run Value} {y : Nat → Run Value}
    (hxy : ∀ i, lowering.Sim i w Yields x y) (h : w.Matches s m) (e : Ending) :
    (∃ n, (x n s).ending? Store.lines = some e) ↔
      ∃ k, (y k m).ending? (·.store.lines) = some e := by
  have hsame {r r' : Except Interrupt Value} {s' : Store} {m' : Machine} {w' : World}
      (hm : w'.Matches s' m') (hr : Yields w' r r') :
      (Outcome.ended r s').ending? Store.lines = (Outcome.ended r' m').ending? (·.store.lines) := by
    have hlines : s'.lines = m'.store.lines := congrArg List.reverse hm.store.printed
    rw [Outcome.ending?_ended, Outcome.ending?_ended, ← hlines]
    cases r with
    | ok v => cases r' with
      | ok v' => rfl
      | error => exact hr.elim
    | error i => cases r' with
      | ok => exact hr.elim
      | error i' =>
        obtain ⟨e⟩ := (show Fails i i' from hr)
        rfl
  constructor
  · rintro ⟨n, hn⟩
    obtain ⟨r, s', hr⟩ := Outcome.ended_of_ending? hn
    rcases (hxy n).forth (World.Le.refl w) h (Nat.le_refl n) hr with ⟨_, -, hx⟩ |
      ⟨r', m', ⟨w', -, hm, hrr⟩, K, hy⟩
    · exact hx.elim
    · refine ⟨K, ?_⟩
      rw [hy K (Nat.le_refl K), ← hsame hm hrr, ← hr, hn]
  · rintro ⟨k, hk⟩
    obtain ⟨r', m', hr'⟩ := Outcome.ended_of_ending? hk
    obtain ⟨r, s', ⟨w', -, hm, hrr⟩, N, hx⟩ :=
      (hxy k).back trivial (World.Le.refl w) h (Nat.le_refl k) hr'
    refine ⟨N, ?_⟩
    rw [hx N (Nat.le_refl N), hsame hm hrr, ← hr', hk]

/-- Programs end alike if the functions of the one are those of the other. -/
theorem endsWith_iff {fs : List Function} {main : Function} {p : Program Span}
    (h : List.Forall₂ (Function.LowersTo globals) fs p.functions)
    (hmain : main.LowersTo globals (p.main .unknown)) (e : Ending) :
    p.EndsWith e ↔ EndsWith fs main e := by
  have hload := loads h
  unfold Program.EndsWith EndsWith Program.run run
  cases hs : Eval.initialStore p with
  | error e' => cases hm : load fs with
    | error e'' =>
      rw [hs, hm] at hload
      obtain rfl : e' = e'' := hload
      rfl
    | ok m =>
      rw [hs, hm] at hload
      exact hload.elim
  | ok s => cases hm : load fs with
    | error e'' =>
      rw [hs, hm] at hload
      exact hload.elim
    | ok m =>
      rw [hs, hm] at hload
      obtain ⟨w, hpos, hwm⟩ := hload
      exact ending_iff (fun i => calls i (represents_lowered hpos hmain _) .nil) hwm e

end World

end Regional

end FlatScope
