import FlatScope.Proofs.Residence.Expressions

/-!
# Leaving wrappers

A wrapper of the machine is left by copying what it has to write back, where nothing resides, so
the states still match (`Joint.leave_ended`). With what a wrapper was left by, the machine goes on
as the program does, which has no wrapper (`Joint.Follows.dispatched`).
-/

namespace FlatScope

open Process

namespace Regional.Joint

variable {i : Nat} {j j' j₀ : Joint} {a : Scoping} {g : FrameId} {ns : List (Node Mark)}
  {pl : Place} {jumps b : Bool} {ws : List (Location × Location)}

/-- What code in a place may be left by. A `continue` that leaves a wrapper has written back. -/
def Leaving (pl : Place) (jumps : Bool) (j : Joint) : Interrupt → Prop
  | .failed _ => True
  | .returned v => j.Has v
  | .broke => jumps
  | .continued => jumps ∧
    (pl.inLoop = false → ∀ q ∈ pl.writeBacks, j.machine.cells q.1 = j.machine.cells q.2)

/-- Code can always be left by an error. -/
theorem Fails.leaving {w : Interrupt} (h : Fails j w) : Leaving pl jumps j w := by
  obtain ⟨e, rfl⟩ := h
  trivial

/-- Statements run, or are left. -/
abbrev Runs (j : Joint) (pl : Place) (jumps : Bool) : Except Interrupt Unit → Joint → Prop :=
  Ends j (fun _ _ => True) (Leaving pl jumps)

/-- The machine does something more in the end. -/
theorem Follows.finish {α : Type} {x : Nat → FlatScope.Run α} {y : Nat → Run α}
    {Q R : Except Interrupt α → Joint → Prop} (h : Follows i x y j Q)
    {g : Except Interrupt α → Run α}
    (hg : ∀ r j', Q r j' → ∃ j'' : Joint, j''.store = j'.store ∧
      g r j'.machine = .ended r j''.machine ∧ R r j'') :
    Follows i x (fun k => (y k).andThen g) j R := by
  refine ⟨fun hn hx => (h.ends hn hx).imp_right ?_⟩
  rintro ⟨j', rfl, hq, K, hK⟩
  obtain ⟨j'', hs, hm, hr⟩ := hg _ j' hq
  exact ⟨j'', hs, hr, K, fun k hk => (andThen_ended (hK k hk)).trans hm⟩

/-! ## Writing back -/

/-- Nothing resides where a place writes back to. -/
theorem Stays.leaves (h : j.Stays a pl ns) : j.Leaves (j.machine.copyAll pl.writeBacks) :=
  (Leaves.refl j).copyAll fun q hq => (h.writeBacks q hq).2.2

/-- What is written back is where it came from, too. -/
theorem copied (m : Machine) (h : ∀ q ∈ ws, ws = [q]) :
    ∀ q ∈ ws, (m.copyAll ws).cells q.1 = (m.copyAll ws).cells q.2 := by
  intro q hq
  rw [h q hq]
  change (m.set q.1 (m.cells q.2)).cells q.1 = (m.set q.1 (m.cells q.2)).cells q.2
  rw [Machine.set_cells_same]
  by_cases hqq : q.2 = q.1
  · rw [hqq, Machine.set_cells_same]
  · rw [Machine.set_cells_ne m _ hqq]

/-- A place is left. -/
theorem leave_ended (hj : j.Matches) (hst : j.Stays a pl ns) {w : Interrupt} :
    ∃ j' : Joint, j'.store = j.store ∧
      (leave pl w : Run Unit) j.machine = .ended (.error w) j'.machine ∧ j'.Matches ∧ j.Grows j' ∧
      ∀ q ∈ pl.writeBacks, j'.machine.cells q.1 = j'.machine.cells q.2 := by
  obtain ⟨hj', hgrows⟩ := hj.leaves hst.leaves
  exact ⟨j.goTo j.store (j.machine.copyAll pl.writeBacks), rfl, rfl, hj', hgrows,
    copied _ fun q hq => (hst.writeBacks q hq).1⟩

/-- A place is left if no loop is around. -/
theorem jump_ended (hj : j.Matches) (hst : j.Stays a pl ns) {w : Interrupt} :
    ∃ j' : Joint, j'.store = j.store ∧ jump pl b w j.machine = .ended (.error w) j'.machine ∧
      j'.Matches ∧ j.Grows j' ∧
      (b = false → ∀ q ∈ pl.writeBacks, j'.machine.cells q.1 = j'.machine.cells q.2) := by
  cases b with
  | true => exact ⟨j, rfl, rfl, hj, .refl hj, by rintro ⟨⟩⟩
  | false =>
    obtain ⟨j', hs, hl, hj', hgrows, hcopied⟩ := leave_ended hj hst (w := w)
    exact ⟨j', hs, hl, hj', hgrows, fun _ => hcopied⟩

/-- A function or wrapper is left. -/
theorem leave_follows (hj : j.Matches) (hst : j.Stays a pl ns) {w : Interrupt}
    (hw : ∀ j' : Joint, j'.store = j.store → (∀ q ∈ pl.writeBacks,
      j'.machine.cells q.1 = j'.machine.cells q.2) → Leaving pl jumps j' w) :
    Follows i (fun _ => .interrupt w) (fun _ => leave pl w) j (Runs j pl jumps) := by
  obtain ⟨j', hs, hl, hj', hgrows, hcopied⟩ := leave_ended hj hst (w := w)
  exact .now (r := .error w) (hs ▸ rfl) hl (.error hj' hgrows (hw j' hs hcopied))

/-- A `break` or `continue`, which leaves a wrapper if no loop is around it. -/
theorem jump_follows (hj : j.Matches) (hst : j.Stays a pl ns) {w : Interrupt}
    (hw : ∀ j' : Joint, (pl.inLoop = false → ∀ q ∈ pl.writeBacks,
      j'.machine.cells q.1 = j'.machine.cells q.2) → Leaving pl jumps j' w) :
    Follows i (fun _ => .interrupt w) (fun _ => jump pl pl.inLoop w) j (Runs j pl jumps) := by
  obtain ⟨j', hs, hl, hj', hgrows, hcopied⟩ := jump_ended (b := pl.inLoop) hj hst (w := w)
  exact .now (r := .error w) (hs ▸ rfl) hl (.error hj' hgrows (hw j' hcopied))

/-! ## Going on -/

/-- The machine goes on with what a wrapper was left by. -/
theorem resume_ended (hst : j₀.Stays a pl ns) {r : Except Interrupt Unit}
    (h : Runs j₀ ⟨g, false, ws⟩ jumps r j) : ∃ j' : Joint, j'.store = j.store ∧
      World.resume pl b r j.machine = .ended r j'.machine ∧
      Runs j₀ { pl with inLoop := b } jumps r j' := by
  have hst' := hst.grows h.grows
  cases r with
  | ok u => exact ⟨j, rfl, rfl, .ok h.agree h.grows trivial⟩
  | error w =>
    have hw := h.stop w rfl
    cases w with
    | failed e => exact ⟨j, rfl, rfl, .error h.agree h.grows trivial⟩
    | returned v =>
      obtain ⟨j', hs, hl, hj', hgrows, -⟩ := leave_ended h.agree hst' (w := .returned v)
      exact ⟨j', hs, hl, .error hj' (h.grows.trans hgrows) (Has.grows hw hgrows)⟩
    | broke =>
      obtain ⟨j', hs, hl, hj', hgrows, -⟩ := jump_ended (b := b) h.agree hst' (w := .broke)
      exact ⟨j', hs, hl, .error hj' (h.grows.trans hgrows) hw⟩
    | continued =>
      obtain ⟨j', hs, hl, hj', hgrows, hcopied⟩ :=
        jump_ended (b := b) h.agree hst' (w := .continued)
      exact ⟨j', hs, hl, .error hj' (h.grows.trans hgrows) ⟨hw.1, hcopied⟩⟩

/-- The machine goes on with what a wrapper was left by. -/
theorem Follows.dispatched {x : Nat → FlatScope.Run Unit} {y : Nat → Run Unit}
    (h : Follows i x y j (Runs j₀ ⟨g, false, ws⟩ jumps)) (hst : j₀.Stays a pl ns) :
    Follows i x (fun k => dispatch pl b (y k)) j (Runs j₀ { pl with inLoop := b } jumps) := by
  simp only [World.dispatch_eq]
  exact h.finish fun r j' hr => resume_ended hst hr

end Regional.Joint

end FlatScope
