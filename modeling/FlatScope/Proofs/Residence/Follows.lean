import FlatScope.Proofs.Process
import FlatScope.Proofs.Residence.Joint

/-!
# Following a program

The machine follows a piece of the program if it ends as the piece does, unless that stops at a
variable whose declaration has not run (`Joint.Follows`). As the piece of the program is given a
number of steps, this is proved for all pieces that end within a bound, and the rules for putting
pieces together do not mention the steps.
-/

namespace FlatScope

open Process

namespace Regional

/-- A piece of the program stopped at a variable whose declaration has not run. -/
def Excused {α : Type} (r : Except Interrupt α) : Prop :=
  ∃ n, r = .error (.failed (.uninitialized n))

namespace Joint

variable {α β : Type} {i i' : Nat} {x x' : Nat → FlatScope.Run α} {y y' : Nat → Run α}
  {j j' : Joint} {Q R : Except Interrupt α → Joint → Prop} {T : Except Interrupt β → Joint → Prop}

/-- From the two states on, the end of `x` within `i` steps is an end of `y`, and `Q` holds of it
    and of the states then. -/
structure Follows (i : Nat) (x : Nat → FlatScope.Run α) (y : Nat → Run α) (j : Joint)
    (Q : Except Interrupt α → Joint → Prop) : Prop where
  ends : ∀ {n r s}, n ≤ i → x n j.store = .ended r s → Excused r ∨
    ∃ j' : Joint, j'.store = s ∧ Q r j' ∧ ∃ K, ∀ k, K ≤ k → y k j.machine = .ended r j'.machine

namespace Follows

/-- What holds of the ends can be weakened. -/
theorem imp (h : Follows i x y j Q) (hQ : ∀ r j', Q r j' → R r j') : Follows i x y j R := by
  refine ⟨fun hn hx => (h.ends hn hx).imp_right ?_⟩
  rintro ⟨j', hs, hq, hy⟩
  exact ⟨j', hs, hQ _ j' hq, hy⟩

/-- A smaller bound. -/
theorem mono (h : Follows i x y j Q) (hi : i' ≤ i) : Follows i' x y j Q :=
  ⟨fun hn hx => h.ends (Nat.le_trans hn hi) hx⟩

/-- From the states of `j` on, the pieces do what others do from those of `k` on. -/
theorem leads {k : Joint} (hx : Leads x j.store x' k.store) (hy : Leads y j.machine y' k.machine)
    (h : Follows i x' y' k Q) : Follows i x y j Q := by
  refine ⟨fun hn hxn => ?_⟩
  obtain ⟨m, hm, hxm⟩ := hx.forth hxn
  refine (h.ends (Nat.le_trans hm hn) hxm).imp_right ?_
  rintro ⟨j', hs, hq, K, hK⟩
  exact ⟨j', hs, hq, hy.back hK⟩

/-- The machine does something more at first. -/
theorem right {k : Joint} (hy : Leads y j.machine y' k.machine) (hs : k.store = j.store)
    (h : Follows i x y' k Q) : Follows i x y j Q :=
  .leads (hs ▸ .refl x j.store) hy h

/-- Both pieces take a step. -/
theorem step (hx₀ : x 0 = outOfFuel) (hx : ∀ n, x (n + 1) = x' n)
    (hy : ∀ k, y (k + 1) = y' k) (h : ∀ i', i = i' + 1 → Follows i' x' y' j Q) :
    Follows i x y j Q := by
  refine ⟨fun {n r s} hn hxn => ?_⟩
  cases n with
  | zero =>
    rw [hx₀] at hxn
    exact absurd hxn.symm Outcome.ended_ne
  | succ n =>
    obtain ⟨i, rfl⟩ : ∃ i', i = i' + 1 := ⟨i - 1, by omega⟩
    rw [hx] at hxn
    refine ((h i rfl).ends (Nat.le_of_succ_le_succ hn) hxn).imp_right ?_
    rintro ⟨j', hs, hq, K, hK⟩
    refine ⟨j', hs, hq, K + 1, fun k hk => ?_⟩
    obtain ⟨k, rfl⟩ : ∃ k', k = k' + 1 := ⟨k - 1, by omega⟩
    rw [hy]
    exact hK k (Nat.le_of_succ_le_succ hk)

/-- Both pieces take a step, and the bound is kept. -/
theorem steps (hx₀ : x 0 = outOfFuel) (hx : ∀ n, x (n + 1) = x' n)
    (hy : ∀ k, y (k + 1) = y' k) (h : Follows i x' y' j Q) : Follows i x y j Q :=
  .step hx₀ hx hy fun _ hi => h.mono (hi ▸ Nat.le_succ _)

/-- Two pieces that need no steps. -/
theorem now {x : FlatScope.Run α} {y : Run α} {r : Except Interrupt α} {k : Joint}
    (hx : x j.store = .ended r k.store) (hy : y j.machine = .ended r k.machine) (hQ : Q r k) :
    Follows i (fun _ => x) (fun _ => y) j Q := by
  refine ⟨fun {n r' s} _ hx' => ?_⟩
  obtain ⟨rfl, rfl⟩ := Outcome.ended_inj (hx.symm.trans hx')
  exact .inr ⟨k, rfl, hQ, 0, fun _ _ => hy⟩

/-- A piece that stops at a variable whose declaration has not run. -/
theorem excused {x : FlatScope.Run α} {r : Except Interrupt α} {s : Store} (hr : Excused r)
    (hx : x j.store = .ended r s) : Follows i (fun _ => x) y j Q := by
  refine ⟨fun {n r' s'} _ hx' => ?_⟩
  obtain ⟨rfl, -⟩ := Outcome.ended_inj (hx.symm.trans hx')
  exact .inl hr

/-- Nothing is done. -/
theorem pure {a : α} (h : Q (.ok a) j) :
    Follows i (fun _ => Pure.pure a) (fun _ => Pure.pure a) j Q :=
  .now rfl rfl h

/-- Both pieces are interrupted. -/
theorem interrupt {w : Interrupt} (h : Q (.error w) j) :
    Follows i (fun _ => .interrupt w) (fun _ => .interrupt w) j Q :=
  .now rfl rfl h

/-- Both pieces go on with what the first parts end with. -/
theorem andThen {f : Nat → Except Interrupt α → FlatScope.Run β}
    {g : Nat → Except Interrupt α → Run β} (h : Follows i x y j Q)
    (hfg : ∀ r j', Q r j' → Follows i (f · r) (g · r) j' T)
    (hexcused : ∀ n r s, Excused r →
      ∃ r' : Except Interrupt β, Excused r' ∧ f n r s = .ended r' s) :
    Follows i (fun n => (x n).andThen (f n)) (fun k => (y k).andThen (g k)) j T := by
  refine ⟨fun {n r s} hn hx => ?_⟩
  obtain ⟨q, s₁, hq, hf⟩ := of_andThen hx
  rcases h.ends hn hq with he | ⟨j₁, rfl, hQ, K, hy⟩
  · obtain ⟨r', hr', hf'⟩ := hexcused n q s₁ he
    obtain ⟨rfl, -⟩ := Outcome.ended_inj (hf'.symm.trans hf)
    exact .inl hr'
  · refine ((hfg q j₁ hQ).ends hn hf).imp_right ?_
    rintro ⟨j', hs, hT, K', hg⟩
    refine ⟨j', hs, hT, max K K', fun k hk => ?_⟩
    exact (andThen_ended (hy k (by omega))).trans (hg k (by omega))

/-- Both pieces go on with the results of the first parts. -/
theorem bind {f : Nat → α → FlatScope.Run β} {g : Nat → α → Run β} (h : Follows i x y j Q)
    (herror : ∀ w j', Q (.error w) j' → T (.error w) j')
    (hfg : ∀ a j', Q (.ok a) j' → Follows i (f · a) (g · a) j' T) :
    Follows i (fun n => x n >>= f n) (fun k => y k >>= g k) j T := by
  simp only [bind_eq_andThen]
  refine h.andThen (fun r j' hq => ?_) ?_
  · cases r with
    | ok a => exact hfg a j' hq
    | error w => exact .interrupt (herror w j' hq)
  · rintro n r s ⟨x, rfl⟩
    exact ⟨_, ⟨x, rfl⟩, rfl⟩

end Follows

end Joint

end Regional

end FlatScope
