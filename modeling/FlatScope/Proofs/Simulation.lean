import FlatScope.Proofs.Process

/-!
# Simulations

Two programs that run in step, each with its own states. What is known about a pair of states is
said by a *world*; the worlds grow while the programs run (`Correspondence`).

A piece of a program is a process for every number of steps that it is given, so a simulation of
one piece by another one relates two families of processes (`Correspondence.Sim`). It goes *forth*
if an end of the left one is an end of the right one, however many steps that takes, and *back* if
an end of the right one is one of the left one. Both directions are bounded: `Sim i` only speaks of
ends within `i` steps. So a simulation can be proved by induction on the bound, and the rules for
putting simulations together do not mention the direction. What only one of the programs does
between two pieces is said by `Process.Leads`.
-/

namespace FlatScope

variable {σ τ α β γ δ : Type}

/-- How the states of two programs correspond. -/
structure Correspondence (σ τ : Type) where
  /-- What is known about two states. -/
  World : Type
  /-- Whether a world is a later one. -/
  le : World → World → Prop
  refl : ∀ w, le w w
  trans : ∀ {u v w}, le u v → le v w → le u w
  /-- What holds of two states. -/
  Matches : World → σ → τ → Prop
  /-- The interruptions of the left program after which nothing is claimed. -/
  exempt : Interrupt → Prop
  /-- Whether the ends of the right program are ends of the left one. -/
  both : Prop
  strict : both → ∀ w, ¬ exempt w

namespace Correspondence

variable (C : Correspondence σ τ)

/-- Nothing is claimed after this end of the left program. -/
def Excused (r : Except Interrupt α) : Prop := ∃ w, r = .error w ∧ C.exempt w

/-- What is related are results, in some later world. -/
def Related (w : C.World) (R : C.World → Except Interrupt α → Except Interrupt β → Prop)
    (r : Except Interrupt α) (s : σ) (r' : Except Interrupt β) (t : τ) : Prop :=
  ∃ w', C.le w w' ∧ C.Matches w' s t ∧ R w' r r'

/-- The processes `x` and `y` have related ends, if one of them ends within `i` steps. -/
structure Sim (i : Nat) (w : C.World)
    (R : C.World → Except Interrupt α → Except Interrupt β → Prop) (x : Nat → Process σ α)
    (y : Nat → Process τ β) : Prop where
  forth : ∀ {w' s t}, C.le w w' → C.Matches w' s t → ∀ {n r s'}, n ≤ i → x n s = .ended r s' →
    C.Excused r ∨ ∃ r' t', C.Related w' R r s' r' t' ∧ ∃ K, ∀ k, K ≤ k → y k t = .ended r' t'
  back : C.both → ∀ {w' s t}, C.le w w' → C.Matches w' s t → ∀ {k r' t'}, k ≤ i →
    y k t = .ended r' t' →
    ∃ r s', C.Related w' R r s' r' t' ∧ ∃ N, ∀ n, N ≤ n → x n s = .ended r s'

variable {C} {i j : Nat} {w w' : C.World}
  {R S : C.World → Except Interrupt α → Except Interrupt β → Prop} {x x' : Nat → Process σ α}
  {y y' : Nat → Process τ β}

theorem Related.imp {r : Except Interrupt α} {r' : Except Interrupt β} {s : σ} {t : τ}
    (h : C.Related w R r s r' t) (hRS : ∀ w', C.le w w' → R w' r r' → S w' r r') :
    C.Related w S r s r' t := by
  obtain ⟨w', hle, hm, hr⟩ := h
  exact ⟨w', hle, hm, hRS w' hle hr⟩

theorem Related.before {r : Except Interrupt α} {r' : Except Interrupt β} {s : σ} {t : τ}
    (hle : C.le w w') (h : C.Related w' R r s r' t) : C.Related w R r s r' t := by
  obtain ⟨w'', hle', hm, hr⟩ := h
  exact ⟨w'', C.trans hle hle', hm, hr⟩

namespace Sim

/-- A simulation may be used later. -/
theorem later (h : C.Sim i w R x y) (hle : C.le w w') : C.Sim i w' R x y :=
  ⟨fun hle' => h.forth (C.trans hle hle'), fun hb _ _ _ hle' => h.back hb (C.trans hle hle')⟩

/-- A simulation holds for smaller bounds. -/
theorem mono (h : C.Sim i w R x y) (hj : j ≤ i) : C.Sim j w R x y :=
  ⟨fun hle hm _ _ _ hn => h.forth hle hm (Nat.le_trans hn hj),
    fun hb _ _ _ hle hm _ _ _ hk => h.back hb hle hm (Nat.le_trans hk hj)⟩

theorem imp (h : C.Sim i w R x y) (hRS : ∀ w', C.le w w' → ∀ r r', R w' r r' → S w' r r') :
    C.Sim i w S x y where
  forth := by
    intro _ _ _ hle hm n r s' hn hx
    refine (h.forth hle hm hn hx).imp_right ?_
    rintro ⟨r', t', hr, hy⟩
    exact ⟨r', t', hr.imp fun w' hle' => hRS w' (C.trans hle hle') _ _, hy⟩
  back := by
    intro hb _ _ _ hle hm k r' t' hk hy
    obtain ⟨r, s', hr, hx⟩ := h.back hb hle hm hk hy
    exact ⟨r, s', hr.imp fun w' hle' => hRS w' (C.trans hle hle') _ _, hx⟩

/-- From states that match, the pieces do what others do whose ends are related. -/
theorem leads (h : ∀ w' s t, C.le w w' → C.Matches w' s t → ∃ w₁ s₁ t₁ x₁ y₁, C.le w' w₁ ∧
      C.Matches w₁ s₁ t₁ ∧ Process.Leads x s x₁ s₁ ∧ Process.Leads y t y₁ t₁ ∧
      C.Sim i w₁ R x₁ y₁) : C.Sim i w R x y where
  forth := by
    intro w' s t hle hm n r s' hn hx
    obtain ⟨w₁, s₁, t₁, x₁, y₁, hle₁, hm₁, hxl, hyl, hsim⟩ := h w' s t hle hm
    obtain ⟨m, hmn, hx₁⟩ := hxl.forth hx
    refine (hsim.forth (C.refl w₁) hm₁ (Nat.le_trans hmn hn) hx₁).imp_right ?_
    rintro ⟨r', t', hr, K, hy⟩
    exact ⟨r', t', hr.before hle₁, hyl.back hy⟩
  back := by
    intro hb w' s t hle hm k r' t' hk hy
    obtain ⟨w₁, s₁, t₁, x₁, y₁, hle₁, hm₁, hxl, hyl, hsim⟩ := h w' s t hle hm
    obtain ⟨m, hmk, hy₁⟩ := hyl.forth hy
    obtain ⟨r, s', hr, N, hx⟩ := hsim.back hb (C.refl w₁) hm₁ (Nat.le_trans hmk hk) hy₁
    exact ⟨r, s', hr.before hle₁, hxl.back hx⟩

/-- Both pieces take a step. -/
theorem step (hx₀ : x 0 = Process.outOfFuel) (hy₀ : y 0 = Process.outOfFuel)
    (hx : ∀ n, x (n + 1) = x' n) (hy : ∀ k, y (k + 1) = y' k)
    (h : ∀ j, i = j + 1 → C.Sim j w R x' y') : C.Sim i w R x y where
  forth := by
    intro _ _ _ hle hm n r s' hn hxn
    cases n with
    | zero =>
      rw [hx₀] at hxn
      exact absurd hxn.symm Outcome.ended_ne
    | succ n =>
      obtain ⟨j, rfl⟩ : ∃ j, i = j + 1 := ⟨i - 1, by omega⟩
      rw [hx] at hxn
      refine ((h j rfl).forth hle hm (Nat.le_of_succ_le_succ hn) hxn).imp_right ?_
      rintro ⟨r', t', hr, K, hy'⟩
      refine ⟨r', t', hr, K + 1, fun k hk => ?_⟩
      obtain ⟨k, rfl⟩ : ∃ k', k = k' + 1 := ⟨k - 1, by omega⟩
      rw [hy]
      exact hy' k (Nat.le_of_succ_le_succ hk)
  back := by
    intro hb _ _ _ hle hm k r' t' hk hyk
    cases k with
    | zero =>
      rw [hy₀] at hyk
      exact absurd hyk.symm Outcome.ended_ne
    | succ k =>
      obtain ⟨j, rfl⟩ : ∃ j, i = j + 1 := ⟨i - 1, by omega⟩
      rw [hy] at hyk
      obtain ⟨r, s', hr, N, hx'⟩ := (h j rfl).back hb hle hm (Nat.le_of_succ_le_succ hk) hyk
      refine ⟨r, s', hr, N + 1, fun n hn => ?_⟩
      obtain ⟨n, rfl⟩ : ∃ n', n = n' + 1 := ⟨n - 1, by omega⟩
      rw [hx]
      exact hx' n (Nat.le_of_succ_le_succ hn)

/-- The left piece takes a step. -/
theorem left (hx₀ : x 0 = Process.outOfFuel) (hx : ∀ n, x (n + 1) = x' n)
    (h : C.Sim i w R x' y) : C.Sim i w R x y :=
  .leads fun w' s t hle hm => ⟨w', s, t, x', y, C.refl w', hm,
    .step (by rw [hx₀]; rfl) fun n => by rw [hx], .refl y t, h.later hle⟩

/-- The right piece takes a step. -/
theorem right (hy₀ : y 0 = Process.outOfFuel) (hy : ∀ k, y (k + 1) = y' k)
    (h : C.Sim i w R x y') : C.Sim i w R x y :=
  .leads fun w' s t hle hm => ⟨w', s, t, x, y', C.refl w', hm, .refl x s,
    .step (by rw [hy₀]; rfl) fun k => by rw [hy], h.later hle⟩

/-- Two pieces that need no steps. -/
theorem now {x : Process σ α} {y : Process τ β}
    (h : ∀ w' s t, C.le w w' → C.Matches w' s t → ∃ r s', x s = .ended r s' ∧
      (C.Excused r ∨ ∃ r' t', y t = .ended r' t' ∧ C.Related w' R r s' r' t')) :
    C.Sim i w R (fun _ => x) (fun _ => y) where
  forth := by
    intro _ _ _ hle hm n r s' hn hx
    obtain ⟨q, s'', hq, hr⟩ := h _ _ _ hle hm
    obtain ⟨rfl, rfl⟩ := Outcome.ended_inj (hq.symm.trans hx)
    refine hr.imp_right ?_
    rintro ⟨r', t', hy, hr⟩
    exact ⟨r', t', hr, 0, fun _ _ => hy⟩
  back := by
    intro hb _ _ _ hle hm k r' t' hk hy
    obtain ⟨q, s'', hq, ⟨e, -, he⟩ | ⟨q', t'', hq', hr⟩⟩ := h _ _ _ hle hm
    · exact absurd he (C.strict hb e)
    · obtain ⟨rfl, rfl⟩ := Outcome.ended_inj (hq'.symm.trans hy)
      exact ⟨q, s'', hr, 0, fun _ _ => hq⟩

/-- Both pieces go on with what the first parts end with. -/
theorem andThen {T : C.World → Except Interrupt γ → Except Interrupt δ → Prop}
    {f : Nat → Except Interrupt α → Process σ γ} {g : Nat → Except Interrupt β → Process τ δ}
    (h : C.Sim i w R x y)
    (hfg : ∀ w', C.le w w' → ∀ r r', R w' r r' → C.Sim i w' T (f · r) (g · r'))
    (hexempt : ∀ n e s, C.exempt e → f n (.error e) s = .interrupted e s) :
    C.Sim i w T (fun n => (x n).andThen (f n)) (fun k => (y k).andThen (g k)) where
  forth := by
    intro _ _ _ hle hm n r s' hn hx
    obtain ⟨q, s₁, hq, hf⟩ := Process.of_andThen hx
    rcases h.forth hle hm hn hq with ⟨e, rfl, he⟩ | ⟨q', t₁, ⟨w₁, hle₁, hm₁, hr⟩, K, hy⟩
    · rw [hexempt n e s₁ he] at hf
      obtain ⟨rfl, -⟩ := Outcome.ended_inj (show Outcome.ended (.error e) s₁ = _ from hf)
      exact .inl ⟨e, rfl, he⟩
    · refine ((hfg w₁ (C.trans hle hle₁) q q' hr).forth (C.refl w₁) hm₁ hn hf).imp_right ?_
      rintro ⟨r', t', hr', K', hg⟩
      refine ⟨r', t', hr'.before hle₁, max K K', fun k hk => ?_⟩
      rw [Process.andThen_ended (hy k (by omega))]
      exact hg k (by omega)
  back := by
    intro hb _ _ _ hle hm k r' t' hk hy
    obtain ⟨q', t₁, hq', hg⟩ := Process.of_andThen hy
    obtain ⟨q, s₁, ⟨w₁, hle₁, hm₁, hr⟩, N, hx⟩ := h.back hb hle hm hk hq'
    obtain ⟨r, s', hr', N', hf⟩ :=
      (hfg w₁ (C.trans hle hle₁) q q' hr).back hb (C.refl w₁) hm₁ hk hg
    refine ⟨r, s', hr'.before hle₁, max N N', fun n hn => ?_⟩
    rw [Process.andThen_ended (hx n (by omega))]
    exact hf n (by omega)

end Sim

end Correspondence

/-- Results and interruptions that are related. -/
def Both (φ : α → β → Prop) (ι : Interrupt → Interrupt → Prop) :
    Except Interrupt α → Except Interrupt β → Prop
  | .ok a, .ok b => φ a b
  | .error v, .error w => ι v w
  | _, _ => False

namespace Correspondence.Sim

variable {C : Correspondence σ τ} {i : Nat} {w : C.World} {φ : C.World → α → β → Prop}
  {ψ : C.World → γ → δ → Prop} {ι : C.World → Interrupt → Interrupt → Prop}
  {x : Nat → Process σ α} {y : Nat → Process τ β} {f : Nat → α → Process σ γ}
  {g : Nat → β → Process τ δ}

/-- Both pieces stop. -/
theorem interrupt {v v' : Interrupt} (h : ∀ w', C.le w w' → ι w' v v') :
    C.Sim i w (fun w => Both (φ w) (ι w)) (fun _ => .interrupt v) (fun _ => .interrupt v') :=
  .now fun w' s t hle hm =>
    ⟨.error v, s, rfl, .inr ⟨.error v', t, rfl, w', C.refl w', hm, h w' hle⟩⟩

/-- Both pieces yield a result. -/
theorem pure {a : α} {b : β} (h : ∀ w', C.le w w' → φ w' a b) :
    C.Sim i w (fun w => Both (φ w) (ι w)) (fun _ => Pure.pure a) (fun _ => Pure.pure b) :=
  .now fun w' s t hle hm => ⟨.ok a, s, rfl, .inr ⟨.ok b, t, rfl, w', C.refl w', hm, h w' hle⟩⟩

/-- Both pieces go on with the results of the first parts. -/
theorem bind {ι' : C.World → Interrupt → Interrupt → Prop}
    (h : C.Sim i w (fun w => Both (φ w) (ι w)) x y)
    (hι : ∀ {w' w'' v v'}, C.le w' w'' → ι w' v v' → ι' w'' v v')
    (hfg : ∀ w', C.le w w' → ∀ a b, φ w' a b →
      C.Sim i w' (fun w => Both (ψ w) (ι' w)) (f · a) (g · b)) :
    C.Sim i w (fun w => Both (ψ w) (ι' w)) (fun n => x n >>= f n) (fun k => y k >>= g k) := by
  simp only [Process.bind_eq_andThen]
  refine h.andThen (fun w' hle r r' hr => ?_) fun _ _ _ _ => rfl
  cases r with
  | ok a =>
    cases r' with
    | ok b => exact hfg w' hle a b hr
    | error v => exact hr.elim
  | error v =>
    cases r' with
    | ok b => exact hr.elim
    | error v' => exact .interrupt fun w'' hle' => hι hle' hr

end Correspondence.Sim

end FlatScope
