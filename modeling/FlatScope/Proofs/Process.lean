import FlatScope.Eval.Run
import FlatScope.Value

/-!
# Processes

A piece of a program is a process for every number of steps that it is given. How it ends is
independent of the number of steps if it ends at all: what has ended ends in the same way within
more steps (`Process.Grows`). From a state on, such a family may do what another one does from
another state on, but for some steps (`Process.Leads`); in particular it may end with a result
(`Process.Ends`).
-/

namespace FlatScope

variable {σ τ α β γ δ : Type}

namespace Outcome

/-- The end with the given result or interruption. -/
def ended (r : Except Interrupt α) (s : σ) : Outcome σ α :=
  match r with
  | .ok a => .done a s
  | .error w => .interrupted w s

theorem ended_ne {r : Except Interrupt α} {s : σ} : ended r s ≠ .outOfFuel := by
  cases r <;> simp [ended]

theorem ended_inj {r r' : Except Interrupt α} {s s' : σ} (h : ended r s = ended r' s') :
    r = r' ∧ s = s' := by
  cases r <;> cases r' <;> simp_all [ended]

theorem cases_ended (o : Outcome σ α) : o = .outOfFuel ∨ ∃ r s, o = ended r s := by
  cases o with
  | done a s => exact .inr ⟨.ok a, s, rfl⟩
  | interrupted w s => exact .inr ⟨.error w, s, rfl⟩
  | outOfFuel => exact .inl rfl

end Outcome

/-- The second outcome is the first one, unless that is not finished. -/
def Outcome.Before (o o' : Outcome σ α) : Prop := o = .outOfFuel ∨ o = o'

theorem Outcome.Before.refl (o : Outcome σ α) : o.Before o := .inr rfl

theorem Outcome.Before.trans {o o' o'' : Outcome σ α} (h : o.Before o') (h' : o'.Before o'') :
    o.Before o'' := by
  rcases h with rfl | rfl
  · exact .inl rfl
  · exact h'

namespace Process

/-- Goes on with the result or interruption of a process. -/
def andThen (x : Process σ α) (f : Except Interrupt α → Process σ β) : Process σ β := fun s =>
  match x s with
  | .done a s => f (.ok a) s
  | .interrupted w s => f (.error w) s
  | .outOfFuel => .outOfFuel

variable {x : Process σ α} {f : Except Interrupt α → Process σ β} {s s' : σ}

theorem andThen_ended {r : Except Interrupt α} (h : x s = .ended r s') :
    x.andThen f s = f r s' := by
  cases r <;> simp [andThen, h, Outcome.ended]

theorem of_andThen {r : Except Interrupt β} {s'' : σ} (h : x.andThen f s = .ended r s'') :
    ∃ q s', x s = .ended q s' ∧ f q s' = .ended r s'' := by
  rcases Outcome.cases_ended (x s) with hx | ⟨q, s', hx⟩
  · rw [andThen, hx] at h
    exact absurd h.symm Outcome.ended_ne
  · rw [andThen_ended hx] at h
    exact ⟨q, s', hx, h⟩

theorem bind_eq_andThen (x : Process σ α) (f : α → Process σ β) :
    x >>= f = x.andThen fun r => match r with
      | .ok a => f a
      | .error w => .interrupt w := by
  funext s
  change Process.bind x f s = _
  rw [Process.bind, andThen]
  cases x s <;> rfl

/-- What a call yields whose statements end in the given way. -/
def yielded : Except Interrupt Unit → Process σ Value
  | .ok _ => pure .undefined
  | .error (.returned v) => pure v
  | .error w => interrupt w

section Bind

variable {f : α → Process σ β}

/-- A process that goes on in two steps. -/
theorem bind_andThen (x : Process σ α) (f : α → Process σ β) {γ : Type}
    (g : Except Interrupt β → Process σ γ) : (x >>= f).andThen g = x.andThen fun r => match r with
      | .ok a => (f a).andThen g
      | .error w => g (.error w) := by
  rw [bind_eq_andThen]
  funext s
  rw [andThen, andThen, andThen]
  cases x s <;> rfl

theorem bind_pure' (x : Process σ α) : x >>= Pure.pure = x := by
  funext s
  change Process.bind x Process.pure s = _
  rw [Process.bind]
  cases x s <;> rfl

theorem bind_assoc' (x : Process σ α) (f : α → Process σ β) {γ : Type} (g : β → Process σ γ) :
    x >>= f >>= g = x >>= fun a => f a >>= g := by
  funext s
  change Process.bind (Process.bind x f) g s = Process.bind x (fun a => Process.bind (f a) g) s
  simp only [Process.bind]
  cases x s <;> rfl

theorem bind_ok {a : α} (h : x s = .ended (.ok a) s') : (x >>= f) s = f a s' := by
  rw [bind_eq_andThen, andThen_ended h]

theorem bind_error {w : Interrupt} (h : x s = .ended (.error w) s') :
    (x >>= f) s = .ended (.error w) s' := by
  rw [bind_eq_andThen, andThen_ended h]
  rfl

/-- A process that ends is interrupted in its first part or goes on with the result of that. -/
theorem of_bind {r : Except Interrupt β} {s'' : σ} (h : (x >>= f) s = .ended r s'') :
    (∃ w, r = .error w ∧ x s = .ended (.error w) s'') ∨
      ∃ a s', x s = .ended (.ok a) s' ∧ f a s' = .ended r s'' := by
  rw [bind_eq_andThen] at h
  obtain ⟨q, s', hq, hf⟩ := of_andThen h
  cases q with
  | ok a => exact .inr ⟨a, s', hq, hf⟩
  | error w =>
    obtain ⟨rfl, rfl⟩ := Outcome.ended_inj (show Outcome.ended (.error w) s' = _ from hf)
    exact .inl ⟨w, rfl, hq⟩

end Bind

/-! ## More steps -/

/-- Where the first process ends, the second one ends in the same way. -/
def Before (x y : Process σ α) : Prop := ∀ s, (x s).Before (y s)

namespace Before

variable {x y : Process σ α} {f g : α → Process σ β}

theorem refl (x : Process σ α) : x.Before x := fun _ => .refl _

theorem bind (h : x.Before y) (hf : ∀ a, (f a).Before (g a)) : Before (x >>= f) (y >>= g) := by
  intro s
  change Outcome.Before (Process.bind x f s) (Process.bind y g s)
  rw [Process.bind, Process.bind]
  rcases h s with hx | hx
  · exact .inl (by rw [hx])
  · rw [hx]
    cases y s with
    | done a s => exact hf a s
    | interrupted w s => exact .refl _
    | outOfFuel => exact .refl _

theorem ended (h : x.Before y) {s s' : σ} {r : Except Interrupt α} (hx : x s = .ended r s') :
    y s = .ended r s' := by
  rcases h s with ho | ho
  · exact absurd (hx.symm.trans ho) Outcome.ended_ne
  · exact ho.symm.trans hx

end Before

theorem before_outOfFuel (x : Process σ α) : Before outOfFuel x := fun _ => .inl rfl

/-- What has ended ends in the same way within one more step. -/
def Grows (x : Nat → Process σ α) : Prop := ∀ n, (x n).Before (x (n + 1))

theorem Grows.const (x : Process σ α) : Grows fun _ => x := fun _ => .refl x

theorem Grows.bind {x : Nat → Process σ α} {f : Nat → α → Process σ β} (h : Grows x)
    (hf : ∀ a, Grows (f · a)) : Grows fun n => x n >>= f n :=
  fun n => (h n).bind fun a => hf a n

/-- What has ended ends in the same way within more steps. -/
theorem Grows.before {x : Nat → Process σ α} (h : Grows x) {m n : Nat} (hmn : m ≤ n) :
    (x m).Before (x n) := by
  induction hmn with
  | refl => exact .refl _
  | step _ ih => exact fun s => (ih s).trans (h _ s)

/-! ## What another process does -/

/-- From the state `s` on, `x` does what `x'` does from the state `s'` on. It may need more
    steps. -/
structure Leads (x : Nat → Process σ α) (s : σ) (x' : Nat → Process σ α) (s' : σ) : Prop where
  forth : ∀ {n r t}, x n s = .ended r t → ∃ m ≤ n, x' m s' = .ended r t
  back : ∀ {N r t}, (∀ n, N ≤ n → x' n s' = .ended r t) → ∃ N', ∀ n, N' ≤ n → x n s = .ended r t

namespace Leads

variable {x x' x'' : Nat → Process σ α} {s s' s'' : σ}

theorem refl (x : Nat → Process σ α) (s : σ) : Leads x s x s :=
  ⟨fun h => ⟨_, Nat.le_refl _, h⟩, fun h => ⟨_, h⟩⟩

theorem trans (h : Leads x s x' s') (h' : Leads x' s' x'' s'') : Leads x s x'' s'' where
  forth hx := by
    obtain ⟨m, hm, hx'⟩ := h.forth hx
    obtain ⟨k, hk, hx''⟩ := h'.forth hx'
    exact ⟨k, Nat.le_trans hk hm, hx''⟩
  back hx := by
    obtain ⟨N, hN⟩ := h'.back hx
    exact h.back hN

/-- Pieces that end in the same way. -/
theorem of_eq (h : ∀ n, x n s = x' n s') : Leads x s x' s' :=
  ⟨fun {n _ _} hx => ⟨n, Nat.le_refl n, (h n).symm.trans hx⟩,
    fun {N _ _} hx => ⟨N, fun n hn => (h n).trans (hx n hn)⟩⟩

/-- A piece takes a step. -/
theorem step {y : Nat → Process σ α} (h₀ : x 0 s = .outOfFuel)
    (h : ∀ n, x (n + 1) s = y n s') : Leads x s y s' where
  forth {n _ _} hx := by
    obtain _ | n := n
    · rw [h₀] at hx
      exact absurd hx.symm Outcome.ended_ne
    · exact ⟨n, Nat.le_succ n, (h n).symm.trans hx⟩
  back {N _ _} hx := by
    refine ⟨N + 1, fun n hn => ?_⟩
    obtain ⟨n, rfl⟩ : ∃ n', n = n' + 1 := ⟨n - 1, by omega⟩
    exact (h n).trans (hx n (Nat.le_of_succ_le_succ hn))

/-- A piece that goes on with what another one ends with. -/
theorem andThen {f : Nat → Except Interrupt α → Process σ β} (h : Leads x s x' s')
    (hx' : Grows x') :
    Leads (fun n => (x n).andThen (f n)) s (fun n => (x' n).andThen (f n)) s' where
  forth {n _ _} hx := by
    obtain ⟨q, s₁, hq, hf⟩ := of_andThen hx
    obtain ⟨m, hm, hq'⟩ := h.forth hq
    exact ⟨n, Nat.le_refl n, (andThen_ended ((hx'.before hm).ended hq')).trans hf⟩
  back {N _ _} hx := by
    obtain ⟨q, s₁, hq, -⟩ := of_andThen (hx N (Nat.le_refl N))
    obtain ⟨N', hN'⟩ := h.back fun n hn => (hx'.before hn).ended hq
    refine ⟨max N N', fun n hn => ?_⟩
    rw [andThen_ended (hN' n (by omega))]
    have hn' := hx n (by omega)
    rwa [andThen_ended ((hx'.before (show N ≤ n by omega)).ended hq)] at hn'

/-- A piece whose first part does what another one does. -/
theorem bind {f : Nat → α → Process σ β} (h : Leads x s x' s') (hx' : Grows x') :
    Leads (fun n => x n >>= f n) s (fun n => x' n >>= f n) s' := by
  simp only [bind_eq_andThen]
  exact h.andThen hx'

/-- A piece whose first part is interrupted. -/
theorem interrupted {f : Nat → α → Process σ β} {q : Interrupt}
    (h : Leads x s (fun _ => interrupt q) s') :
    Leads (fun n => x n >>= f n) s (fun _ => interrupt q) s' :=
  (h.bind (.const _)).trans (.of_eq (x := fun n => interrupt q >>= f n) fun _ => rfl)

end Leads

/-- From the state `s` on, `x` ends with a result in the state `s'`. -/
def Ends (x : Nat → Process σ α) (s : σ) (a : α) (s' : σ) : Prop :=
  Leads x s (fun _ => pure a) s'

namespace Ends

variable {x : Nat → Process σ α} {f : Nat → α → Process σ β} {s s' : σ} {a : α}

theorem now {x : Process σ α} (h : x s = .done a s') : Ends (fun _ => x) s a s' := .of_eq fun _ => h

/-- A piece goes on with what its first part ends with. -/
theorem andThen {f : Nat → Except Interrupt α → Process σ β} (h : Ends x s a s') :
    Leads (fun n => (x n).andThen (f n)) s (f · (.ok a)) s' :=
  (Leads.andThen h (.const _)).trans (.of_eq (x := fun n => (pure a : Process σ α).andThen (f n))
    fun _ => rfl)

/-- A piece goes on with the result of its first part. -/
theorem bind (h : Ends x s a s') : Leads (fun n => x n >>= f n) s (f · a) s' :=
  (Leads.bind h (.const _)).trans (.of_eq (x := fun n => (pure a : Process σ α) >>= f n)
    fun _ => rfl)

end Ends

end Process

end FlatScope
