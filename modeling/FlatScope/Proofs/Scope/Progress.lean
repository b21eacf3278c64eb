import FlatScope.Proofs.Scope.Opening

/-!
# Pieces of a resolution

To resolve a piece of code whose nodes have the numbers from `n` up to `m` adds facts about just
these nodes, and it is the first one to do so (`Scoping.Clear`), except that the names declared in
it may have been declared already. So what it finds out is found by every lookup, also after all of
the code that follows (`Scoping.Achieves`), and what two pieces in a row achieve is achieved
together (`Scoping.Achieves.seq`).
-/

namespace FlatScope

/-- A number from `n` on and below `m`. -/
def Between (n m i : Nat) : Prop := n ≤ i ∧ i < m

theorem Between.widen {n m p q i : Nat} (h : Between n m i) (hp : p ≤ n) (hq : m ≤ q) :
    Between p q i := ⟨Nat.le_trans hp h.1, Nat.lt_of_lt_of_le h.2 hq⟩

namespace Scoping

/-! ## Where a piece stands -/

/-- The scope is that of the function `fs`, or one inside of it and of no other function. -/
inductive InFunction (a : Scoping) (fs : ScopeId) : ScopeId → Prop
  | root {s : Scope} : a.scope? fs = some s → s.kind = .function → InFunction a fs fs
  | inner {sc p : ScopeId} {s : Scope} : a.scope? sc = some s → s.kind ≠ .function →
    s.parent = some p → InFunction a fs p → InFunction a fs sc

namespace InFunction

variable {a b : Scoping} {fs sc : ScopeId} {P : NodeId → Prop}

theorem known (h : a.InFunction fs sc) : ∃ s, a.scope? sc = some s := by
  cases h with
  | root hs => exact ⟨_, hs⟩
  | inner hs => exact ⟨_, hs⟩

theorem grows (h : a.InFunction fs sc) (hab : Grows P a b) : b.InFunction fs sc := by
  induction h with
  | root hs hk => exact .root (hab.scope? hs) hk
  | inner hs hk hp _ ih => exact .inner (hab.scope? hs) hk hp ih

/-- Below the function a name is first looked up in the scope itself. -/
theorem bindingBelowFunction?_eq (ha : a.Consistent) {p : ScopeId} {s : Scope}
    (hs : a.scope? sc = some s) (hk : s.kind ≠ .function) (hp : s.parent = some p) (n : Name) :
    a.bindingBelowFunction? sc n = (match s.names.lookup n with
      | some i => a.binding? i
      | none => a.bindingBelowFunction? p n) := by
  unfold bindingBelowFunction?
  rw [ha.chain_eq hs, List.takeWhile_cons_of_pos (by simpa using hk), List.findSome?_cons, hp]
  cases s.names.lookup n <;> rfl

/-- A name that no scope below the function declares means what it means in the function. -/
theorem lookup?_of_below (h : a.InFunction fs sc) (ha : a.Consistent) {n : Name}
    (hn : a.bindingBelowFunction? sc n = none) : a.lookup? sc n = a.lookup? fs n := by
  induction h with
  | root => rfl
  | @inner sc p s hs hk hp hin ih =>
    obtain ⟨hmem, -⟩ := mem_of_scope? hs
    rw [bindingBelowFunction?_eq ha hs hk hp] at hn
    rw [ha.lookup?_eq hs]
    cases hi : s.names.lookup n with
    | some i =>
      obtain ⟨d, hd, -⟩ := ha.binding?_of_named hmem hi
      rw [hi] at hn
      cases hd.symm.trans hn
    | none =>
      rw [hi] at hn
      rw [hp]
      exact ih hn

end InFunction

/-- Code of the numbers from `n` on stands in the scope `sc` of the function `fs`. -/
structure Stands (a : Scoping) (fs sc : ScopeId) (n : Nat) : Prop where
  inFunction : a.InFunction fs sc
  lt : sc < n

theorem Stands.grows {a b : Scoping} {fs sc n n' : Nat} {P : NodeId → Prop} (h : a.Stands fs sc n)
    (hab : Grows P a b) (hn : n ≤ n') : b.Stands fs sc n' :=
  ⟨h.inFunction.grows hab, Nat.lt_of_lt_of_le h.lt hn⟩

/-! ## What is not known yet -/

/-- Nothing is known about the nodes from `n` up to `m`, except that those of `own` declare
    something. -/
structure Clear (a : Scoping) (n m : Nat) (own : NodeId → Prop) : Prop where
  scopes : ∀ s ∈ a.scopes, ¬ Between n m s.id
  references : ∀ r ∈ a.references, ¬ Between n m r.node
  blockScopes : ∀ d ∈ a.blockScopes, ¬ Between n m d.1
  loops : ∀ l ∈ a.loops, ¬ Between n m l.loop
  bodies : ∀ l ∈ a.loops, ∀ i, l.body = some i → ¬ Between n m i
  declarations : ∀ d ∈ a.declarations, Between n m d.1 → own d.1

namespace Clear

variable {a b : Scoping} {n m k l : Nat} {own q : NodeId → Prop}

theorem mono (h : a.Clear n m own) (hn : n ≤ k) (hm : l ≤ m)
    (hown : ∀ i, Between k l i → own i → q i) : a.Clear k l q := by
  have hsub : ∀ {i}, Between k l i → Between n m i := fun hi =>
    ⟨Nat.le_trans hn hi.1, Nat.lt_of_lt_of_le hi.2 hm⟩
  exact ⟨fun s hs hi => h.scopes s hs (hsub hi), fun r hr hi => h.references r hr (hsub hi),
    fun d hd hi => h.blockScopes d hd (hsub hi), fun l hl hi => h.loops l hl (hsub hi),
    fun l hl i hli hi => h.bodies l hl i hli (hsub hi),
    fun d hd hi => hown _ hi (h.declarations d hd (hsub hi))⟩

/-- What is found out about other nodes does not matter. -/
theorem grows {P : NodeId → Prop} (h : a.Clear n m own) (hab : Grows P a b)
    (hP : ∀ i, P i → ¬ Between n m i) : b.Clear n m own where
  scopes s hs := (hab.scopes.mem hs).elim (h.scopes s) (hP _)
  references r hr := (hab.references.mem hr).elim (h.references r) (hP _)
  blockScopes d hd := (hab.blockScopes.mem hd).elim (h.blockScopes d) (hP _)
  loops l hl := (hab.loops.mem hl).elim (h.loops l) fun hl => hP _ hl.1
  bodies l hl i hi := (hab.loops.mem hl).elim (h.bodies l · i hi) fun hl => hP _ (hl.2 i hi)
  declarations d hd hi := (hab.declarations.mem hd).elim (h.declarations d · hi)
    fun hd => absurd hi (hP _ hd)

end Clear

/-- Opening a scope and declaring its names, that is the nodes of `own`. -/
theorem Opening.clear {a b : Scoping} {id : ScopeId} {kind : ScopeKind} {parent : Option ScopeId}
    {keys : List Name} {n m : Nat} {own : NodeId → Prop} (h : a.Opening id kind parent keys b)
    (ha : a.Clear n m own) (hid : ¬ Between n m id)
    (hd : Adds (fun d => own d.1) a.declarations b.declarations) : b.Clear n m own where
  scopes s hs := by
    obtain ⟨names, -, hscopes⟩ := h.scopes
    rw [hscopes] at hs
    rcases List.mem_append.1 hs with hs | hs
    · exact ha.scopes s hs
    · rw [List.mem_singleton] at hs
      subst hs
      exact hid
  references := by rw [h.references]; exact ha.references
  blockScopes := by rw [h.blockScopes]; exact ha.blockScopes
  loops := by rw [h.loops]; exact ha.loops
  bodies := by rw [h.loops]; exact ha.bodies
  declarations d hdm hi := (hd.mem hdm).elim (ha.declarations d · hi) fun h => h

/-! ## What a piece achieves -/

/-- From `a` to `b` facts about the nodes from `n` up to `m` are found out, and whatever is found
    out about other nodes later, `φ` holds. -/
structure Achieves (n m : Nat) (a b : Scoping) (φ : Scoping → Prop) : Prop where
  grows : Grows (Between n m) a b
  consistent : b.Consistent
  lasts : ∀ c, Grows (fun i => ¬ Between n m i) b c → c.Consistent → φ c

namespace Achieves

variable {a b c : Scoping} {n m k : Nat} {φ ψ : Scoping → Prop}

theorem nothing (ha : a.Consistent) (hφ : ∀ c, φ c) : Achieves n m a a φ :=
  ⟨.refl a, ha, fun c _ _ => hφ c⟩

theorem imp (h : Achieves n m a b φ) (hφ : ∀ c, φ c → ψ c) : Achieves n m a b ψ :=
  ⟨h.grows, h.consistent, fun c hbc hc => hφ c (h.lasts c hbc hc)⟩

/-- A piece of a larger one. -/
theorem widen {p q : Nat} (h : Achieves n m a b φ) (hn : p ≤ n) (hm : m ≤ q) :
    Achieves p q a b φ := by
  have hsub : ∀ i, Between n m i → Between p q i := fun i hi =>
    ⟨Nat.le_trans hn hi.1, Nat.lt_of_lt_of_le hi.2 hm⟩
  exact ⟨h.grows.mono hsub, h.consistent,
    fun c hbc hc => h.lasts c (hbc.mono fun i hi hi' => hi (hsub i hi')) hc⟩

/-- Two pieces in a row. -/
theorem seq (h : Achieves n k a b φ) (h' : Achieves k m b c ψ) (hnk : n ≤ k) (hkm : k ≤ m) :
    Achieves n m a c fun d => φ d ∧ ψ d := by
  have hleft : ∀ i, Between n k i → Between n m i := fun i hi => ⟨hi.1, Nat.lt_of_lt_of_le hi.2 hkm⟩
  have hright : ∀ i, Between k m i → Between n m i := fun i hi => ⟨Nat.le_trans hnk hi.1, hi.2⟩
  refine ⟨(h.grows.mono hleft).trans (h'.grows.mono hright), h'.consistent,
    fun d hcd hd => ⟨?_, ?_⟩⟩
  · have hbc : Grows (fun i => ¬ Between n k i) b c :=
      h'.grows.mono fun i hi hi' => Nat.not_lt.2 hi.1 hi'.2
    exact h.lasts d (hbc.trans (hcd.mono fun i hi hi' => hi (hleft i hi'))) hd
  · exact h'.lasts d (hcd.mono fun i hi hi' => hi (hright i hi')) hd

/-- Two pieces in the order opposite to that of their numbers. -/
theorem seqBack (h : Achieves k m a b φ) (h' : Achieves n k b c ψ) (hnk : n ≤ k) (hkm : k ≤ m) :
    Achieves n m a c fun d => φ d ∧ ψ d := by
  have hleft : ∀ i, Between n k i → Between n m i := fun i hi => ⟨hi.1, Nat.lt_of_lt_of_le hi.2 hkm⟩
  have hright : ∀ i, Between k m i → Between n m i := fun i hi => ⟨Nat.le_trans hnk hi.1, hi.2⟩
  refine ⟨(h.grows.mono hright).trans (h'.grows.mono hleft), h'.consistent,
    fun d hcd hd => ⟨?_, ?_⟩⟩
  · have hbc : Grows (fun i => ¬ Between k m i) b c :=
      h'.grows.mono fun i hi hi' => Nat.not_lt.2 hi'.1 hi.2
    exact h.lasts d (hbc.trans (hcd.mono fun i hi hi' => hi (hright i hi'))) hd
  · exact h'.lasts d (hcd.mono fun i hi hi' => hi (hleft i hi')) hd

/-- A fact that holds at some point and stays, and a piece after it. -/
theorem after (hab : Grows (Between n m) a b) (h : Achieves k m b c φ) (hnk : n ≤ k)
    (hψ : ∀ d, Grows (fun i => Between k m i ∨ ¬ Between n m i) b d → d.Consistent → ψ d) :
    Achieves n m a c fun d => ψ d ∧ φ d := by
  have hright : ∀ i, Between k m i → Between n m i := fun i hi => ⟨Nat.le_trans hnk hi.1, hi.2⟩
  refine ⟨hab.trans (h.grows.mono hright), h.consistent, fun d hcd hd => ⟨?_, ?_⟩⟩
  · exact hψ d ((h.grows.mono fun _ => .inl).trans (hcd.mono fun _ => .inr)) hd
  · exact h.lasts d (hcd.mono fun i hi hi' => hi (hright i hi')) hd

end Achieves

/-! ## What a piece starts from -/

/-- What is known where a piece begins that stands in the scope `sc` of the function `fs`. -/
structure Ready (a : Scoping) (fs sc : ScopeId) (n m : Nat) (own : NodeId → Prop) : Prop where
  consistent : a.Consistent
  stands : a.Stands fs sc n
  clear : a.Clear n m own

namespace Ready

variable {a b : Scoping} {fs sc n m k : Nat} {own q : NodeId → Prop} {φ : Scoping → Prop}

theorem known (h : a.Ready fs sc n m own) : ∃ s, a.scope? sc = some s := h.stands.inFunction.known

/-- A piece at the beginning of a larger one. -/
theorem left (h : a.Ready fs sc n m own) (hk : k ≤ m)
    (hown : ∀ i, Between n k i → own i → q i) : a.Ready fs sc n k q :=
  ⟨h.consistent, h.stands, h.clear.mono (Nat.le_refl _) hk hown⟩

/-- The piece behind a node. -/
theorem tail (h : a.Ready fs sc n m own) (hown : ∀ i, Between (n + 1) m i → own i → q i) :
    a.Ready fs sc (n + 1) m q :=
  ⟨h.consistent, ⟨h.stands.inFunction, Nat.lt_succ_of_lt h.stands.lt⟩,
    h.clear.mono (Nat.le_succ n) (Nat.le_refl _) hown⟩

/-- The piece behind another one. -/
theorem right (h : a.Ready fs sc n m own) (hab : Achieves n k a b φ) (hk : n ≤ k)
    (hown : ∀ i, Between k m i → own i → q i) : b.Ready fs sc k m q :=
  ⟨hab.consistent, h.stands.grows hab.grows hk,
    (h.clear.mono hk (Nat.le_refl _) hown).grows hab.grows fun _ hi hi' =>
      Nat.not_lt.2 hi'.1 hi.2⟩

end Ready

end Scoping

end FlatScope
