import FlatScope.Proofs.Analysis

/-!
# Names inside of scopes

What a name means in a scope it means because the scope declares it, or because it means that around
the scope (`Scoping.Consistent.of_lookup?_inner`).
-/

namespace FlatScope.Scoping

/-- A name in a scope means a binding of the scope, or what it means in the parent. -/
theorem Consistent.of_lookup?_inner {a : Scoping} (ha : a.Consistent) {id sc : ScopeId}
    {kind : ScopeKind} {names : List Name → Prop} (ho : a.Opens id kind (some sc) names) {n : Name}
    {d : Binding} (hd : a.lookup? id n = some d) : d.scope = id ∨ a.lookup? sc n = some d := by
  obtain ⟨s, hs, -, hparent, -⟩ := ho
  obtain ⟨hsm, hsid⟩ := mem_of_scope? hs
  rw [ha.lookup?_eq hs] at hd
  cases hi : s.names.lookup n with
  | some i =>
    obtain ⟨e, he, -, -, hes⟩ := ha.binding?_of_named hsm hi
    rw [hi] at hd
    obtain rfl : e = d := Option.some.inj (he.symm.trans hd)
    exact .inl (hes.trans hsid)
  | none =>
    rw [hi, hparent] at hd
    exact .inr hd

/-- A name that means nothing in a scope means nothing in the scope around it. -/
theorem Consistent.lookup?_outer {a : Scoping} (ha : a.Consistent) {id sc : ScopeId}
    {kind : ScopeKind}
    {names : List Name → Prop} (ho : a.Opens id kind (some sc) names) {n : Name}
    (h : a.lookup? id n = none) : a.lookup? sc n = none := by
  obtain ⟨s, hs, -, hparent, -⟩ := ho
  rw [ha.lookup?_eq hs, hparent] at h
  cases hi : s.names.lookup n with
  | none => rwa [hi] at h
  | some i =>
    obtain ⟨e, he, -⟩ := ha.binding?_of_named (mem_of_scope? hs).1 hi
    rw [hi] at h
    exact absurd (he.symm.trans h) (by simp)

/-- What is known in a scope that is in no other one is declared by the scope. -/
theorem Consistent.of_lookup?_outermost {a : Scoping} (ha : a.Consistent) {id : ScopeId}
    {kind : ScopeKind} {names : List Name → Prop} (ho : a.Opens id kind none names) {n : Name}
    {d : Binding} (hd : a.lookup? id n = some d) : d.scope = id := by
  obtain ⟨s, hs, -, hparent, -⟩ := ho
  obtain ⟨hsm, hsid⟩ := mem_of_scope? hs
  rw [ha.lookup?_eq hs, hparent] at hd
  cases hi : s.names.lookup n with
  | none => simp [hi] at hd
  | some i =>
    obtain ⟨e, he, -, -, hes⟩ := ha.binding?_of_named hsm hi
    rw [hi] at hd
    obtain rfl : e = d := Option.some.inj (he.symm.trans hd)
    exact hes.trans hsid

variable {a : Scoping} {id : ScopeId} {kind : ScopeKind} {parent : Option ScopeId}
  {names : List Name → Prop} {x : Name}

/-- A name that a scope does not declare means what it means around the scope. -/
theorem lookup?_around (ha : a.Consistent) (ho : a.Opens id kind parent names)
    (hx : ¬ ∃ b, a.lookup? id x = some b ∧ b.scope = id) :
    a.lookup? id x = parent.bind (a.lookup? · x) := by
  obtain ⟨s, hs, -, rfl, -⟩ := ho
  rw [ha.lookup?_eq hs]
  cases hi : s.names.lookup x with
  | none => rfl
  | some i =>
    obtain ⟨hsm, hsid⟩ := mem_of_scope? hs
    obtain ⟨b, hb, -, hbn, hbs⟩ := ha.binding?_of_named hsm hi
    refine absurd ⟨b, ?_, hbs.trans hsid⟩ hx
    rw [ha.lookup?_eq hs, hi]
    exact hb

/-- A scope declares its names. -/
theorem mem_names_iff (ha : a.Consistent) {s : Scope} (hs : a.scope? id = some s) :
    x ∈ s.names.map (·.1) ↔ ∃ b, a.lookup? id x = some b ∧ b.scope = id := by
  obtain ⟨hsm, hsid⟩ := mem_of_scope? hs
  constructor
  · intro hx
    obtain ⟨i, hi⟩ := Table.exists_lookup.2 hx
    obtain ⟨b, hb, -, -, hbs⟩ := ha.binding?_of_named hsm hi
    refine ⟨b, ?_, hbs.trans hsid⟩
    rw [ha.lookup?_eq hs, hi]
    exact hb
  · rintro ⟨b, hb, hbs⟩
    obtain ⟨hbm, hbn, -⟩ := ha.of_lookup? hb
    obtain ⟨t, ht, htid, hmem⟩ := ha.listed b hbm
    have := ha.scope?_of_mem ht
    rw [htid, hbs, hs] at this
    rw [Option.some.inj this, ← hbn]
    exact List.mem_map_of_mem (f := (·.1)) hmem

end FlatScope.Scoping
