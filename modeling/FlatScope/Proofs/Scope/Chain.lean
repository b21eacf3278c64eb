import FlatScope.Proofs.Table
import FlatScope.Scope

/-!
# Scopes inside of scopes

What is known about the names of a function is *consistent* (`Scoping.Consistent`) if its scopes
have different numbers, each inside of one with a smaller number, and if the names of the scopes and
the bindings tell the same. Then the scopes around a scope are those around its parent and the scope
itself (`Scoping.Consistent.chain_eq`), whatever the number of scopes, and a name means the binding
of the scope itself, or else what it means in the parent (`Scoping.Consistent.lookup?_eq`).
-/

namespace FlatScope

namespace Scoping

/-- There is a scope of the given number and kind. -/
def HasScope (a : Scoping) (id : ScopeId) (kind : ScopeKind) : Prop :=
  ∃ s ∈ a.scopes, s.id = id ∧ s.kind = kind

/-- The scopes, their names, the bindings and what is noted about blocks and loops fit together. -/
structure Consistent (a : Scoping) : Prop where
  /-- No two scopes have one number. -/
  nodup : (a.scopes.map (·.id)).Nodup
  /-- A scope is inside of one with a smaller number. -/
  parent : ∀ s ∈ a.scopes, ∀ p, s.parent = some p → p < s.id ∧ ∃ t ∈ a.scopes, t.id = p
  /-- Bindings are numbered from 1 on. -/
  numbered : a.bindings.map (·.id) = List.range' 1 a.bindings.length
  /-- No scope has a name twice. -/
  distinct : ∀ s ∈ a.scopes, (s.names.map (·.1)).Nodup
  /-- A name of a scope is that of its binding. -/
  named : ∀ s ∈ a.scopes, ∀ x ∈ s.names, ∃ b ∈ a.bindings, b.id = x.2 ∧ b.name = x.1 ∧
    b.scope = s.id
  /-- A binding is among the names of its scope. -/
  listed : ∀ b ∈ a.bindings, ∃ s ∈ a.scopes, s.id = b.scope ∧ (b.name, b.id) ∈ s.names
  /-- A block that opens a scope opens that of its own number. -/
  blocks : ∀ d ∈ a.blockScopes, d.2 = d.1 ∧ a.HasScope d.1 .block
  /-- The scope of the header of a loop is that of the number of the loop. -/
  headers : ∀ l ∈ a.loops, ∀ i, l.header = some i → i = l.loop ∧ a.HasScope i .loop
  /-- The scope of the body of a loop is that of a block. -/
  bodies : ∀ l ∈ a.loops, ∀ i, l.body = some i → a.HasScope i .block
  /-- No block is the body of two loops. -/
  distinctBodies : ∀ l ∈ a.loops, ∀ k ∈ a.loops, ∀ i, l.body = some i → k.body = some i → l = k
  /-- A reference stands in a scope, and what it means is a binding. -/
  referred : ∀ r ∈ a.references, (∃ s ∈ a.scopes, s.id = r.scope) ∧
    ∀ i, r.binding = some i → ∃ b ∈ a.bindings, b.id = i
  /-- What a node declares is a binding. -/
  declared : ∀ d ∈ a.declarations, ∃ b ∈ a.bindings, b.id = d.2
  /-- A scope is inside of another one exactly if that is the scope around it. -/
  nesting : a.nesting = a.scopes.filterMap fun s => s.parent.map fun p => (p, s.id)

variable {a : Scoping}

theorem consistent_empty (root : ScopeId) : (empty root).Consistent where
  nodup := .nil
  parent := by simp [empty]
  numbered := rfl
  distinct := by simp [empty]
  named := by simp [empty]
  listed := by simp [empty]
  blocks := by simp [empty]
  headers := by simp [empty]
  bodies := by simp [empty]
  distinctBodies := by simp [empty]
  referred := by simp [empty]
  declared := by simp [empty]
  nesting := rfl

/-! ## Finding scopes and bindings -/

theorem mem_of_scope? {id : ScopeId} {s : Scope} (h : a.scope? id = some s) :
    s ∈ a.scopes ∧ s.id = id :=
  ⟨List.mem_of_find?_eq_some h, by simpa using List.find?_some h⟩

theorem mem_of_binding? {id : BindingId} {b : Binding} (h : a.binding? id = some b) :
    b ∈ a.bindings ∧ b.id = id :=
  ⟨List.mem_of_find?_eq_some h, by simpa using List.find?_some h⟩

namespace Consistent

theorem scope?_of_mem (h : a.Consistent) {s : Scope} (hs : s ∈ a.scopes) :
    a.scope? s.id = some s := Table.find?_key h.nodup hs

/-- A scope has one kind. -/
theorem kind_unique (h : a.Consistent) {id : ScopeId} {k k' : ScopeKind} (hk : a.HasScope id k)
    (hk' : a.HasScope id k') : k = k' := by
  obtain ⟨s, hs, rfl, rfl⟩ := hk
  obtain ⟨t, ht, hid, rfl⟩ := hk'
  have := h.scope?_of_mem ht
  rw [hid, h.scope?_of_mem hs] at this
  rw [Option.some.inj this]

theorem scope?_eq (h : a.Consistent) {id : ScopeId} (hid : ∃ s ∈ a.scopes, s.id = id) :
    ∃ s, a.scope? id = some s ∧ s ∈ a.scopes ∧ s.id = id := by
  obtain ⟨s, hs, rfl⟩ := hid
  exact ⟨s, h.scope?_of_mem hs, hs, rfl⟩

theorem binding?_of_mem (h : a.Consistent) {b : Binding} (hb : b ∈ a.bindings) :
    a.binding? b.id = some b :=
  Table.find?_key (by rw [h.numbered]; exact List.nodup_range') hb

/-- A binding is known by its number. -/
theorem eq_of_id (h : a.Consistent) {b c : Binding} (hb : b ∈ a.bindings) (hc : c ∈ a.bindings)
    (hid : b.id = c.id) : b = c := by
  have hbc := h.binding?_of_mem hb
  rw [hid, h.binding?_of_mem hc] at hbc
  exact (Option.some.inj hbc).symm

/-- The binding of a name of a scope. -/
theorem binding?_of_named (h : a.Consistent) {s : Scope} (hs : s ∈ a.scopes) {n : Name}
    {i : BindingId} (hi : s.names.lookup n = some i) :
    ∃ b, a.binding? i = some b ∧ b.id = i ∧ b.name = n ∧ b.scope = s.id := by
  obtain ⟨b, hb, rfl, hbn, hbs⟩ := h.named s hs (n, i) (Table.mem_of_lookup hi)
  exact ⟨b, h.binding?_of_mem hb, rfl, hbn, hbs⟩

/-- Bindings of one name in one scope are the same. -/
theorem eq_of_name (h : a.Consistent) {b c : Binding} (hb : b ∈ a.bindings) (hc : c ∈ a.bindings)
    (hname : b.name = c.name) (hscope : b.scope = c.scope) : b = c := by
  obtain ⟨s, hs, hsb, hbs⟩ := h.listed b hb
  obtain ⟨t, ht, htc, hct⟩ := h.listed c hc
  have hst : s = t := by
    have := h.scope?_of_mem hs
    rw [hsb, hscope, ← htc, h.scope?_of_mem ht] at this
    exact (Option.some.inj this).symm
  subst hst
  have hid : b.id = c.id := by
    have hl := Table.lookup_of_mem (h.distinct s hs) hbs
    rw [hname, Table.lookup_of_mem (h.distinct s hs) hct] at hl
    exact (Option.some.inj hl).symm
  exact h.eq_of_id hb hc hid

/-! ## The scopes around a scope -/

/-- The number of scopes whose numbers are at most that of the given one. -/
private def height (a : Scoping) (id : ScopeId) : Nat := (a.scopes.filter (·.id ≤ id)).length

private theorem height_lt {s : Scope} (hs : s ∈ a.scopes) {p : ScopeId} (hp : p < s.id) :
    height a p < height a s.id := by
  unfold height
  have hfilter : a.scopes.filter (·.id ≤ p) =
      (a.scopes.filter (·.id ≤ s.id)).filter (·.id ≤ p) := by
    rw [List.filter_filter]
    refine List.filter_congr fun t _ => ?_
    have : t.id ≤ p → t.id ≤ s.id := fun ht => Nat.le_of_lt (Nat.lt_of_le_of_lt ht hp)
    simpa using this
  rw [hfilter, List.length_filter_lt_length_iff_exists]
  exact ⟨s, List.mem_filter.2 ⟨hs, by simp⟩, by simpa using hp⟩

private theorem height_le (id : ScopeId) : height a id ≤ a.scopes.length := List.length_filter_le ..

/-- As many steps as there are scopes reach all scopes around a scope. -/
private theorem chainFrom_stable (h : a.Consistent) {id : ScopeId} :
    ∀ {fuel fuel' : Nat}, height a id ≤ fuel → height a id ≤ fuel' →
      a.chainFrom fuel id = a.chainFrom fuel' id := by
  induction id using Nat.strongRecOn with
  | ind id ih =>
    intro fuel fuel' hf hf'
    cases hs : a.scope? id with
    | none => cases fuel <;> cases fuel' <;> simp [chainFrom, hs]
    | some s =>
      obtain ⟨hmem, rfl⟩ := mem_of_scope? hs
      have hpos : 0 < height a s.id :=
        List.length_pos_of_mem (List.mem_filter.2 ⟨hmem, by simp⟩)
      obtain ⟨fuel, rfl⟩ := Nat.exists_eq_succ_of_ne_zero (show fuel ≠ 0 by omega)
      obtain ⟨fuel', rfl⟩ := Nat.exists_eq_succ_of_ne_zero (show fuel' ≠ 0 by omega)
      simp only [chainFrom, hs]
      cases hp : s.parent with
      | none => rfl
      | some p =>
        obtain ⟨hlt, -⟩ := h.parent s hmem p hp
        have := height_lt hmem hlt
        simp only [List.cons.injEq, true_and]
        exact ih p hlt (by omega) (by omega)

/-- The scopes around a scope are the scope itself and those around its parent. -/
theorem chain_eq (h : a.Consistent) {id : ScopeId} {s : Scope} (hs : a.scope? id = some s) :
    a.chain id = s :: (match s.parent with
      | none => []
      | some p => a.chain p) := by
  obtain ⟨hmem, rfl⟩ := mem_of_scope? hs
  have hpos : 0 < a.scopes.length := List.length_pos_of_mem hmem
  unfold chain
  obtain ⟨fuel, hfuel⟩ := Nat.exists_eq_succ_of_ne_zero (show a.scopes.length ≠ 0 by omega)
  have hstep : a.chainFrom (fuel + 1) s.id = (match s.parent with
      | none => [s]
      | some p => s :: a.chainFrom fuel p) := by
    cases hp : s.parent <;> simp only [chainFrom, hs, hp]
  rw [hfuel, hstep]
  cases hp : s.parent with
  | none => rfl
  | some p =>
    obtain ⟨hlt, -⟩ := h.parent s hmem p hp
    have := height_lt hmem hlt
    have := height_le (a := a) s.id
    exact congrArg (s :: ·) (chainFrom_stable h (by omega) (by omega))

/-- A name means the binding of the scope itself, or else what it means in the parent. -/
theorem lookup?_eq (h : a.Consistent) {id : ScopeId} {s : Scope} (hs : a.scope? id = some s)
    (n : Name) : a.lookup? id n = (match s.names.lookup n with
      | some i => a.binding? i
      | none => s.parent.bind (a.lookup? · n)) := by
  unfold lookup?
  rw [h.chain_eq hs, List.findSome?_cons]
  cases s.names.lookup n with
  | some i => rfl
  | none =>
    cases s.parent with
    | none => rfl
    | some p => rfl

/-- A name of a scope means its binding there. -/
theorem lookup?_own (h : a.Consistent) {b : Binding} (hb : b ∈ a.bindings) :
    a.lookup? b.scope b.name = some b := by
  obtain ⟨s, hs, hsb, hmem⟩ := h.listed b hb
  rw [h.lookup?_eq (hsb ▸ h.scope?_of_mem hs), Table.lookup_of_mem (h.distinct s hs) hmem]
  exact h.binding?_of_mem hb

/-- What a name means is a binding of that name, in a scope with no larger number. -/
theorem of_lookup? (h : a.Consistent) {id : ScopeId} {n : Name} {b : Binding}
    (hb : a.lookup? id n = some b) : b ∈ a.bindings ∧ b.name = n ∧ b.scope ≤ id := by
  induction id using Nat.strongRecOn with
  | ind id ih =>
    cases hs : a.scope? id with
    | none =>
      have : a.chain id = [] := by
        unfold chain
        cases a.scopes.length <;> simp [chainFrom, hs]
      simp [lookup?, this] at hb
    | some s =>
      obtain ⟨hmem, rfl⟩ := mem_of_scope? hs
      rw [h.lookup?_eq hs] at hb
      cases hi : s.names.lookup n with
      | some i =>
        obtain ⟨c, hc, -, hcn, hcs⟩ := h.binding?_of_named hmem hi
        rw [hi] at hb
        obtain rfl : c = b := by simpa [hc] using hb
        exact ⟨(mem_of_binding? hc).1, hcn, Nat.le_of_eq hcs⟩
      | none =>
        rw [hi] at hb
        obtain ⟨p, hp, hb⟩ := Option.bind_eq_some_iff.1 hb
        obtain ⟨hlt, -⟩ := h.parent s hmem p hp
        obtain ⟨hbm, hbn, hbs⟩ := ih p hlt hb
        exact ⟨hbm, hbn, Nat.le_trans hbs (Nat.le_of_lt hlt)⟩

/-! ## Noting references and loops -/

/-- A use of a name in a scope that is there may be noted. -/
theorem addReference (h : a.Consistent) {r : Reference} (hsc : ∃ s ∈ a.scopes, s.id = r.scope)
    (hb : ∀ i, r.binding = some i → ∃ b ∈ a.bindings, b.id = i) : (a.addReference r).Consistent :=
  { h with
    referred := fun x hx => (List.mem_append.1 hx).elim (h.referred x) fun hx => by
      obtain rfl := List.mem_singleton.1 hx
      exact ⟨hsc, hb⟩ }

/-- The scopes of a loop may be noted, if its body is not that of another loop. -/
theorem addLoop (h : a.Consistent) {l : LoopScopes}
    (hheader : ∀ i, l.header = some i → i = l.loop ∧ a.HasScope i .loop)
    (hbody : ∀ i, l.body = some i → a.HasScope i .block ∧ ∀ k ∈ a.loops, k.body ≠ some i) :
    (a.addLoop l).Consistent :=
  { h with
    headers := fun k hk => (List.mem_append.1 hk).elim (h.headers k) fun hk => by
      obtain rfl := List.mem_singleton.1 hk
      exact hheader
    bodies := fun k hk i hi => (List.mem_append.1 hk).elim (h.bodies k · i hi) fun hk => by
      obtain rfl := List.mem_singleton.1 hk
      exact (hbody i hi).1
    distinctBodies := by
      intro k hk j hj i hki hji
      rcases List.mem_append.1 hk with hk | hk <;> rcases List.mem_append.1 hj with hj | hj
      · exact h.distinctBodies k hk j hj i hki hji
      · exact absurd hki ((hbody i ((List.mem_singleton.1 hj) ▸ hji)).2 k hk)
      · exact absurd hji ((hbody i ((List.mem_singleton.1 hk) ▸ hki)).2 j hj)
      · rw [List.mem_singleton.1 hk, List.mem_singleton.1 hj] }

end Consistent

end Scoping

end FlatScope
