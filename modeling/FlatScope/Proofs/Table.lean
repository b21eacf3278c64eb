/-!
# Tables

A *table* is a list of pairs, in which the first pair with a key counts. Names are looked up in
tables, by the scopes of a function as well as by the frames of a running program.
-/

namespace FlatScope.Table

variable {α β : Type} [BEq α] [LawfulBEq α] {l k : List (α × β)} {x : α} {y : β}

/-- What is looked up is in the table. -/
theorem mem_of_lookup (h : l.lookup x = some y) : (x, y) ∈ l := by
  obtain ⟨l₁, l₂, rfl, -⟩ := List.lookup_eq_some_iff.1 h
  simp

/-- Nothing is found exactly for what is not a key. -/
theorem lookup_eq_none : l.lookup x = none ↔ x ∉ l.map (·.1) := by
  rw [List.lookup_eq_none_iff, List.mem_map]
  constructor
  · rintro h ⟨p, hp, rfl⟩
    simpa using h p hp
  · intro h p hp
    simpa using fun he : x = p.1 => h ⟨p, hp, he.symm⟩

theorem exists_lookup : (∃ y, l.lookup x = some y) ↔ x ∈ l.map (·.1) := by
  constructor
  · rintro ⟨y, hy⟩
    exact List.mem_map.2 ⟨(x, y), mem_of_lookup hy, rfl⟩
  · intro hx
    cases h : l.lookup x with
    | none => exact absurd hx (lookup_eq_none.1 h)
    | some y => exact ⟨y, rfl⟩

/-- A table with distinct keys holds exactly its members. -/
theorem lookup_of_mem (hl : (l.map (·.1)).Nodup) (h : (x, y) ∈ l) : l.lookup x = some y := by
  induction l with
  | nil => cases h
  | cons p l ih =>
    rw [List.map_cons, List.nodup_cons] at hl
    rcases List.mem_cons.1 h with rfl | h
    · simp
    · have hne : x ≠ p.1 := fun he => hl.1 (he ▸ List.mem_map_of_mem (f := (·.1)) h)
      rw [List.lookup_cons, beq_false_of_ne hne]
      exact ih hl.2 h

omit [LawfulBEq α] in
/-- What the first table answers, both together answer. -/
theorem lookup_append_of_some (h : l.lookup x = some y) : (l ++ k).lookup x = some y := by
  rw [List.lookup_append, h, Option.some_or]

omit [LawfulBEq α] in
/-- Where the first table is silent, the second answers. -/
theorem lookup_append_of_none (h : l.lookup x = none) : (l ++ k).lookup x = k.lookup x := by
  rw [List.lookup_append, h, Option.none_or]

/-- The first of a list with distinct keys that has the key of a member is that member. -/
theorem find?_key {γ κ : Type} [DecidableEq κ] {l : List γ} {f : γ → κ}
    (h : (l.map f).Nodup) {z : γ} (hz : z ∈ l) : l.find? (fun y => f y = f z) = some z := by
  induction l with
  | nil => cases hz
  | cons y l ih =>
    rw [List.map_cons, List.nodup_cons] at h
    rcases List.mem_cons.1 hz with rfl | hz
    · simp
    · have hne : f y ≠ f z := fun he => h.1 (he ▸ List.mem_map_of_mem hz)
      rw [List.find?_cons_of_neg (by simpa using hne), ih h.2 hz]

end FlatScope.Table
