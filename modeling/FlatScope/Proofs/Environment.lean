import FlatScope.Proofs.Table
import FlatScope.Value.Environment

/-!
# Reading what was written

What is written to a variable is read from it, and what is read from a variable of another name
stays the same (`Store.get_write_ne`).
-/

namespace FlatScope

namespace Frame

variable {f : Frame} {x y : Name} {v : Value}

/-- The variable that was written has the new content. -/
theorem find?_update_self {c : Cell} (h : f.find? x = some c) :
    (f.update x v).find? x = some { c with content := some v } := by
  obtain ⟨p, cells⟩ := f
  simp only [find?, update] at h ⊢
  induction cells with
  | nil => cases h
  | cons d cells ih =>
    obtain ⟨y, d⟩ := d
    by_cases hy : x = y
    · subst hy
      obtain rfl : d = c := by simpa using h
      simp
    · rw [List.lookup_cons, beq_eq_false_iff_ne.2 hy] at h
      rw [List.map_cons, if_neg (Ne.symm hy), List.lookup_cons, beq_eq_false_iff_ne.2 hy]
      exact ih h

/-- The other variables of the frame are as they were. -/
theorem find?_update_ne (h : y ≠ x) : (f.update x v).find? y = f.find? y := by
  obtain ⟨p, cells⟩ := f
  simp only [find?, update]
  induction cells with
  | nil => rfl
  | cons d cells ih =>
    obtain ⟨z, d⟩ := d
    by_cases hz : z = x
    · subst hz
      rw [List.map_cons, if_pos rfl, List.lookup_cons, List.lookup_cons,
        beq_eq_false_iff_ne.2 h]
      exact ih
    · rw [List.map_cons, if_neg hz, List.lookup_cons, List.lookup_cons]
      cases y == z with
      | true => rfl
      | false => exact ih

/-- The cell that was added is found. -/
theorem find?_add_self {c : Cell} (h : f.find? x = none) : (f.add x c).find? x = some c := by
  simp only [find?, add] at h ⊢
  rw [Table.lookup_append_of_none h]
  simp

/-- The other cells of the frame are found as before. -/
theorem find?_add_ne {c : Cell} (h : y ≠ x) : (f.add x c).find? y = f.find? y := by
  simp only [find?, add]
  cases hy : f.cells.lookup y with
  | some d => exact Table.lookup_append_of_some hy
  | none =>
    rw [Table.lookup_append_of_none hy, List.lookup_cons, beq_eq_false_iff_ne.2 h]
    rfl

@[simp] theorem update_parent : (f.update x v).parent = f.parent := rfl

/-- An update adds no variable. -/
theorem find?_update_none (h : f.find? x = none) : (f.update x v).find? x = none := by
  obtain ⟨p, cells⟩ := f
  simp only [find?, update] at h ⊢
  rw [Table.lookup_eq_none] at h ⊢
  intro hm
  obtain ⟨d, hd, hdx⟩ := List.mem_map.1 hm
  obtain ⟨e, he, rfl⟩ := List.mem_map.1 hd
  refine h (List.mem_map.2 ⟨e, he, ?_⟩)
  split at hdx <;> exact hdx

theorem has_update : (f.update x v).has y = f.has y := by
  by_cases hy : y = x
  · subst hy
    cases h : f.find? y with
    | some c => rw [has, has, find?_update_self h, h]; rfl
    | none => rw [has, has, find?_update_none h, h]
  · rw [has, has, find?_update_ne hy]

end Frame

namespace Store

variable {s : Store} {x y : Name} {v : Value}

/-- Writing to a variable does not change where variables of another name are found. -/
theorem findFrom_update_ne {frames : Array Frame} {owner : FrameId} (h : y ≠ x) (fuel : Nat)
    (id : FrameId) : findFrom (frames.modify owner fun f => f.update x v) y fuel id =
      findFrom frames y fuel id := by
  induction fuel generalizing id with
  | zero => rfl
  | succ fuel ih =>
    rw [findFrom, findFrom, Array.getElem?_modify]
    cases frames[id]? with
    | none => simp
    | some f =>
      by_cases ho : owner = id
      · simp only [if_pos ho, Option.map_some, Frame.find?_update_ne h, Frame.update_parent, ih]
      · simp only [if_neg ho, ih]

/-- A write to one name changes no read of another, from any frame. -/
theorem get_write_ne {owner env : FrameId} (h : y ≠ x) :
    (s.write owner x v).get env y = s.get env y := by
  rw [Store.get, Store.get, Store.find?, Store.find?, Store.write, findFrom_update_ne h]

end Store

end FlatScope
