import FlatScope.Eval
import FlatScope.Proofs.Environment
import FlatScope.Proofs.Flat
import FlatScope.Proofs.Own

/-!
# How stores grow

While a program runs, its frames keep their variables and the frames around them, and its closures
stay as they are (`Store.Extends`). So a name that is used in a frame always means the variable of
the same frame (`Store.Finds`). In a sound store the frame around a frame is an older one, and the
frames and the code of all closures are there (`Store.Sound`).
-/

namespace FlatScope

namespace Store

/-- A name used in a frame means the variable of another frame, or of the same one. -/
inductive Finds (s : Store) (x : Name) : FrameId → FrameId → Prop
  | here {f : FrameId} {fr : Frame} (hf : s.frames[f]? = some fr)
    (hx : fr.has x = true) : Finds s x f f
  | up {e f p : FrameId} {fr : Frame} (he : s.frames[e]? = some fr) (hx : fr.has x = false)
    (hp : fr.parent = some p) (h : Finds s x p f) : Finds s x e f

/-- A variable of a frame. -/
def cell? (s : Store) (f : FrameId) (x : Name) : Option Cell := s.frames[f]?.bind (·.find? x)

/-- What a variable of a frame holds. -/
def content? (s : Store) (f : FrameId) (x : Name) : Option Value := (s.cell? f x).bind (·.content)

/-- The frame around a frame is older than the frame. -/
structure Nested (s : Store) : Prop where
  global : 0 < s.frames.size
  parents : ∀ {i p : FrameId} {fr : Frame}, s.frames[i]? = some fr → fr.parent = some p → p < i

/-- The frame around a frame is older than the frame, and every closure has a frame and flat
    code. -/
structure Sound (s : Store) : Prop where
  global : 0 < s.frames.size
  parents : ∀ {i p : FrameId} {fr : Frame}, s.frames[i]? = some fr → fr.parent = some p → p < i
  closures : ∀ {i : Nat} {c : Closure}, s.closures[i]? = some c →
    c.frame < s.frames.size ∧ c.body.IsFlat

/-- A later store: the frames have the same variables and stand in the same frames, and the closures
    are the same. -/
structure Extends (s s' : Store) : Prop where
  frames : ∀ {i : FrameId} {fr : Frame}, s.frames[i]? = some fr →
    ∃ fr', s'.frames[i]? = some fr' ∧ fr'.parent = fr.parent ∧ ∀ x, fr'.has x = fr.has x
  closures : ∀ {i : Nat} {c : Closure}, s.closures[i]? = some c → s'.closures[i]? = some c

variable {s s' s'' : Store} {e f : FrameId} {x y : Name}

theorem Sound.nested (h : s.Sound) : s.Nested := ⟨h.global, h.parents⟩

theorem exists_frame (h : f < s.frames.size) : ∃ fr, s.frames[f]? = some fr :=
  ⟨s.frames[f], Array.getElem?_eq_getElem h⟩

theorem lt_of_frame {fr : Frame} (h : s.frames[f]? = some fr) : f < s.frames.size :=
  (Array.getElem?_eq_some_iff.1 h).1

namespace Finds

theorem lt (h : s.Finds x e f) : f < s.frames.size := by
  induction h with
  | here hf _ => exact lt_of_frame hf
  | up _ _ _ _ ih => exact ih

theorem has (h : s.Finds x e f) : ∃ fr, s.frames[f]? = some fr ∧ fr.has x = true := by
  induction h with
  | here hf hx => exact ⟨_, hf, hx⟩
  | up _ _ _ _ ih => exact ih

end Finds

/-! ## Looking names up -/

/-- What is found among a number of frames is what the name means. -/
theorem finds_of_findFrom :
    ∀ {n : Nat} {e : FrameId} {c : Cell}, findFrom s.frames x n e = some (f, c) → s.Finds x e f ∧
    s.cell? f x = some c
  | 0, _, _, h => by cases h
  | n + 1, e, c, h => by
    rw [findFrom] at h
    cases he : s.frames[e]? with
    | none =>
      rw [he] at h
      cases h
    | some fr =>
      rw [he] at h
      dsimp only at h
      cases hx : fr.find? x with
      | some d =>
        rw [hx] at h
        cases h
        exact ⟨.here he (by rw [Frame.has, hx]; rfl), by rw [cell?, he, Option.bind_some, hx]⟩
      | none =>
        cases hp : fr.parent with
        | none =>
          rw [hx, hp] at h
          cases h
        | some p =>
          rw [hx, hp] at h
          obtain ⟨hf, hc⟩ := finds_of_findFrom h
          exact ⟨.up he (by rw [Frame.has, hx]; rfl) hp hf, hc⟩

/-- A variable that is found from a frame is the one that the name means there. -/
theorem finds_of_find? {c : Cell} (h : s.find? x e = some (f, c)) :
    s.Finds x e f ∧ s.cell? f x = some c := finds_of_findFrom h

/-- What a name means is found within as many frames as are older than the first one. -/
theorem Finds.findFrom (hs : s.Nested) {c : Cell} (h : s.Finds x e f) (hc : s.cell? f x = some c) :
    ∀ {n : Nat}, e < n → Store.findFrom s.frames x n e = some (f, c) := by
  induction h with
  | here hf hx =>
    intro n hn
    obtain ⟨n, rfl⟩ := Nat.exists_eq_succ_of_ne_zero
      (Nat.ne_of_gt (Nat.lt_of_le_of_lt (Nat.zero_le _) hn))
    rw [cell?, hf, Option.bind_some] at hc
    rw [Store.findFrom, hf]
    simp only [hc]
  | @up _ _ _ fr he hx hp _ ih =>
    intro n hn
    obtain ⟨n, rfl⟩ := Nat.exists_eq_succ_of_ne_zero
      (Nat.ne_of_gt (Nat.lt_of_le_of_lt (Nat.zero_le _) hn))
    have hnone : fr.find? x = none := by simpa [Frame.has] using hx
    rw [Store.findFrom, he]
    simp only [hnone, hp]
    exact ih hc (Nat.lt_of_lt_of_le (hs.parents he hp) (Nat.le_of_lt_succ hn))

/-- What a name means is found. -/
theorem Finds.find? (hs : s.Nested) {c : Cell} (h : s.Finds x e f) (hc : s.cell? f x = some c) :
    s.find? x e = some (f, c) := h.findFrom hs hc (Nat.lt_succ_self e)

theorem Finds.cell? (h : s.Finds x e f) : ∃ c, s.cell? f x = some c := by
  obtain ⟨fr, hf, hx⟩ := h.has
  rw [Store.cell?, hf]
  exact Option.isSome_iff_exists.1 hx

/-- Reading a name yields what the variable holds that it means. -/
theorem Finds.get (hs : s.Sound) (h : s.Finds x e f) {v : Value} :
    s.get e x = .ok v ↔ s.content? f x = some v := by
  obtain ⟨c, hc⟩ := h.cell?
  rw [Store.get, h.find? hs.nested hc, content?, hc]
  obtain ⟨content, const⟩ := c
  cases content <;> simp

/-! ## Later stores -/

namespace Extends

theorem refl (s : Store) : s.Extends s := ⟨fun h => ⟨_, h, rfl, fun _ => rfl⟩, fun h => h⟩

theorem trans (h : s.Extends s') (h' : s'.Extends s'') : s.Extends s'' where
  frames hi := by
    obtain ⟨fr', hf', hp', hx'⟩ := h.frames hi
    obtain ⟨fr'', hf'', hp'', hx''⟩ := h'.frames hf'
    exact ⟨fr'', hf'', hp''.trans hp', fun x => (hx'' x).trans (hx' x)⟩
  closures hi := h'.closures (h.closures hi)

theorem lt (h : s.Extends s') (hf : f < s.frames.size) : f < s'.frames.size := by
  obtain ⟨fr, hfr⟩ := exists_frame hf
  obtain ⟨fr', hfr', -⟩ := h.frames hfr
  exact lt_of_frame hfr'

theorem finds (h : s.Extends s') (hx : s.Finds x e f) : s'.Finds x e f := by
  induction hx with
  | here hf hx =>
    obtain ⟨fr', hf', -, hx'⟩ := h.frames hf
    exact .here hf' ((hx' x).trans hx)
  | up he hx hp _ ih =>
    obtain ⟨fr', he', hp', hx'⟩ := h.frames he
    exact .up he' ((hx' x).trans hx) (hp'.trans hp) ih

/-- From an old frame, a name means what it meant before. -/
theorem of_finds (h : s.Extends s') (hs : s.Sound) (hx : s'.Finds x e f) (he : e < s.frames.size) :
    s.Finds x e f := by
  induction hx with
  | here hf hx =>
    obtain ⟨fr, hfr⟩ := exists_frame he
    obtain ⟨fr', hf', -, hx'⟩ := h.frames hfr
    rw [hf] at hf'
    cases hf'
    exact .here hfr ((hx' x).symm.trans hx)
  | up hf hx hp _ ih =>
    obtain ⟨fr, hfr⟩ := exists_frame he
    obtain ⟨fr', hf', hp', hx'⟩ := h.frames hfr
    rw [hf] at hf'
    cases hf'
    have hpar := hp'.symm.trans hp
    exact .up hfr ((hx' x).symm.trans hx) hpar
      (ih (Nat.lt_trans (hs.parents hfr hpar) he))

/-- A store with the same frames and closures. -/
theorem of_eq (hf : s'.frames = s.frames) (hc : s'.closures = s.closures) : s.Extends s' where
  frames hi := ⟨_, hf ▸ hi, rfl, fun _ => rfl⟩
  closures hi := hc ▸ hi

end Extends

/-! ## Writing -/

theorem getElem?_write (s : Store) (o : FrameId) (n : Name) (v : Value) (i : FrameId) :
    (s.write o n v).frames[i]? =
      if o = i then s.frames[i]?.map (·.update n v) else s.frames[i]? := by
  rw [write, Array.getElem?_modify]

theorem extends_write (s : Store) (o : FrameId) (n : Name) (v : Value) :
    s.Extends (s.write o n v) where
  frames {i fr} hi := by
    rw [getElem?_write, hi]
    split
    · exact ⟨_, rfl, rfl, fun _ => Frame.has_update⟩
    · exact ⟨fr, rfl, rfl, fun _ => rfl⟩
  closures hi := hi

theorem Sound.write (hs : s.Sound) (o : FrameId) (n : Name) (v : Value) :
    (s.write o n v).Sound where
  global := (extends_write s o n v).lt hs.global
  parents {i p fr} hi hp := by
    rw [getElem?_write] at hi
    split at hi
    · obtain ⟨fr₀, hi₀, rfl⟩ := Option.map_eq_some_iff.1 hi
      exact hs.parents hi₀ hp
    · exact hs.parents hi hp
  closures hi := by
    obtain ⟨hf, hb⟩ := hs.closures hi
    exact ⟨(extends_write s o n v).lt hf, hb⟩

/-- Other variables hold what they held before. -/
theorem content?_write_ne {o : FrameId} {n : Name} {v : Value} (h : (f, x) ≠ (o, n)) :
    (s.write o n v).content? f x = s.content? f x := by
  rw [content?, content?, cell?, cell?, getElem?_write]
  split
  · rename_i hof
    subst hof
    cases s.frames[o]? with
    | none => rfl
    | some fr =>
      rw [Option.map_some, Option.bind_some, Option.bind_some,
        Frame.find?_update_ne fun hx => h (by rw [hx])]
  · rfl

/-- A variable holds what was written to it. -/
theorem content?_write_self {n : Name} {v : Value} {c : Cell} (h : s.cell? f n = some c) :
    (s.write f n v).content? f n = some v := by
  rw [cell?] at h
  obtain ⟨fr, hf, hx⟩ := Option.bind_eq_some_iff.1 h
  rw [content?, cell?, getElem?_write, if_pos rfl, hf, Option.map_some, Option.bind_some,
    Frame.find?_update_self hx]
  rfl

/-! ## Making frames and closures -/

section Make

variable {fr : Frame} {p : FrameId}

theorem getElem?_newFrame_of_lt (h : f < s.frames.size) :
    (s.newFrame fr).2.frames[f]? = s.frames[f]? := by
  rw [newFrame, Array.getElem?_push_lt h, Array.getElem?_eq_getElem h]

theorem getElem?_newFrame_self : (s.newFrame fr).2.frames[s.frames.size]? = some fr := by
  rw [newFrame, Array.getElem?_push_size]

theorem extends_newFrame (s : Store) (fr : Frame) : s.Extends (s.newFrame fr).2 where
  frames hi := ⟨_, (getElem?_newFrame_of_lt (lt_of_frame hi)).trans hi, rfl, fun _ => rfl⟩
  closures hi := hi

theorem Sound.newFrame (hs : s.Sound) (hp : fr.parent = some p) (hlt : p < s.frames.size) :
    (s.newFrame fr).2.Sound where
  global := (extends_newFrame s fr).lt hs.global
  parents {i q fr'} hi hq := by
    rcases Nat.lt_or_ge i s.frames.size with hlt' | hge
    · rw [getElem?_newFrame_of_lt hlt'] at hi
      exact hs.parents hi hq
    · have hi' := lt_of_frame hi
      rw [Store.newFrame, Array.size_push] at hi'
      obtain rfl : i = s.frames.size := Nat.le_antisymm (Nat.le_of_lt_succ hi') hge
      rw [getElem?_newFrame_self] at hi
      cases hi
      rw [hp] at hq
      cases hq
      exact hlt
  closures hi := by
    obtain ⟨hf, hb⟩ := hs.closures hi
    exact ⟨(extends_newFrame s fr).lt hf, hb⟩

theorem content?_newFrame (h : f < s.frames.size) :
    (s.newFrame fr).2.content? f x = s.content? f x := by
  rw [content?, content?, cell?, cell?, getElem?_newFrame_of_lt h]

theorem extends_newClosure (s : Store) (c : Closure) : s.Extends (s.newClosure c).2 where
  frames hi := ⟨_, hi, rfl, fun _ => rfl⟩
  closures {i d} hi := by
    have hlt : i < s.closures.size := (Array.getElem?_eq_some_iff.1 hi).1
    rw [newClosure, Array.getElem?_push_lt hlt, ← Array.getElem?_eq_getElem hlt, hi]

theorem getElem?_newClosure_self (s : Store) (c : Closure) :
    (s.newClosure c).2.closures[s.closures.size]? = some c := by
  rw [newClosure, Array.getElem?_push_size]

/-- The closures of a store with one more are that one and the old ones. -/
theorem of_newClosure {c d : Closure} {i : Nat} (h : (s.newClosure c).2.closures[i]? = some d) :
    d = c ∨ s.closures[i]? = some d := by
  rw [newClosure, Array.getElem?_push] at h
  split at h
  · exact .inl (Option.some.inj h).symm
  · exact .inr h

theorem Sound.newClosure (hs : s.Sound) {c : Closure} (hf : c.frame < s.frames.size)
    (hb : c.body.IsFlat) : (s.newClosure c).2.Sound where
  global := hs.global
  parents := hs.parents
  closures hi := by
    rcases of_newClosure hi with rfl | hi
    · exact ⟨hf, hb⟩
    · exact hs.closures hi

end Make

end Store

/-! ## The frames of calls -/

namespace Eval

/-- The `var`s of a function are defined in the frame. -/
theorem find?_bindVars {fr : Frame} {vars : List (Name × Span)} (y : Name) :
    (bindVars fr vars).find? y = (match fr.find? y with
      | some c => some c
      | none => if y ∈ vars.map (·.1) then some ⟨some .undefined, false⟩ else none) := by
  induction vars generalizing fr with
  | nil => cases h : fr.find? y <;> simp [bindVars, h]
  | cons v vars ih =>
    obtain ⟨n, k⟩ := v
    rw [bindVars, List.foldl_cons, ← bindVars, ih, List.map_cons]
    dsimp only
    by_cases hn : fr.has n = true
    · rw [if_pos hn]
      cases hy : fr.find? y with
      | some c => rfl
      | none =>
        have hne : y ≠ n := by
          rintro rfl
          simp [Frame.has, hy] at hn
        simp only [List.mem_cons, hne, false_or]
    · rw [if_neg hn]
      by_cases hyn : y = n
      · subst hyn
        have hnone : fr.find? y = none := by simpa [Frame.has] using hn
        rw [Frame.find?_add_self hnone, hnone]
        simp
      · rw [Frame.find?_add_ne hyn]
        simp only [List.mem_cons, hyn, false_or]

theorem bindVars_parent (fr : Frame) (vars : List (Name × Span)) :
    (bindVars fr vars).parent = fr.parent := by
  induction vars generalizing fr with
  | nil => rfl
  | cons v vars ih =>
    rw [bindVars, List.foldl_cons, ← bindVars, ih]
    dsimp only
    split <;> rfl

theorem bindParams_parent (fr : Frame) (ps : List Name) (args : List Value) :
    (bindParams fr ps args).parent = fr.parent := by
  induction ps generalizing fr args with
  | nil => rfl
  | cons p ps ih =>
    rw [bindParams, ih]
    split <;> rfl

/-- The variables of a frame with parameters. -/
theorem has_bindParams {fr : Frame} {ps : List Name} {args : List Value} {y : Name} :
    (bindParams fr ps args).has y = true ↔ fr.has y = true ∨ y ∈ ps := by
  induction ps generalizing fr args with
  | nil => simp [bindParams]
  | cons p ps ih =>
    rw [bindParams, ih, List.mem_cons, ← or_assoc]
    refine or_congr_left ?_
    split
    · rename_i hp
      rw [Frame.has_update]
      exact ⟨.inl, fun h => h.elim id fun h => h ▸ hp⟩
    · rename_i hp
      by_cases hy : y = p
      · subst hy
        rw [Frame.has, Frame.find?_add_self (by simpa [Frame.has] using hp)]
        simp
      · rw [Frame.has, Frame.find?_add_ne hy, Frame.has]
        simp [hy]

theorem has_bindVars {fr : Frame} {vars : List (Name × Span)} {y : Name} :
    (bindVars fr vars).has y = true ↔ fr.has y = true ∨ y ∈ vars.map (·.1) := by
  rw [Frame.has, find?_bindVars]
  cases hy : fr.find? y with
  | some d => simp [Frame.has, hy]
  | none =>
    simp only [Frame.has, hy, Option.isSome_none, Bool.false_eq_true, false_or]
    split <;> simp [*]

/-- The frame of a call of a function with flat code: it has the parameters and the `var`s of the
    function. -/
theorem callFrame_flat {c : Closure} (hc : c.body.IsFlat) (args : List Value) :
    ∃ fr, callFrame c args = .ok fr ∧ fr.parent = some c.frame ∧
      ∀ y, fr.has y = true ↔ y ∈ c.params ∨ y ∈ c.body.vars.map (·.1) := by
  refine ⟨bindVars (bindParams ⟨some c.frame, []⟩ c.params args) c.body.vars, ?_, ?_, fun y => ?_⟩
  · rw [callFrame, hc.lexicals]
    rfl
  · rw [bindVars_parent, bindParams_parent]
  · rw [has_bindVars, has_bindParams]
    simp [Frame.has, Frame.find?]

end Eval

end FlatScope
