import FlatScope.Proofs.Safety.Setting

/-!
# What a well-scoped piece may do

A piece may only stop by errors that do not come from its names and code, it may only be left as its
place allows, and it leaves a good store behind (`Eval.Setting.Goes`). This passes on from the parts
of a piece to the piece (`Goes.bind`), and holds of what the evaluator does with the store.
-/

namespace FlatScope

namespace Store

variable {s t : Store} {f : FrameId} {x : Name} {d : Cell}

/-- A variable of a frame was there before, and was a constant if it is one. -/
theorem Later.cell_before (h : s.Later t) (hf : f < s.frames.size) (hd : t.cell? f x = some d) :
    ∃ c, s.cell? f x = some c ∧ d.const = c.const := by
  obtain ⟨fr, hfr⟩ := exists_frame hf
  obtain ⟨fr', hfr', -, hhas⟩ := h.frames hfr
  rw [cell?, hfr', Option.bind_some] at hd
  have hx : fr.has x = true := by
    rw [← hhas, Frame.has, hd]
    rfl
  obtain ⟨c, hc⟩ := Option.isSome_iff_exists.1 hx
  have hcell : s.cell? f x = some c := by rw [cell?, hfr]; exact hc
  obtain ⟨e, he, hec⟩ := h.consts hcell
  rw [cell?, hfr', Option.bind_some, hd] at he
  exact ⟨c, hcell, Option.some.inj he ▸ hec⟩

/-- A variable holds what it held before, or what was written. -/
theorem of_cell?_write {o : FrameId} {n : Name} {v : Value}
    (h : (s.write o n v).cell? f x = some d) : d.content.isSome = true ∨ s.cell? f x = some d := by
  rw [cell?, getElem?_write] at h
  split at h
  · obtain ⟨fr, hfr, hd⟩ := Option.bind_eq_some_iff.1 h
    obtain ⟨fr₀, hfr₀, rfl⟩ := Option.map_eq_some_iff.1 hfr
    by_cases hx : x = n
    · subst hx
      cases hc : fr₀.find? x with
      | none =>
        rw [Frame.find?_update_none hc] at hd
        cases hd
      | some c =>
        rw [Frame.find?_update_self hc] at hd
        cases hd
        exact .inl rfl
    · rw [Frame.find?_update_ne hx] at hd
      exact .inr (by rw [cell?, hfr₀]; exact hd)
  · exact .inr h

end Store

namespace Eval.Setting

variable {S : Setting} {s t r : Store} {α β : Type} {returns jumps : Bool}

/-! ## Good stores -/

namespace Good

/-- What holds of a good store and a later one whose frames and closures are all right. -/
theorem later (h : S.Good s) (hl : s.Later t) (hn : t.Nested)
    (hc : ∀ {i : Nat} {c}, t.closures[i]? = some c → S.Represents t c)
    (hlevel : S.level → ∀ {f n c}, t.cell? f n = some c → c.content.isSome) : S.Good t where
  nested := hn
  globals n hn := hl.finds (h.globals n hn)
  outermost hd := by
    obtain ⟨c, hc, he⟩ := hl.cell_before h.nested.global hd
    exact he.trans (h.outermost hc)
  closures := hc
  level := hlevel

/-- Whether a store is good depends on its frames and its closures alone. -/
theorem of_eq (h : S.Good s) (hf : t.frames = s.frames) (hc : t.closures = s.closures) : S.Good t :=
  have hl : s.Later t := .of_eq hf hc
  h.later hl (h.nested.of_eq hf) (fun hi => (h.closures (hc ▸ hi)).later hl)
    fun hlv {f n c} hx => h.level hlv (by rwa [Store.cell?, hf] at hx)

/-- A write keeps a store good. -/
theorem write (h : S.Good s) (f : FrameId) (n : Name) (v : Value) : S.Good (s.write f n v) :=
  h.later (.write s f n v) (h.nested.write f n v) (fun hi => (h.closures hi).later (.write s f n v))
    fun hlv {_ _ _} hx => (Store.of_cell?_write hx).elim id (h.level hlv)

/-- A new frame under an older one keeps a store good. -/
theorem newFrame (h : S.Good s) {fr : Frame} (hp : ∀ p, fr.parent = some p → p < s.frames.size)
    (hfr : S.level → ∀ n c, fr.find? n = some c → c.content.isSome) : S.Good (s.newFrame fr).2 := by
  refine h.later (.newFrame s fr) (h.nested.newFrame hp)
    (fun hi => (h.closures hi).later (.newFrame s fr)) fun hlv {f n c} hx => ?_
  rcases Nat.lt_trichotomy f s.frames.size with hlt | heq | hgt
  · exact h.level hlv ((Store.cell?_newFrame_of_lt hlt).symm.trans hx)
  · subst heq
    exact hfr hlv n c (Store.cell?_newFrame_self.symm.trans hx)
  · have := Store.lt_of_cell? hx
    rw [Store.newFrame, Array.size_push] at this
    exact absurd hgt (Nat.not_lt.2 (Nat.le_of_lt_succ this))

/-- A closure that the setting represents keeps a store good. -/
theorem newClosure (h : S.Good s) {c : Closure} (hc : S.Represents s c) :
    S.Good (s.newClosure c).2 := by
  have hl : s.Later (s.newClosure c).2 := .newClosure s c
  refine h.later hl (h.nested.of_eq rfl) (fun {i d} hi => ?_) h.level
  rcases Store.of_newClosure hi with rfl | hi
  · exact hc.later hl
  · exact (h.closures hi).later hl

end Good

/-! ## Ends -/

/-- An error that has its cause in the names or the code of a program. -/
def Wrong (S : Setting) : RunError → Prop
  | .unknownName _ | .alreadyDefined _ | .constant _ | .target | .unknownExpr _ | .unknownStmt _
  | .unknownHeader _ => True
  | .notSignal _ | .unknownUnary _ | .unknownBinary _ => S.plain
  | .uninitialized _ => S.level
  | _ => False

/-- No setting calls an error about values wrong. -/
theorem not_wrong_of_values {e : RunError} (h : e.OfValues) : ¬ S.Wrong e := by
  cases e <;> first | exact id | exact h.elim

theorem fine {x : Except RunError α} (h : Throws RunError.OfValues x) : Throws (¬ S.Wrong ·) x :=
  fun e he => not_wrong_of_values (h e he)

/-- A piece may be left in this way: by an error that is not wrong, by a return where statements may
    return, and by a jump where a loop is around them. -/
def Leaves (S : Setting) (returns jumps : Bool) : Interrupt → Prop
  | .failed e => ¬ S.Wrong e
  | .returned _ => returns = true
  | .broke | .continued => jumps = true

/-- A piece goes on to a later store, which is good, or stops as it may. -/
structure Goes (S : Setting) (returns jumps : Bool) (s : Store) (o : Outcome Store α) : Prop where
  later : ∀ {t}, o.state? = some t → s.Later t ∧ S.Good t
  leaves : ∀ {w t}, o = .interrupted w t → S.Leaves returns jumps w

namespace Goes

theorem outOfFuel : S.Goes returns jumps s (.outOfFuel : Outcome Store α) := ⟨nofun, nofun⟩

/-- A computation goes well that ends in a later good store. -/
theorem done {a : α} (hl : s.Later t) (hg : S.Good t) : S.Goes returns jumps s (.done a t) :=
  ⟨fun h => by cases h; exact ⟨hl, hg⟩, nofun⟩

/-- So does one that is interrupted there by something it may leave with. -/
theorem interrupted {w : Interrupt} (hl : s.Later t) (hg : S.Good t)
    (hw : S.Leaves returns jumps w) : S.Goes returns jumps s (.interrupted w t : Outcome Store α) :=
  ⟨fun h => by cases h; exact ⟨hl, hg⟩, fun h => by cases h; exact hw⟩

theorem stay {a : α} (hg : S.Good s) : S.Goes returns jumps s (.done a s) := done (.refl s) hg

variable {o : Outcome Store α}

theorem of_done {a : α} {x : Outcome Store α} (h : S.Goes returns jumps s x) (hx : x = .done a t) :
    s.Later t ∧ S.Good t := h.later (by rw [hx]; rfl)

/-- An earlier store. -/
theorem before (h : S.Goes returns jumps t o) (hl : s.Later t) : S.Goes returns jumps s o :=
  ⟨fun ho => (h.later ho).imp_left hl.trans, h.leaves⟩

/-- What may not be left otherwise. -/
theorem strict (h : S.Goes false false s o) : S.Goes returns jumps s o where
  later := h.later
  leaves {w t} ho := by
    have hw := h.leaves ho
    cases w with
    | failed e => exact hw
    | _ => cases hw

/-- Jumps may leave the piece, but do not. -/
theorem calm (h : S.Goes returns false s o) : S.Goes returns jumps s o where
  later := h.later
  leaves {w t} ho := by
    have hw := h.leaves ho
    cases w with
    | broke | continued => cases hw
    | _ => exact hw

/-- A computation in two parts goes well when both do, the second from where the first ends. -/
theorem bind {x : Run α} {k : α → Run β} (hx : S.Goes returns jumps s (x s))
    (hk : ∀ {a t}, x s = .done a t → s.Later t → S.Good t → S.Goes returns jumps t (k a t)) :
    S.Goes returns jumps s ((x >>= k) s) := by
  rw [Process.bind_apply]
  cases hxs : x s with
  | done a t =>
    obtain ⟨hl, hg⟩ := hx.of_done hxs
    exact (hk hxs hl hg).before hl
  | interrupted w t =>
    obtain ⟨hl, hg⟩ := hx.later (t := t) (by rw [hxs]; rfl)
    exact interrupted hl hg (hx.leaves hxs)
  | outOfFuel => exact outOfFuel

theorem read {k : Store → Except RunError α} (hg : S.Good s) (hk : Throws (¬ S.Wrong ·) (k s)) :
    S.Goes returns jumps s (Process.read k s) := by
  rw [Process.read]
  cases he : k s with
  | ok a => exact stay hg
  | error e => exact interrupted (.refl s) hg (hk e he)

theorem changeAt {ι : Type} {place : Store → Except RunError ι} {k : ι → Store → Store}
    (hg : S.Good s) (hp : Throws (¬ S.Wrong ·) (place s))
    (hk : ∀ i, s.Later (k i s) ∧ S.Good (k i s)) :
    S.Goes returns jumps s (Process.changeAt place k s) := by
  rw [Process.changeAt]
  cases he : place s with
  | ok i => exact done (hk i).1 (hk i).2
  | error e => exact interrupted (.refl s) hg (hp e he)

/-- What changes neither frames nor closures. -/
theorem make {k : Store → α × Store} (hg : S.Good s) (hf : (k s).2.frames = s.frames)
    (hc : (k s).2.closures = s.closures) : S.Goes returns jumps s (Process.make k s) :=
  done (.of_eq hf hc) (hg.of_eq hf hc)

theorem operate {k : Store → Except RunError Value} (hg : S.Good s)
    (hk : Throws (¬ S.Wrong ·) (k s)) : S.Goes returns jumps s (Eval.operate k s) :=
  (read hg hk).bind fun {v t} _ _ hg => make hg (by unfold Store.identify; split <;> rfl)
    (by unfold Store.identify; split <;> rfl)

theorem fail {e : RunError} (hg : S.Good s) (he : ¬ S.Wrong e) :
    S.Goes returns jumps s (Process.fail e s : Outcome Store α) := interrupted (.refl s) hg he

theorem failWith {e : Text → RunError} {v : Value} (hg : S.Good s) (he : ∀ x, ¬ S.Wrong (e x)) :
    S.Goes returns jumps s (Eval.failWith e v s : Outcome Store α) :=
  (read hg (fine (Value.render_throws v))).bind fun _ _ hg => fail hg (he _)

theorem sequenceOf {v : Value} (hg : S.Good s) : S.Goes returns jumps s (Eval.sequenceOf v s) := by
  unfold Eval.sequenceOf
  split
  · exact stay hg
  · exact stay hg
  · exact failWith hg fun _ => id

/-- The body of a loop. -/
theorem goesOn {x : Run Unit} (h : S.Goes true true s (x s)) :
    S.Goes true false s (Eval.goesOn x s) := by
  rw [Eval.goesOn]
  cases hxs : x s with
  | done a t =>
    obtain ⟨hl, hg⟩ := h.of_done hxs
    exact done hl hg
  | interrupted w t =>
    obtain ⟨hl, hg⟩ := h.later (t := t) (by rw [hxs]; rfl)
    cases w with
    | broke | continued => exact done hl hg
    | failed e => exact interrupted hl hg (h.leaves hxs : ¬ S.Wrong e)
    | returned v => exact interrupted hl hg (show true = true from rfl)
  | outOfFuel => exact outOfFuel

end Goes

end Eval.Setting

end FlatScope
