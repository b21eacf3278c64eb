import FlatScope.Proofs.Residence.Variables

/-!
# Moving in and out

A new frame has variables, for which there must be free locations (`Joint.enter`). When its block is
left, those that were lodgers move out (`Joint.forget`). A variable that lodged at the driver of a
loop moves to the parameter of the wrapper, which is its home from then on (`Joint.settle`).

The states still match after each of these (`Matches.enter`, `Matches.forget`, `Matches.settle`).
What was there before stays as it was, if the lodgers move out in the end (`Grows.enter_forget`,
`Grows.forget`, `Grows.settle_forget`).
-/

namespace FlatScope

open Process

namespace Regional.Joint

variable {i : Nat} {j j' j₀ : Joint} {f g p : FrameId} {x n : Name} {k l : Location} {v : Value}
  {fr : Frame} {m : Machine} {sites : Name → Location → Prop} {kept stays : Prop}

/-- Nothing resides at the location. -/
def Free (j : Joint) (l : Location) : Prop := ∀ f x, ¬ j.At f x l

/-- What is free in an old activation stays free. -/
theorem Grows.free (h : j.Grows j') (hl : l.activation < j.machine.activations) (hfree : j.Free l) :
    j'.Free l := fun f x hat => hfree f x (h.at_before hl hat)

/-- Nothing resides in a new activation. -/
theorem Matches.free (hj : j.Matches) (hl : j.machine.activations ≤ l.activation) : j.Free l :=
  fun _ _ hat => Nat.not_lt.2 hl (hj.placed hat).2.2

/-! ## The machine alone -/

/-- A state of the machine that differs from that of the joint only where nothing resides. -/
structure Leaves (j : Joint) (m : Machine) : Prop where
  store : m.store = j.machine.store
  closures : m.closures = j.machine.closures
  activations : j.machine.activations ≤ m.activations
  cells : ∀ {f x l}, j.At f x l → m.cells l = j.machine.cells l

namespace Leaves

theorem refl (j : Joint) : j.Leaves j.machine := ⟨rfl, rfl, Nat.le_refl _, fun _ => rfl⟩

/-- Something is put where nothing resides. -/
theorem set (h : j.Leaves m) (hl : j.Free l) : j.Leaves (m.set l v) where
  store := h.store
  closures := h.closures
  activations := h.activations
  cells {f x k} hk := by
    rw [Machine.set_cells_ne]
    · exact h.cells hk
    · rintro rfl
      exact hl f x hk

theorem setAll (h : j.Leaves m) {ls : List (Location × Value)} (hl : ∀ q ∈ ls, j.Free q.1) :
    j.Leaves (m.setAll ls) := by
  induction ls generalizing m with
  | nil => exact h
  | cons q ls ih =>
    exact ih (h.set (hl q List.mem_cons_self)) fun q hq => hl q (List.mem_cons_of_mem _ hq)

/-- Something is copied to where nothing resides. -/
theorem copyAll (h : j.Leaves m) {ls : List (Location × Location)} (hl : ∀ q ∈ ls, j.Free q.1) :
    j.Leaves (m.copyAll ls) := by
  induction ls generalizing m with
  | nil => exact h
  | cons q ls ih =>
    exact ih (h.set (hl q List.mem_cons_self)) fun q hq => hl q (List.mem_cons_of_mem _ hq)

/-- A new activation begins. -/
theorem activate (h : j.Leaves m) (hj : j.Matches) : j.Leaves m.activate where
  store := h.store
  closures := h.closures
  activations := Nat.le_succ_of_le h.activations
  cells hk := by
    exact (if_neg (Nat.ne_of_lt (Nat.lt_of_lt_of_le (hj.placed hk).2.2 h.activations))).trans
      (h.cells hk)

end Leaves

/-! ## Other residences -/

/-- A new frame, whose variables reside at their sites, for good if they are `kept` there. -/
def enter (j : Joint) (fr : Frame) (sites : Name → Location → Prop) (kept : Prop) : Joint where
  store := (j.store.newFrame fr).2
  machine := j.machine
  home f x l := j.home f x l ∨ f = j.store.frames.size ∧ sites x l ∧ kept
  lodging f x l := j.lodging f x l ∨ f = j.store.frames.size ∧ sites x l ∧ ¬ kept

/-- The lodgers of a frame move out. -/
def forget (j : Joint) (g : FrameId) : Joint :=
  { j with lodging := fun f x l => f ≠ g ∧ j.lodging f x l }

/-- A variable gets a home, and is a lodger no more unless it `stays`. -/
def settle (j : Joint) (g : FrameId) (x : Name) (l : Location) (stays : Prop) : Joint where
  store := j.store
  machine := j.machine
  home f y k := j.home f y k ∨ f = g ∧ y = x ∧ k = l
  lodging f y k := j.lodging f y k ∧ (f = g → stays)

/-- Where variables reside after a frame was entered. -/
theorem at_enter : (j.enter fr sites kept).At f x l ↔
    j.At f x l ∨ f = j.store.frames.size ∧ sites x l := by
  simp only [At, enter]
  tauto

theorem at_of_forget (h : (j.forget g).At f x l) : j.At f x l := h.imp_right And.right

/-- A variable resides where it did, or it is the one that got a home. -/
theorem at_of_settle (h : (j.settle g n k stays).At f x l) :
    j.At f x l ∨ f = g ∧ x = n ∧ l = k := by
  rcases h with (h | h) | ⟨h, -⟩
  · exact .inl (.inl h)
  · exact .inr h
  · exact .inl (.inr h)

/-- States with the same closures match again if the variables and their residences do. -/
theorem Matches.change (hj : j.Matches) (hkeep : j.Keeps j')
    (hclosures : j'.store.closures = j.store.closures)
    (hmachine : j'.machine.closures = j.machine.closures)
    (hlike : j'.store.Like j.closure j'.machine.store)
    (hglobal : j'.store.frames[0]? = j.store.frames[0]?)
    (hstore : j'.machine.store = j.machine.store) (hnested : j'.store.Nested)
    (hplaced : ∀ {f x l}, j'.At f x l → 0 < f ∧ f < j'.store.frames.size ∧
      l.activation < j'.machine.activations)
    (hagrees : ∀ {f x l v c}, j'.At f x l → j'.store.cell? f x = some ⟨some v, c⟩ →
      v.Like j.closure (j'.machine.cells l))
    (hinj : ∀ {f g x y l}, j'.At f x l → j'.At g y l → f = g ∧ x = y) : j'.Matches := by
  have hclosure : j'.closure = j.closure := by
    funext c
    rw [closure, closure, hclosures]
  exact {
    store := hclosure ▸ hlike
    outermost := by
      rw [hglobal, hstore, hclosure]
      exact hj.outermost
    nested := hnested
    placed := hplaced
    agrees := fun hl hc => hclosure ▸ hagrees hl hc
    injective := hinj
    closures := by rw [hclosures, hmachine, hj.closures]
    represents := fun hC hD =>
      (hj.represents (hclosures ▸ hC) (hmachine ▸ hD)).keeps hkeep }

/-- The machine goes on alone, where nothing resides. -/
theorem Matches.leaves (hj : j.Matches) (hm : j.Leaves m) :
    (j.goTo j.store m).Matches ∧ j.Grows (j.goTo j.store m) := by
  have hgrows : j.Grows (j.goTo j.store m) := grows_goTo hj (.refl _) hm.activations
  refine ⟨hj.change (hgrows.keeps hj) rfl hm.closures ?_ rfl hm.store hj.nested (fun hl => ?_)
    (fun {f x l v c} hl hc => ?_) hj.injective, hgrows⟩
  · change j.store.Like j.closure m.store
    rw [hm.store]
    exact hj.store
  · obtain ⟨hf, hlt, hact⟩ := hj.placed hl
    exact ⟨hf, hlt, Nat.lt_of_lt_of_le hact hm.activations⟩
  · change v.Like j.closure (m.cells l)
    rw [hm.cells hl]
    exact hj.agrees hl hc

/-- A new frame whose variables get free locations. -/
theorem Matches.enter (hj : j.Matches) (hp : fr.parent = some p) (hlt : p < j.store.frames.size)
    (hnew : ∀ {x l}, sites x l → l.activation < j.machine.activations ∧ j.Free l)
    (hagrees : ∀ {x l v c}, sites x l → fr.find? x = some ⟨some v, c⟩ →
      v.Like j.closure (j.machine.cells l))
    (hinj : ∀ {x y l}, sites x l → sites y l → x = y) : (j.enter fr sites kept).Matches := by
  have hglobal : (j.store.newFrame fr).2.frames[0]? = j.store.frames[0]? :=
    Store.getElem?_newFrame_of_lt hj.nested.global
  have hold {f x l} (hl : j.At f x l) : f ≠ j.store.frames.size := Nat.ne_of_lt (hj.placed hl).2.1
  refine hj.change ⟨.newFrame j.store fr, .inl, fun {f x l k} hl hk => ?_⟩ rfl rfl
    ⟨hj.store.size, hj.store.elements, hj.store.nans, hj.store.printed⟩ hglobal rfl
    (hj.nested.newFrame fun q hq => ?_) (fun hl => ?_) (fun {f x l v c} hl hc => ?_)
    fun {f g x y l} hl hl' => ?_
  · exact (at_enter.1 hk).resolve_right fun h => hold (.inl hl) h.1
  · rw [hp] at hq
    cases hq
    exact hlt
  · have hsize : (j.store.newFrame fr).2.frames.size = j.store.frames.size + 1 := by
      rw [Store.newFrame, Array.size_push]
    change _ ∧ _ < (j.store.newFrame fr).2.frames.size ∧ _
    rcases at_enter.1 hl with hat | ⟨rfl, hat⟩
    · obtain ⟨hf, hlt, hact⟩ := hj.placed hat
      exact ⟨hf, hsize ▸ Nat.lt_succ_of_lt hlt, hact⟩
    · exact ⟨hj.nested.global, hsize ▸ Nat.lt_succ_self _, (hnew hat).1⟩
  · change (j.store.newFrame fr).2.cell? f x = _ at hc
    rcases at_enter.1 hl with hat | ⟨rfl, hat⟩
    · rw [Store.cell?_newFrame_of_lt (hj.placed hat).2.1] at hc
      exact hj.agrees hat hc
    · exact hagrees hat (Store.cell?_newFrame_self.symm.trans hc)
  · -- an old variable and a new one are not at one location, since the new one got a free one
    rcases at_enter.1 hl with hat | ⟨rfl, hat⟩
    · rcases at_enter.1 hl' with hat' | ⟨rfl, hat'⟩
      · exact hj.injective hat hat'
      · exact absurd hat ((hnew hat').2 f x)
    · rcases at_enter.1 hl' with hat' | ⟨rfl, hat'⟩
      · exact absurd hat' ((hnew hat).2 g y)
      · exact ⟨rfl, hinj hat hat'⟩

/-- The states match without the lodgers of a frame. -/
theorem Matches.forget (hj : j.Matches) (g : FrameId) : (j.forget g).Matches :=
  hj.change ⟨.refl _, id, fun _ => at_of_forget⟩ rfl rfl hj.store rfl rfl hj.nested
    (fun hl => hj.placed (at_of_forget hl)) (fun hl => hj.agrees (at_of_forget hl))
    fun hl hl' => hj.injective (at_of_forget hl) (at_of_forget hl')

/-- A variable that had no home gets a free location as its home. -/
theorem Matches.settle (hj : j.Matches) (hg : 0 < g) (hlt : g < j.store.frames.size)
    (hl : l.activation < j.machine.activations) (hfree : j.Free l) (hhome : ∀ k, ¬ j.home g x k)
    (hagrees : ∀ {v c}, j.store.cell? g x = some ⟨some v, c⟩ →
      v.Like j.closure (j.machine.cells l)) :
    (j.settle g x l stays).Matches := by
  -- nothing that was at home is joined by the variable at its new home, since that was free
  refine hj.change ⟨.refl _, .inl, fun {f y k k'} hk hk' => ?_⟩ rfl rfl hj.store rfl rfl hj.nested
    (fun hk => ?_) (fun {f y k v c} hk hc => ?_) fun {f f' y y' k} hk hk' => ?_
  · refine (at_of_settle hk').resolve_right ?_
    rintro ⟨rfl, rfl, -⟩
    exact hhome k hk
  · rcases at_of_settle hk with hat | ⟨rfl, rfl, rfl⟩
    · exact hj.placed hat
    · exact ⟨hg, hlt, hl⟩
  · rcases at_of_settle hk with hat | ⟨rfl, rfl, rfl⟩
    · exact hj.agrees hat hc
    · exact hagrees hc
  · rcases at_of_settle hk with hat | ⟨rfl, rfl, rfl⟩
    · rcases at_of_settle hk' with hat' | ⟨rfl, rfl, rfl⟩
      · exact hj.injective hat hat'
      · exact absurd hat (hfree f y)
    · rcases at_of_settle hk' with hat' | ⟨rfl, rfl, -⟩
      · exact absurd hat' (hfree f' y')
      · exact ⟨rfl, rfl⟩

/-! ## Later states -/

/-- A new frame whose variables reside in new activations. -/
theorem Grows.enter (h : j₀.Grows j)
    (hnew : ∀ {x l}, sites x l → j₀.machine.activations ≤ l.activation) :
    j₀.Grows (j.enter fr sites kept) where
  later := h.later.trans (.newFrame j.store fr)
  home hf := (or_iff_left fun hn => Nat.ne_of_lt (h.later.lt hf) hn.1).trans (h.home hf)
  lodging hf := (or_iff_left fun hn => Nat.ne_of_lt (h.later.lt hf) hn.1).trans (h.lodging hf)
  activations := h.activations
  fresh hf hl := by
    rcases at_enter.1 hl with hl | ⟨-, hl⟩
    · exact h.fresh hf hl
    · exact hnew hl

/-- A new frame whose lodgers move out again. -/
theorem Grows.enter_forget (h : j₀.Grows j)
    (hnew : kept → ∀ {x l}, sites x l → j₀.machine.activations ≤ l.activation) :
    j₀.Grows ((j.enter fr sites kept).forget j.store.frames.size) := by
  have hne {f : FrameId} (hf : f < j₀.store.frames.size) : f ≠ j.store.frames.size :=
    Nat.ne_of_lt (h.later.lt hf)
  exact {
    later := h.later.trans (.newFrame j.store fr)
    home := fun hf => (or_iff_left fun hn => hne hf hn.1).trans (h.home hf)
    lodging := fun hf => ((and_iff_right (hne hf)).trans
      (or_iff_left fun hn => hne hf hn.1)).trans (h.lodging hf)
    activations := h.activations
    fresh := by
      rintro f x l hf ((hl | ⟨-, hl, hk⟩) | ⟨hg, hl | ⟨hg', -⟩⟩)
      · exact h.fresh hf (.inl hl)
      · exact hnew hk hl
      · exact h.fresh hf (.inr hl)
      · exact absurd hg' hg }

/-- The lodgers of a frame move out later. -/
theorem Grows.forget (h : j₀.Grows (j.forget g)) (h' : j.Grows j') :
    j₀.Grows (j'.forget g) where
  later := h.later.trans h'.later
  home hf := (h'.home (h.later.lt hf)).trans (h.home hf)
  lodging hf := (and_congr_right fun _ => h'.lodging (h.later.lt hf)).trans (h.lodging hf)
  activations := Nat.le_trans h.activations h'.activations
  fresh {f x l} hf hl := by
    rcases Nat.lt_or_ge f j.store.frames.size with hlt | hge
    · exact h.fresh hf (hl.imp (h'.home hlt).1 (And.imp_right (h'.lodging hlt).1))
    · exact Nat.le_trans h.activations (h'.fresh hge (at_of_forget hl))

/-- A variable of a frame, whose lodgers move out later, gets a home in a new activation. -/
theorem Grows.settle_forget (h : j₀.Grows (j.forget g)) (hg : j₀.store.frames.size ≤ g)
    (hl : j₀.machine.activations ≤ l.activation) :
    j₀.Grows ((j.settle g x l stays).forget g) where
  later := h.later
  home hf := by
    refine (or_iff_left ?_).trans (h.home hf)
    rintro ⟨rfl, -⟩
    exact Nat.not_lt.2 hg hf
  lodging hf := by
    refine (and_congr_right fun hne => and_iff_left fun he => ?_).trans (h.lodging hf)
    exact absurd he hne
  activations := h.activations
  fresh := by
    rintro f y k hf ((hk | ⟨-, -, rfl⟩) | ⟨hne, hk, -⟩)
    · exact h.fresh hf (.inl hk)
    · exact hl
    · exact h.fresh hf (.inr ⟨hne, hk⟩)

/-- The end of both pieces, with other residences. -/
theorem Follows.relink {α : Type} {x : Nat → FlatScope.Run α} {y : Nat → Run α}
    {Q R : Except Interrupt α → Joint → Prop} (h : Follows i x y j Q)
    (hQ : ∀ r j', Q r j' → ∃ j'' : Joint, j''.store = j'.store ∧ j''.machine = j'.machine ∧
      R r j'') : Follows i x y j R := by
  refine ⟨fun hn hx => (h.ends hn hx).imp_right ?_⟩
  rintro ⟨j', rfl, hq, hy⟩
  obtain ⟨j'', hs, hm, hr⟩ := hQ _ j' hq
  exact ⟨j'', hs, hr, hm ▸ hy⟩

end Regional.Joint

end FlatScope
