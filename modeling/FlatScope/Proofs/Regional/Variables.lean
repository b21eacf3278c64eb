import FlatScope.Proofs.Run.Growth
import FlatScope.Proofs.Regional.World

/-!
# Variables of lowered programs

Reading and writing a variable of a lowered program is reading and writing the location that it
stands for (`World.Matches.get`, `World.Matches.set`); a name from outside of all functions is read
and written in the outermost frame on both sides (`World.Matches.getGlobal`,
`World.Matches.setGlobal`). A call makes a frame with the variables that its roles say
(`World.Matches.enter`), and a closure is a closure of the machine (`World.Matches.close`) or a
wrapper (`World.Matches.wrap`).
-/

namespace FlatScope

open Regional

namespace Frame

variable {f : Frame} {x y : Name} {v : Value}

/-- A name is not in two frames that are like, or it has values that are like. -/
theorem Like.find? {κ : Nat → Option Nat} {g : Frame} (h : f.Like κ g) (x : Name) :
    f.find? x = none ∧ g.find? x = none ∨ ∃ v w : Value, v.Like κ w ∧
      f.find? x = some ⟨some v, false⟩ ∧ g.find? x = some ⟨some w, false⟩ := by
  have hcells := h.cells
  simp only [Frame.find?]
  generalize f.cells = cs, g.cells = ds at hcells
  induction hcells with
  | nil => exact .inl ⟨rfl, rfl⟩
  | @cons c d cs ds hcd _ ih =>
    obtain ⟨n, c⟩ := c
    obtain ⟨n', d⟩ := d
    obtain ⟨rfl, v, w, hv, hc, hd⟩ := hcd
    simp only [List.lookup_cons]
    split
    · exact .inr ⟨v, w, hv, congrArg some hc, congrArg some hd⟩
    · exact ih

theorem Like.update {κ : Nat → Option Nat} {g : Frame} {w : Value} (h : f.Like κ g)
    (hv : v.Like κ w) : (f.update x v).Like κ (g.update x w) where
  left := h.left
  right := h.right
  cells := by
    rw [Frame.update, Frame.update, List.forall₂_map_left_iff, List.forall₂_map_right_iff]
    refine h.cells.imp fun c d hcd => ?_
    obtain ⟨n, c⟩ := c
    obtain ⟨n', d⟩ := d
    obtain ⟨rfl, a, b, hab, rfl, rfl⟩ := hcd
    by_cases hn : n = x
    · simp only [hn, if_true]
      exact ⟨trivial, v, w, hv, rfl, rfl⟩
    · simp only [hn, if_false]
      exact ⟨trivial, a, b, hab, rfl, rfl⟩

theorem Like.mono {κ κ' : Nat → Option Nat} {g : Frame} (h : f.Like κ g)
    (hκ : ∀ {c d}, κ c = some d → κ' c = some d) : f.Like κ' g where
  left := h.left
  right := h.right
  cells := h.cells.imp fun _ _ ⟨hn, v, w, hv, hc, hd⟩ => ⟨hn, v, w, hv.mono hκ, hc, hd⟩

end Frame

namespace Regional.World

variable {w w' : World} {s : Store} {m : Machine} {f g : FrameId} {x : Name} {l : Location}
  {v v' : Value}

namespace Matches

/-! ## Looking up -/

/-- The frames of the store are those that the world knows. -/
theorem frame? (h : w.Matches s m) (hf : f < w.frames) : ∃ fr, s.frames[f]? = some fr := by
  rw [← h.size] at hf
  exact ⟨_, Array.getElem?_eq_getElem hf⟩

/-- The variable with a role. -/
theorem content (h : w.Matches s m) (hf : 0 < f) (hlt : f < w.frames) {ρ : Role}
    (hρ : (x, ρ) ∈ w.host f) :
    ∃ fr v, s.frames[f]? = some fr ∧ fr.find? x = some ⟨some v, false⟩ ∧ w.Fills m f x v ρ := by
  obtain ⟨fr, hfr⟩ := h.frame? hlt
  obtain ⟨v, hv, hfill⟩ := (h.frames hf hfr).cells hρ
  exact ⟨fr, v, hfr, hv, hfill⟩

/-- Where a name is found. -/
theorem find? (h : w.Matches s m) (hs : w.Sees x f g) :
    s.find? x f = (s.frames[g]?.bind (·.find? x)).map fun c => (g, c) := by
  have hfrom : ∀ n, f < n → Store.findFrom s.frames x n f =
      (s.frames[g]?.bind (·.find? x)).map fun c => (g, c) := by
    induction hs with
    | @here f hf hlt hx =>
      intro n hn
      obtain ⟨n, rfl⟩ := Nat.exists_eq_succ_of_ne_zero (Nat.ne_zero_of_lt hn)
      obtain ⟨ρ, hρ⟩ := Roles.exists_of_mem_names hx
      obtain ⟨fr, v, hfr, hv, -⟩ := h.content hf hlt hρ
      simp [Store.findFrom, hfr, hv]
    | @up f g hf hlt hx _ ih =>
      intro n hn
      obtain ⟨n, rfl⟩ := Nat.exists_eq_succ_of_ne_zero (Nat.ne_zero_of_lt hn)
      obtain ⟨fr, hfr⟩ := h.frame? hlt
      have hframe := h.frames hf hfr
      have hnone : fr.find? x = none := by
        by_contra hne
        exact hx (hframe.names x (Option.isSome_iff_ne_none.2 hne))
      have hbefore := hframe.before
      simp only [Store.findFrom, hfr, hnone, hframe.parent]
      exact ih n (Nat.lt_of_lt_of_le hbefore (Nat.le_of_lt_succ hn))
    | top =>
      intro n hn
      obtain ⟨n, rfl⟩ := Nat.exists_eq_succ_of_ne_zero (Nat.ne_zero_of_lt hn)
      obtain ⟨a, b, ha, -, hab⟩ := h.outermost
      cases hx : a.find? x with
      | none => simp [Store.findFrom, ha, hab.left, hx]
      | some c => simp [Store.findFrom, ha, hx]
  exact hfrom _ (Nat.lt_succ_self f)

/-- A variable of the frame itself is found there. -/
theorem find?_here (h : w.Matches s m) (hf : 0 < f) (hlt : f < w.frames) {ρ : Role}
    (hρ : (x, ρ) ∈ w.host f) :
    ∃ v, s.find? x f = some (f, ⟨some v, false⟩) ∧ w.Fills m f x v ρ := by
  obtain ⟨fr, v, hfr, hv, hfill⟩ := h.content hf hlt hρ
  refine ⟨v, ?_, hfill⟩
  rw [h.find? (.here hf hlt (Roles.mem_names hρ)), hfr]
  simp [hv]

theorem find?_at (h : w.Matches s m) (ha : w.At f x l) :
    ∃ v, s.find? x f = some (l.activation, ⟨some v, false⟩) ∧ v.Like w.closure (m.cells l) := by
  obtain ⟨fr, v, hfr, hv, hfill⟩ := h.content ha.positive ha.known ha.role
  refine ⟨v, ?_, hfill⟩
  rw [h.find? ha.sees, hfr]
  simp [hv]

/-- The value of a variable is like that at its location. -/
theorem get (h : w.Matches s m) (ha : w.At f x l) :
    ∃ v, s.get f x = .ok v ∧ v.Like w.closure (m.cells l) := by
  obtain ⟨v, hv, hlike⟩ := h.find?_at ha
  exact ⟨v, by simp [Store.get, hv], hlike⟩

/-- Names that no function declares are found in the outermost frames. -/
theorem find?_global (h : w.Matches s m) (hs : w.Sees x f 0) :
    s.find? x f = none ∧ m.store.find? x 0 = none ∨ ∃ v v' : Value, v.Like w.closure v' ∧
      s.find? x f = some (0, ⟨some v, false⟩) ∧
      m.store.find? x 0 = some (0, ⟨some v', false⟩) := by
  obtain ⟨a, b, ha, hb, hab⟩ := h.outermost
  rw [h.find? hs, ha, Option.bind_some]
  rcases hab.find? x with ⟨hx, hy⟩ | ⟨v, v', hv, hx, hy⟩
  · exact .inl ⟨by simp [hx], by simp [Store.find?, Store.findFrom, hb, hy, hab.right]⟩
  · exact .inr ⟨v, v', hv, by simp [hx], by simp [Store.find?, Store.findFrom, hb, hy]⟩

theorem getGlobal (h : w.Matches s m) (hs : w.Sees x f 0) :
    Value.LikeResult w.closure (s.get f x) (m.store.get 0 x) := by
  rcases h.find?_global hs with ⟨hx, hy⟩ | ⟨v, v', hv, hx, hy⟩
  · simpa [Store.get, hx, hy] using .error _
  · simpa [Store.get, hx, hy] using .ok hv

/-! ## Writing -/

/-- A variable is written, and the locations of the machine change with it. -/
theorem write {m' : Machine} {ρ : Role} (h : w.Matches s m) (hle : w.Le w')
    (hframes : w'.frames = w.frames) (hclosure : w'.closure = w.closure)
    (hwrapper : w'.wrapper = w.wrapper) (hf : 0 < f) (hlt : f < w.frames)
    (hρ : (x, ρ) ∈ w.host f) (hfill : w'.Fills m' f x v ρ)
    (hready : ∀ g y, (g ≠ f ∨ y ≠ x) → w'.ready g y → w.ready g y)
    (hstore : m'.store = m.store) (hact : m'.activations = m.activations)
    (hclosures : m'.closures = m.closures)
    (hcells : ∀ k : Location, (∀ t, ρ = .holds t → k ≠ ⟨f, t⟩) → m'.cells k = m.cells k) :
    w'.Matches (s.write f x v) m' where
  size := by simp [Store.write, h.size, hframes]
  activations := by rw [hact, hframes, h.activations]
  store := by
    rw [hstore, hclosure]
    exact ⟨h.store.size, h.store.elements, h.store.nans, h.store.printed⟩
  outermost := by
    obtain ⟨a, b, ha, hb, hab⟩ := h.outermost
    refine ⟨a, b, ?_, hstore ▸ hb, hclosure ▸ hab⟩
    rw [Store.write, Array.getElem?_modify, if_neg (Nat.ne_of_gt hf)]
    exact ha
  frames := by
    intro g fr hg hfr
    rw [Store.write, Array.getElem?_modify] at hfr
    have hgl : g < w.frames := by
      rw [← h.size]
      by_contra hge
      rw [Array.getElem?_eq_none (Nat.not_lt.1 hge)] at hfr
      split at hfr <;> cases hfr
    obtain ⟨fr₀, hfr₀⟩ := h.frame? hgl
    have hframe := h.frames hg hfr₀
    -- what a variable holds that is not written
    have hother : ∀ {y σ a}, (y, σ) ∈ w.host g → (g ≠ f ∨ y ≠ x) → w.Fills m g y a σ →
        w'.Fills m' g y a σ := by
      intro y σ a hy hne ha
      have hkeep : w.Fills m' g y a σ := by
        cases σ with
        | holds t =>
          change a.Like w.closure (m'.cells ⟨g, t⟩)
          rw [hcells]
          · exact ha
          · rintro u rfl heq
            obtain ⟨rfl, rfl⟩ := Location.mk.inj heq
            exact hne.elim (· rfl) (· (hframe.distinct.injective hy hρ))
        | signal => trivial
        | wrapper => exact ha
      exact hkeep.mono hle (hready g y hne)
    by_cases hgf : f = g
    · subst hgf
      rw [if_pos rfl, hfr₀] at hfr
      obtain rfl := Option.some.inj hfr
      refine ⟨?_, ?_, fun y hy => ?_, fun {y σ} hy => ?_, ?_⟩
      · rw [hle.parent f hlt]
        exact hframe.parent
      · rw [hle.parent f hlt]
        exact hframe.before
      · rw [hle.host f hlt]
        rw [Frame.has_update] at hy
        exact hframe.names y hy
      · rw [hle.host f hlt] at hy
        by_cases hyx : y = x
        · subst hyx
          obtain rfl := hframe.distinct.coherent hρ hy
          obtain ⟨a, ha, -⟩ := hframe.cells hρ
          exact ⟨v, Frame.find?_update_self ha, hfill⟩
        · obtain ⟨a, ha, hold⟩ := hframe.cells hy
          exact ⟨a, by rw [Frame.find?_update_ne hyx, ha], hother hy (.inr hyx) hold⟩
      · rw [hle.host f hlt]
        exact hframe.distinct
    · rw [if_neg hgf, hfr₀] at hfr
      obtain rfl := Option.some.inj hfr
      refine ⟨?_, ?_, fun y hy => ?_, fun {y σ} hy => ?_, ?_⟩
      · rw [hle.parent g hgl]
        exact hframe.parent
      · rw [hle.parent g hgl]
        exact hframe.before
      · rw [hle.host g hgl]
        exact hframe.names y hy
      · rw [hle.host g hgl] at hy
        obtain ⟨a, ha, hold⟩ := hframe.cells hy
        exact ⟨a, ha, hother hy (.inl (Ne.symm hgf)) hold⟩
      · rw [hle.host g hgl]
        exact hframe.distinct
  injective := by
    rw [hclosure]
    exact h.injective
  closures := by
    intro c d hc
    rw [hclosure] at hc
    obtain ⟨C, D, hC, hD, hCD⟩ := h.closures hc
    exact ⟨C, D, hC, hclosures ▸ hD, hCD.mono hle⟩
  wrappers := by
    intro c C hc
    rw [hwrapper] at hc
    exact h.wrappers hc

/-- Assigning to a variable is putting the value at its location. -/
theorem set (h : w.Matches s m) (ha : w.At f x l) (hv : v.Like w.closure v') :
    s.setTarget f x = .ok l.activation ∧ w.Matches (s.write l.activation x v) (m.set l v') := by
  obtain ⟨a, ha', -⟩ := h.find?_at ha
  refine ⟨by simp [Store.setTarget, ha'], ?_⟩
  refine h.write (.refl w) rfl rfl rfl ha.positive ha.known ha.role ?_ (fun _ _ _ => id) rfl rfl
    rfl fun k hk => Machine.set_cells_ne m v' (hk l.slot rfl)
  change v.Like w.closure ((m.set l v').cells l)
  rwa [Machine.set_cells_same]

/-- Assigning to the variable for a signal concerns no location. -/
theorem setSignal (h : w.Matches s m) (hf : 0 < f) (hlt : f < w.frames)
    (hx : (x, .signal) ∈ w.host f) (v : Value) :
    s.setTarget f x = .ok f ∧ w.Matches (s.write f x v) m ∧ (s.write f x v).get f x = .ok v := by
  obtain ⟨a, ha, -⟩ := h.find?_here hf hlt hx
  have hm : w.Matches (s.write f x v) m :=
    h.write (.refl w) rfl rfl rfl hf hlt hx trivial (fun _ _ _ => id) rfl rfl rfl fun _ _ => rfl
  refine ⟨by simp [Store.setTarget, ha], hm, ?_⟩
  obtain ⟨fr, b, hfr, hb, -⟩ := h.content hf hlt hx
  have hfind := hm.find? (.here hf hlt (Roles.mem_names hx))
  rw [Store.write, Array.getElem?_modify, if_pos rfl, hfr, Option.map_some, Option.bind_some,
    Frame.find?_update_self hb] at hfind
  rw [Store.get, Store.write, hfind]
  rfl

/-- Assigning to a name that no function declares. -/
theorem setGlobal (h : w.Matches s m) (hs : w.Sees x f 0) (hv : v.Like w.closure v') :
    (∃ e, s.setTarget f x = .error e ∧ m.store.setTarget 0 x = .error e) ∨
    s.setTarget f x = .ok 0 ∧ m.store.setTarget 0 x = .ok 0 ∧
      w.Matches (s.write 0 x v) { m with store := m.store.write 0 x v' } := by
  rcases h.find?_global hs with ⟨hx, hy⟩ | ⟨a, b, -, hx, hy⟩
  · exact .inl ⟨.unknownName x, by simp [Store.setTarget, hx], by simp [Store.setTarget, hy]⟩
  · refine .inr ⟨by simp [Store.setTarget, hx], by simp [Store.setTarget, hy], ?_⟩
    exact {
      size := by simp [Store.write, h.size]
      activations := h.activations
      store := ⟨h.store.size, h.store.elements, h.store.nans, h.store.printed⟩
      outermost := by
        obtain ⟨g, g', hg, hg', hgg⟩ := h.outermost
        refine ⟨_, _, ?_, ?_, hgg.update (x := x) hv⟩
        · rw [Store.write, Array.getElem?_modify, if_pos rfl, hg]
          rfl
        · simp only [Store.write]
          rw [Array.getElem?_modify, if_pos rfl, hg']
          rfl
      frames := by
        intro g fr hg hfr
        rw [Store.write, Array.getElem?_modify, if_neg (Nat.ne_of_lt hg)] at hfr
        exact ⟨(h.frames hg hfr).parent, (h.frames hg hfr).before, (h.frames hg hfr).names,
          (h.frames hg hfr).cells, (h.frames hg hfr).distinct⟩
      injective := h.injective
      closures := h.closures
      wrappers := h.wrappers }

/-- A step that keeps the stores alike. -/
theorem moves (h : w.Matches s m) {s' t' : Store} (hm : Store.Moves w.closure s m.store s' t') :
    w.Matches s' { m with store := t' } where
  size := by rw [hm.left.1, h.size]
  activations := h.activations
  store := hm.like
  outermost := by
    rw [hm.left.1]
    obtain ⟨a, b, ha, hb, hab⟩ := h.outermost
    exact ⟨a, b, ha, by rw [← hb]; exact congrArg (·[0]?) hm.right.1, hab⟩
  frames := by
    intro f fr hf hfr
    rw [hm.left.1] at hfr
    exact ⟨(h.frames hf hfr).parent, (h.frames hf hfr).before, (h.frames hf hfr).names,
      (h.frames hf hfr).cells, (h.frames hf hfr).distinct⟩
  injective := h.injective
  closures := by
    rw [hm.left.2]
    exact h.closures
  wrappers := by
    rw [hm.left.2]
    exact h.wrappers

/-! ## Making frames -/

theorem positive (h : w.Matches s m) : 0 < w.frames := by
  obtain ⟨a, -, ha, -⟩ := h.outermost
  rw [← h.size]
  exact (Array.getElem?_eq_some_iff.1 ha).1

end Matches

/-- The world with a new frame, whose variables have the given roles, around which is the frame
    `g`. -/
def enter (w : World) (roles : Roles) (g : FrameId) : World :=
  { w with
    frames := w.frames + 1
    host := fun f => if f = w.frames then roles else w.host f
    parent := fun f => if f = w.frames then g else w.parent f
    ready := fun f x => f ≠ w.frames ∧ w.ready f x }

theorem le_enter (w : World) (roles : Roles) (g : FrameId) : w.Le (w.enter roles g) where
  frames := Nat.le_succ _
  host _ hf := if_neg (Nat.ne_of_lt hf)
  parent _ hf := if_neg (Nat.ne_of_lt hf)
  closure := id
  wrapper := id
  ready hf hx := ⟨Nat.ne_of_lt hf, hx⟩

@[simp] theorem enter_host (w : World) (roles : Roles) (g : FrameId) :
    (w.enter roles g).host w.frames = roles := if_pos rfl

@[simp] theorem enter_parent (w : World) (roles : Roles) (g : FrameId) :
    (w.enter roles g).parent w.frames = g := if_pos rfl

/-- The slots of parameters in an activation with the values that they get. -/
def slotValues (f : FrameId) : List Slot → List Value → List (Location × Value)
  | [], _ => []
  | t :: ts, args => (⟨f, t⟩, args.head?.getD .undefined) :: slotValues f ts args.tail

theorem arguments_eq (a : Scoping) (id : ScopeId) (f : FrameId) (ps : List Name)
    (args : List Value) : arguments a id f ps args =
      slotValues f (ps.map fun n => .binding (((a.lookup? id n).map (·.id)).getD 0)) args := by
  induction ps generalizing args with
  | nil => rfl
  | cons p ps ih => rw [arguments, List.map_cons, slotValues, ih]

/-- Only the slots of the parameters change. -/
theorem cells_slotValues {ts : List Slot} {args : List Value} {m : Machine} {k : Location}
    (hk : ∀ t ∈ ts, k ≠ ⟨f, t⟩) : (m.setAll (slotValues f ts args)).cells k = m.cells k := by
  induction ts generalizing args m with
  | nil => rfl
  | cons t ts ih =>
    change ((m.set ⟨f, t⟩ _).setAll (slotValues f ts args.tail)).cells k = _
    rw [ih fun t ht => hk t (List.mem_cons_of_mem _ ht),
      Machine.set_cells_ne m _ (hk t List.mem_cons_self)]

theorem setAll_keeps (ls : List (Location × Value)) (m : Machine) :
    (m.setAll ls).store = m.store ∧ (m.setAll ls).activations = m.activations ∧
      (m.setAll ls).closures = m.closures := by
  induction ls generalizing m with
  | nil => exact ⟨rfl, rfl, rfl⟩
  | cons l ls ih => exact ih _

/-- The parameters of a call are defined in the frame, and their slots are set. -/
theorem bindParams_like {κ : Nat → Option Nat} {qs : List (Name × Slot)} {args args' : List Value}
    (ha : Value.AreLike κ args args') (hnames : (qs.map (·.1)).Nodup)
    (hslots : (qs.map (·.2)).Nodup) {e : Frame} (hnew : ∀ q ∈ qs, e.find? q.1 = none)
    {m : Machine} :
    (∀ q ∈ qs, ∃ v, (Eval.bindParams e (qs.map (·.1)) args).find? q.1 = some ⟨some v, false⟩ ∧
      v.Like κ ((m.setAll (slotValues f (qs.map (·.2)) args')).cells ⟨f, q.2⟩)) ∧
    (∀ y ∉ qs.map (·.1), (Eval.bindParams e (qs.map (·.1)) args).find? y = e.find? y) ∧
    (Eval.bindParams e (qs.map (·.1)) args).parent = e.parent := by
  induction qs generalizing args args' e m with
  | nil => exact ⟨by simp, fun _ _ => rfl, rfl⟩
  | cons q qs ih =>
    obtain ⟨n, t⟩ := q
    rw [List.map_cons, List.nodup_cons] at hnames hslots
    have hn : e.find? n = none := hnew _ List.mem_cons_self
    have hstep : Eval.bindParams e (n :: qs.map (·.1)) args =
        Eval.bindParams (e.add n ⟨some (args.head?.getD .undefined), false⟩) (qs.map (·.1))
          args.tail := by
      rw [Eval.bindParams, if_neg (by simp [Frame.has, hn])]
    obtain ⟨heach, hrest, hparent⟩ := ih (e := e.add n ⟨some (args.head?.getD .undefined), false⟩)
      (m := m.set ⟨f, t⟩ (args'.head?.getD .undefined)) ha.tail hnames.2 hslots.2 fun q hq => by
        rw [Frame.find?_add_ne (by
          intro heq
          exact hnames.1 (heq ▸ List.mem_map_of_mem (f := (·.1)) hq))]
        exact hnew q (List.mem_cons_of_mem _ hq)
    rw [List.map_cons, List.map_cons, hstep]
    refine ⟨fun q hq => ?_, fun y hy => ?_, hparent⟩
    · rcases List.mem_cons.1 hq with rfl | hq
      · refine ⟨_, (hrest n hnames.1).trans (Frame.find?_add_self hn), ?_⟩
        change Value.Like κ _ (((m.set ⟨f, t⟩ _).setAll (slotValues f _ args'.tail)).cells ⟨f, t⟩)
        rw [cells_slotValues, Machine.set_cells_same]
        · exact ha.head
        · rintro u hu heq
          cases heq
          exact hslots.1 hu
      · exact heach q hq
    · rw [List.mem_cons, not_or] at hy
      rw [hrest y hy.2, Frame.find?_add_ne hy.1]

namespace Matches

/-- A call makes a frame on one side and an activation on the other. -/
theorem enter (h : w.Matches s m) {qs : List (Name × Slot)} {rest : Roles} (hg : g < w.frames)
    (hd : Roles.Distinct (qs.map (fun q => (q.1, .holds q.2)) ++ rest))
    (hnames : (qs.map (·.1)).Nodup) {vars : List (Name × Span)}
    (hvars : ∀ x, x ∈ vars.map (·.1) ↔ x ∈ rest.names) {args args' : List Value}
    (ha : Value.AreLike w.closure args args') :
    (w.enter (qs.map (fun q => (q.1, .holds q.2)) ++ rest) g).Matches
      (s.newFrame (Eval.bindVars (Eval.bindParams ⟨some g, []⟩ (qs.map (·.1)) args) vars)).2
      (m.activate.setAll (slotValues w.frames (qs.map (·.2)) args')) := by
  have hslots : (qs.map (·.2)).Nodup := by
    rw [List.Nodup, List.pairwise_map] at hnames ⊢
    refine hnames.imp_of_mem fun {q q'} hq hq' hne heq => hne ?_
    exact hd.injective (List.mem_append_left _ (List.mem_map.2 ⟨q, hq, rfl⟩))
      (List.mem_append_left _ (List.mem_map.2 ⟨q', hq', by rw [heq]⟩))
  obtain ⟨heach, hrest, hparent⟩ := bindParams_like (f := w.frames) (m := m.activate) ha hnames
    hslots (e := ⟨some g, []⟩) fun _ _ => rfl
  have hkeeps := setAll_keeps (slotValues w.frames (qs.map (·.2)) args') m.activate
  -- the cells of other activations stay
  have hcells : ∀ k : Location, k.activation ≠ w.frames →
      (m.activate.setAll (slotValues w.frames (qs.map (·.2)) args')).cells k = m.cells k := by
    intro k hk
    rw [cells_slotValues fun t _ heq => hk (by rw [heq])]
    exact if_neg (h.activations ▸ hk)
  have hle := w.le_enter (qs.map (fun q => (q.1, .holds q.2)) ++ rest) g
  exact {
    size := by simp [Store.newFrame, h.size, World.enter]
    activations := by
      rw [hkeeps.2.1]
      exact congrArg (· + 1) h.activations
    store := by
      rw [hkeeps.1]
      exact ⟨h.store.size, h.store.elements, h.store.nans, h.store.printed⟩
    outermost := by
      obtain ⟨a, b, ha, hb, hab⟩ := h.outermost
      refine ⟨a, b, ?_, by rw [hkeeps.1]; exact hb, hab⟩
      rw [Store.newFrame, Array.getElem?_push, if_neg (Nat.ne_of_lt (h.size ▸ h.positive))]
      exact ha
    frames := by
      intro f fr hf hfr
      rw [Store.newFrame, Array.getElem?_push, h.size] at hfr
      by_cases hfw : f = w.frames
      · subst hfw
        rw [if_pos rfl] at hfr
        obtain rfl := Option.some.inj hfr
        refine ⟨?_, ?_, fun y hy => ?_, fun {y ρ} hy => ?_, ?_⟩
        · rw [Eval.bindVars_parent, hparent, enter_parent]
        · rw [enter_parent]
          exact hg
        · rw [enter_host, Roles.names_append, List.mem_append]
          rw [Frame.has, Eval.find?_bindVars y] at hy
          by_cases hyq : y ∈ qs.map (·.1)
          · obtain ⟨q, hq, rfl⟩ := List.mem_map.1 hyq
            exact .inl (List.mem_map.2 ⟨_, List.mem_map.2 ⟨q, hq, rfl⟩, rfl⟩)
          · rw [hrest y hyq] at hy
            refine .inr ((hvars y).1 ?_)
            by_contra hn
            rw [if_neg hn] at hy
            cases hy
        · rw [enter_host] at hy
          rw [Eval.find?_bindVars y]
          by_cases hyq : y ∈ qs.map (·.1)
          · obtain ⟨q, hq, rfl⟩ := List.mem_map.1 hyq
            obtain ⟨v, hv, hlike⟩ := heach q hq
            obtain rfl := hd.coherent (List.mem_append_left _ (List.mem_map.2 ⟨q, hq, rfl⟩)) hy
            exact ⟨v, by rw [hv], hlike⟩
          · refine ⟨.undefined, ?_, ?_⟩
            · have hyr : y ∈ rest.names := by
                rcases List.mem_append.1 hy with hy | hy
                · obtain ⟨q, hq, heq⟩ := List.mem_map.1 hy
                  exact absurd (List.mem_map.2 ⟨q, hq, (Prod.mk.inj heq).1⟩) hyq
                · exact Roles.mem_names hy
              rw [hrest y hyq]
              exact if_pos ((hvars y).2 hyr)
            · cases ρ with
              | holds t =>
                change Value.Like w.closure .undefined (Machine.cells _ ⟨w.frames, t⟩)
                rw [cells_slotValues]
                · rw [show m.activate.cells ⟨w.frames, t⟩ = .undefined from
                    if_pos h.activations.symm]
                  exact .undefined
                · rintro u hu heq
                  cases heq
                  obtain ⟨q, hq, hqt⟩ := List.mem_map.1 hu
                  obtain rfl := hd.injective hy (List.mem_append_left _
                    (List.mem_map.2 ⟨q, hq, by rw [hqt]⟩))
                  exact hyq (List.mem_map_of_mem hq)
              | signal => trivial
              | wrapper => exact fun hready => absurd rfl hready.1
        · rw [enter_host]
          exact hd
      · rw [if_neg hfw] at hfr
        have hframe := h.frames hf hfr
        have hlt : f < w.frames := by
          rw [← h.size]
          exact (Array.getElem?_eq_some_iff.1 hfr).1
        refine ⟨?_, ?_, fun y hy => ?_, fun {y ρ} hy => ?_, ?_⟩
        · rw [hle.parent f hlt]
          exact hframe.parent
        · rw [hle.parent f hlt]
          exact hframe.before
        · rw [hle.host f hlt]
          exact hframe.names y hy
        · rw [hle.host f hlt] at hy
          obtain ⟨v, hv, hfill⟩ := hframe.cells hy
          refine ⟨v, hv, ?_⟩
          cases ρ with
          | holds t =>
            change Value.Like w.closure v (Machine.cells _ ⟨f, t⟩)
            rw [hcells _ hfw]
            exact hfill
          | signal => trivial
          | wrapper => exact fun hready => hfill hready.2
        · rw [hle.host f hlt]
          exact hframe.distinct
    injective := h.injective
    closures := by
      intro c d hc
      obtain ⟨C, D, hC, hD, hCD⟩ := h.closures hc
      exact ⟨C, D, hC, by rw [hkeeps.2.2]; exact hD, hCD.mono hle⟩
    wrappers := h.wrappers }

end Matches

/-! ## Making closures -/

/-- The world in which the closure `c` of the lowered program is the closure `d` of the machine. -/
def relate (w : World) (c d : Nat) : World :=
  { w with closure := fun k => if k = c then some d else w.closure k }

/-- The world in which the closure `c` of the lowered program is a wrapper. -/
def wrapping (w : World) (c : Nat) (C : FlatScope.Closure) : World :=
  { w with wrapper := fun k => if k = c then some C else w.wrapper k }

namespace Matches

/-- A closure of the lowered program that is one of the machine. -/
theorem close (h : w.Matches s m) {C : FlatScope.Closure} {D : Closure}
    (hCD : w.Represents C D) : ∃ w', w.Le w' ∧ w'.closure s.closures.size = some m.closures.size ∧
      w'.Matches (s.newClosure C).2 (m.newClosure D).2 := by
  -- the numbers of the two new closures were not used before
  have hnew : w.closure s.closures.size = none := by
    cases hc : w.closure s.closures.size with
    | none => rfl
    | some d =>
      obtain ⟨C, -, hC, -⟩ := h.closures hc
      simp at hC
  have hfresh : ∀ c, w.closure c ≠ some m.closures.size := by
    intro c hc
    obtain ⟨-, D, -, hD, -⟩ := h.closures hc
    simp at hD
  have hle : w.Le (w.relate s.closures.size m.closures.size) := by
    refine ⟨Nat.le_refl _, fun _ _ => rfl, fun _ _ => rfl, fun {c d} hc => ?_, id, fun _ => id⟩
    refine (if_neg ?_).trans hc
    rintro rfl
    rw [hnew] at hc
    cases hc
  have hother : ∀ {c d}, (w.relate s.closures.size m.closures.size).closure c = some d →
      c = s.closures.size ∧ d = m.closures.size ∨ w.closure c = some d := by
    intro c d hc
    rw [relate] at hc
    dsimp only at hc
    split at hc
    · exact .inl ⟨‹_›, (Option.some.inj hc).symm⟩
    · exact .inr hc
  refine ⟨_, hle, if_pos rfl, ?_⟩
  exact {
    size := h.size
    activations := h.activations
    store := by
      have := h.store.mono hle.closure
      exact ⟨this.size, this.elements, this.nans, this.printed⟩
    outermost := by
      obtain ⟨a, b, ha, hb, hab⟩ := h.outermost
      exact ⟨a, b, ha, hb, hab.mono hle.closure⟩
    frames := by
      intro f fr hf hfr
      have hframe := h.frames hf hfr
      refine ⟨hframe.parent, hframe.before, hframe.names, fun {x ρ} hx => ?_, hframe.distinct⟩
      obtain ⟨v, hv, hfill⟩ := hframe.cells hx
      refine ⟨v, hv, ?_⟩
      cases ρ with
      | holds t => exact Value.Like.mono hfill hle.closure
      | signal => trivial
      | wrapper => exact hfill
    injective := by
      intro c d e hc hd
      rcases hother hc with ⟨rfl, rfl⟩ | hc
      · rcases hother hd with ⟨rfl, -⟩ | hd
        · rfl
        · exact absurd hd (hfresh d)
      · rcases hother hd with ⟨rfl, rfl⟩ | hd
        · exact absurd hc (hfresh c)
        · exact h.injective hc hd
    closures := by
      intro c d hc
      rcases hother hc with ⟨rfl, rfl⟩ | hc
      · exact ⟨C, D, by simp [Store.newClosure], by simp [Machine.newClosure], hCD.mono hle⟩
      · obtain ⟨C', D', hC, hD, hCD'⟩ := h.closures hc
        have hcl := (Array.getElem?_eq_some_iff.1 hC).1
        have hdl := (Array.getElem?_eq_some_iff.1 hD).1
        refine ⟨C', D', ?_, ?_, hCD'.mono hle⟩
        · rw [Store.newClosure, Array.getElem?_push, if_neg (Nat.ne_of_lt hcl)]
          exact hC
        · rw [Machine.newClosure, Array.getElem?_push, if_neg (Nat.ne_of_lt hdl)]
          exact hD
    wrappers := by
      intro c C' hc
      have hC := h.wrappers hc
      rw [Store.newClosure, Array.getElem?_push,
        if_neg (Nat.ne_of_lt (Array.getElem?_eq_some_iff.1 hC).1)]
      exact hC }

/-- A closure of the lowered program that is a wrapper. -/
theorem wrap (h : w.Matches s m) (C : FlatScope.Closure) :
    ∃ w', w.Le w' ∧ w'.wrapper s.closures.size = some C ∧
      w'.Matches (s.newClosure C).2 m := by
  have hold :
      ∀ {c : Nat} {C'}, s.closures[c]? = some C' → (s.newClosure C).2.closures[c]? = some C' := by
    intro c C' hC
    rw [Store.newClosure, Array.getElem?_push,
      if_neg (Nat.ne_of_lt (Array.getElem?_eq_some_iff.1 hC).1)]
    exact hC
  have hle : w.Le (w.wrapping s.closures.size C) := by
    refine ⟨Nat.le_refl _, fun _ _ => rfl, fun _ _ => rfl, id, fun {c C'} hc => ?_, fun _ => id⟩
    refine (if_neg ?_).trans hc
    exact Nat.ne_of_lt (Array.getElem?_eq_some_iff.1 (h.wrappers hc)).1
  refine ⟨_, hle, if_pos rfl, ?_⟩
  exact {
    size := h.size
    activations := h.activations
    store := ⟨h.store.size, h.store.elements, h.store.nans, h.store.printed⟩
    outermost := h.outermost
    frames := by
      intro f fr hf hfr
      have hframe := h.frames hf hfr
      refine ⟨hframe.parent, hframe.before, hframe.names, fun {x ρ} hx => ?_, hframe.distinct⟩
      obtain ⟨v, hv, hfill⟩ := hframe.cells hx
      exact ⟨v, hv, hfill.mono hle id⟩
    injective := h.injective
    closures := by
      intro c d hc
      obtain ⟨C', D, hC, hD, hCD⟩ := h.closures hc
      exact ⟨C', D, hold hC, hD, hCD.mono hle⟩
    wrappers := by
      intro c C' hc
      rw [wrapping] at hc
      dsimp only at hc
      split at hc
      · rw [‹c = s.closures.size›, ← Option.some.inj hc]
        simp [Store.newClosure]
      · exact hold (h.wrappers hc) }

/-- The variable for the wrapper of a loop gets the wrapper. -/
theorem setWrapper (h : w.Matches s m) (hf : 0 < f) (hlt : f < w.frames) {ps : List Name}
    {code : Block Span} (hx : (x, .wrapper ps code) ∈ w.host f) {c : Nat}
    (hc : w.wrapper c = some ⟨ps, code, f, none⟩) :
    ∃ w', w.Le w' ∧ w'.ready f x ∧ s.setTarget f x = .ok f ∧
      w'.Matches (s.write f x (.closure c)) m := by
  obtain ⟨a, ha, -⟩ := h.find?_here hf hlt hx
  have hle : w.Le { w with ready := fun g y => w.ready g y ∨ g = f ∧ y = x } :=
    ⟨Nat.le_refl _, fun _ _ => rfl, fun _ _ => rfl, id, id, fun _ hr => .inl hr⟩
  refine ⟨_, hle, .inr ⟨rfl, rfl⟩, by simp [Store.setTarget, ha], ?_⟩
  refine h.write hle rfl rfl rfl hf hlt hx (fun _ => ⟨c, rfl, hc⟩) (fun g y hne hr => ?_) rfl rfl
    rfl fun _ _ => rfl
  exact hr.resolve_right fun heq => hne.elim (· heq.1) (· heq.2)

/-- The variable for the wrapper of a loop, once it holds the wrapper. -/
theorem getWrapper (h : w.Matches s m) (hf : 0 < f) (hlt : f < w.frames) {ps : List Name}
    {code : Block Span} (hx : (x, .wrapper ps code) ∈ w.host f) (hr : w.ready f x) :
    ∃ c, s.get f x = .ok (.closure c) ∧ w.wrapper c = some ⟨ps, code, f, none⟩ := by
  obtain ⟨v, hv, hfill⟩ := h.find?_here hf hlt hx
  obtain ⟨c, rfl, hc⟩ := hfill hr
  exact ⟨c, by simp [Store.get, hv], hc⟩

end Matches

end Regional.World

end FlatScope
