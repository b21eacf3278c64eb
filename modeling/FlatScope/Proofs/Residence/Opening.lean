import FlatScope.Proofs.Regional.Standing
import FlatScope.Proofs.Residence.Entering

/-!
# Opening scopes

The names of a scope mean variables that reside where the environment says if those of the scope
around it do, and the frame of the scope has its variables (`Resides.of_frame`, `Resides.enter`).
The variables of a function or block get the slots of their bindings in the activation that the code
runs in (`Joint.slots`). They are free, because nothing resides in an activation but what is around
the code (`Joint.Stays`).
-/

namespace FlatScope

open Process

/-- The binding that a slot is for. -/
def Slot.id : Slot → BindingId
  | .binding b | .driver b => b

namespace Regional

/-- The machine stays in an activation, where nothing resides that belongs to a scope among the
    nodes. When the activation is left, something free is written back to. -/
structure Joint.Stays (j : Joint) (a : Scoping) (pl : Place) (ns : List (Node Mark)) : Prop where
  known : pl.activation < j.machine.activations
  clear : ∀ {f x l}, j.At f x l → l.activation = pl.activation → ∀ d ∈ a.bindings,
    d.id = l.slot.id → ∀ y ∈ ns, d.scope ≠ y.mark.id
  writeBacks : ∀ q ∈ pl.writeBacks, pl.writeBacks = [q] ∧ q.1.activation < pl.activation ∧
    j.Free q.1

namespace Joint

variable {j j' : Joint} {a : Scoping} {fs sc id : ScopeId} {f g p : FrameId} {x y n : Name}
  {k l : Location} {env env' : Env} {ns ms : List (Node Mark)} {opened opened' : ScopeId → Prop}
  {fr : Frame} {m : Machine} {sites : Name → Location → Prop} {kept : Prop} {d : Binding}
  {kind : ScopeKind} {parent : Option ScopeId} {names : List Name → Prop} {pl : Place}

/-! ## Slots -/

/-- The variables of a scope at their slots in an activation. -/
def slots (a : Scoping) (id : ScopeId) (g : FrameId) (x : Name) (l : Location) : Prop :=
  ∃ d ∈ a.bindings, d.scope = id ∧ d.name = x ∧ l = ⟨g, .binding d.id⟩

/-- The slot of a binding is where its variable is. -/
theorem slots_iff (ha : a.Consistent) (hd : d ∈ a.bindings) (hs : d.scope = id) :
    slots a id g d.name l ↔ l = ⟨g, .binding d.id⟩ := by
  constructor
  · rintro ⟨e, he, hes, hen, rfl⟩
    rw [ha.eq_of_name he hd hen (hes.trans hs.symm)]
  · rintro rfl
    exact ⟨d, hd, hs, rfl, rfl⟩

/-- No two variables have one slot. -/
theorem slots_injective (ha : a.Consistent) (hx : slots a id g x l) (hy : slots a id g y l) :
    x = y := by
  obtain ⟨d, hd, -, rfl, rfl⟩ := hx
  obtain ⟨e, he, -, rfl, hl⟩ := hy
  rw [ha.eq_of_id hd he (by simpa using hl)]

/-- A slot of a scope is for a binding of the scope. -/
theorem scope_of_slots (ha : a.Consistent) (hx : slots a id g x l) (hd : d ∈ a.bindings)
    (hid : d.id = l.slot.id) : d.scope = id := by
  obtain ⟨e, he, hs, -, rfl⟩ := hx
  rw [ha.eq_of_id hd he hid, hs]

/-! ## Staying in an activation -/

namespace Stays

/-- The machine stays in the activation later. -/
theorem grows (h : j.Stays a pl ns) (hj : j.Grows j') : j'.Stays a pl ns where
  known := Nat.lt_of_lt_of_le h.known hj.activations
  clear hl hact := h.clear (hj.at_before (hact ▸ h.known) hl) hact
  writeBacks q hq := by
    obtain ⟨hone, hlt, hfree⟩ := h.writeBacks q hq
    exact ⟨hone, hlt, hj.free (Nat.lt_trans hlt h.known) hfree⟩

/-- Less code runs in the activation. -/
theorem sub (h : j.Stays a pl ns) (hns : ∀ y ∈ ms, y ∈ ns) : j.Stays a pl ms :=
  ⟨h.known, fun hl hact d hd hid y hy => h.clear hl hact d hd hid y (hns y hy), h.writeBacks⟩

/-- It does not matter whether a loop is around the code. -/
theorem inLoop (h : j.Stays a pl ns) (b : Bool) : j.Stays a { pl with inLoop := b } ns :=
  ⟨h.known, h.clear, h.writeBacks⟩

/-- The slots of a scope among the nodes are free. -/
theorem free (h : j.Stays a pl ns) (hl : l.activation = pl.activation) (hd : d ∈ a.bindings)
    (hid : d.id = l.slot.id) (hs : ∃ y ∈ ns, y.mark.id = d.scope) : j.Free l := by
  obtain ⟨y, hy, hys⟩ := hs
  exact fun _ _ hat => h.clear hat hl d hd hid y hy hys.symm

/-- A new activation that has nothing to write back. -/
theorem fresh (hj : j.Matches) (hg : j.machine.activations ≤ g) (hlt : g < m.activations)
    (b : Bool) : (j.goTo j.store m).Stays a ⟨g, b, []⟩ ns where
  known := hlt
  clear hl hact := absurd hl (hj.free (hact ▸ hg) _ _)
  writeBacks := by simp

/-- A frame for a scope around the nodes is entered. -/
theorem enter (h : j.Stays a pl ns) (hns : ∀ y ∈ ms, y ∈ ns ∧ id ≠ y.mark.id)
    (hact : ∀ {x l}, sites x l → l.activation = pl.activation)
    (hscope : ∀ {x l}, sites x l → ∀ d ∈ a.bindings, d.id = l.slot.id → d.scope = id) :
    (j.enter fr sites kept).Stays a pl ms where
  known := h.known
  clear hl hpl d hd hid y hy := by
    rcases at_enter.1 hl with hl | ⟨-, hl⟩
    · exact h.clear hl hpl d hd hid y (hns y hy).1
    · rw [hscope hl d hd hid]
      exact (hns y hy).2
  writeBacks q hq := by
    obtain ⟨hone, hlt, hfree⟩ := h.writeBacks q hq
    refine ⟨hone, hlt, fun f x hat => ?_⟩
    rcases at_enter.1 hat with hat | ⟨-, hat⟩
    · exact hfree f x hat
    · exact absurd (hact hat) (Nat.ne_of_lt hlt)

end Stays

/-! ## Frames and scopes -/

/-- The names of a scope, in a frame that has the variables of the scope. -/
theorem Resides.of_frame (ha : a.Consistent) (hg : j.store.frames[g]? = some fr)
    (hopens : fr.Opens a id) (hp : fr.parent = some f)
    (hown : ∀ d ∈ a.bindings, d.scope = id →
      (opened id ∨ a.UsedIn d.id ns → j.At g d.name (env d.id)) ∧
      (opened id ∨ a.WrittenIn d.id ns → ∀ k, j.At g d.name k → k = env d.id) ∧
      (a.ClosesOver ns d.id → j.home g d.name (env d.id)))
    (hout : ∀ {n d}, a.lookup? id n = some d → d.scope ≠ id → j.Holds f d (env d.id)
      (opened d.scope ∨ a.UsedIn d.id ns) (opened d.scope ∨ a.WrittenIn d.id ns)
      (a.ClosesOver ns d.id))
    (hglobal : ∀ {n}, a.lookup? id n = none → n ∈ a.globalsUsed → j.store.Misses n f) :
    j.Resides a id g env ns opened where
  frame := Store.lt_of_frame hg
  known {n d} hd := by
    obtain ⟨hdm, rfl, -⟩ := ha.of_lookup? hd
    by_cases hs : d.scope = id
    · have hhas := (hopens.names d.name).2 ⟨d, hd, hs⟩
      obtain ⟨c, hc⟩ := Option.isSome_iff_exists.1 hhas
      obtain ⟨hat, hset, hhome⟩ := hown d hdm hs
      exact ⟨g, c, .here hg hhas, by rw [Store.cell?, hg]; exact hc, hopens.consts hd hs hc,
        hs ▸ hat, hs ▸ hset, hhome⟩
    · obtain ⟨h, c, hfinds, hh⟩ := hout hd hs
      refine ⟨h, c, .up hg ?_ hp hfinds, hh⟩
      rw [Bool.eq_false_iff, Ne, hopens.names]
      rintro ⟨e, he, hes⟩
      exact hs (Option.some.inj (hd.symm.trans he) ▸ hes)
  global {n} hn hu := by
    refine .up hg ?_ hp (hglobal hn hu)
    rw [Bool.eq_false_iff, Ne, hopens.names]
    rintro ⟨d, hd, -⟩
    rw [hn] at hd
    cases hd

/-- The names of a scope inside of another one. -/
theorem Resides.inner (h : j.Resides a sc f env ms opened) (ha : a.Consistent)
    (ho : a.Opens id kind (some sc) names) (hg : j.store.frames[g]? = some fr)
    (hopens : fr.Opens a id) (hp : fr.parent = some f) (hns : ∀ y ∈ ns, y ∈ ms)
    (hopened : ∀ s, s ≠ id → opened' s → opened s)
    (hsame : ∀ d ∈ a.bindings, d.scope ≠ id → env' d.id = env d.id)
    (hown : ∀ d ∈ a.bindings, d.scope = id →
      (opened' id ∨ a.UsedIn d.id ns → j.At g d.name (env' d.id)) ∧
      (opened' id ∨ a.WrittenIn d.id ns → ∀ k, j.At g d.name k → k = env' d.id) ∧
      (a.ClosesOver ns d.id → j.home g d.name (env' d.id))) :
    j.Resides a id g env' ns opened' := by
  refine .of_frame ha hg hopens hp hown (fun {n d} hd hs => ?_)
    fun hn hu => h.global (ha.lookup?_outer ho hn) hu
  rw [hsame d (ha.of_lookup? hd).1 hs]
  exact (h.known ((ha.of_lookup?_inner ho hd).resolve_left hs)).imp
    (Or.imp (hopened _ hs) (·.mono hns)) (Or.imp (hopened _ hs) (·.mono hns)) (·.mono hns)

/-- The names of a scope for which a frame is made inside of another one. -/
theorem Resides.enter (h : j.Resides a sc f env ms opened) (hj : j.Matches) (ha : a.Consistent)
    (ho : a.Opens id kind (some sc) names) (hopens : fr.Opens a id) (hp : fr.parent = some f)
    (hns : ∀ y ∈ ns, y ∈ ms) (hopened : ∀ s, s ≠ id → opened' s → opened s)
    (hsame : ∀ d ∈ a.bindings, d.scope ≠ id → env' d.id = env d.id)
    (hsites : ∀ d ∈ a.bindings, d.scope = id → ∀ k, sites d.name k ↔ k = env' d.id)
    (hkept : ∀ d ∈ a.bindings, d.scope = id → a.ClosesOver ns d.id → kept) :
    (j.enter fr sites kept).Resides a id j.store.frames.size env' ns opened' := by
  have hnew {x k} : (j.enter fr sites kept).At j.store.frames.size x k ↔ sites x k :=
    at_enter.trans ⟨fun hk => hk.elim (fun hk => absurd (hj.placed hk).2.1 (Nat.lt_irrefl _))
      And.right, fun hk => .inr ⟨rfl, hk⟩⟩
  have hout : (j.enter fr sites kept).Resides a sc f env ms opened := h.extends {
    later := .newFrame j.store fr
    home := fun hf => or_iff_left fun hn => Nat.ne_of_lt hf hn.1
    lodging := fun hf => or_iff_left fun hn => Nat.ne_of_lt hf hn.1 }
  refine hout.inner ha ho Store.getElem?_newFrame_self hopens hp hns hopened hsame
    fun d hd hs => ⟨fun _ => hnew.2 ((hsites d hd hs _).2 rfl), fun _ k hk =>
      (hsites d hd hs k).1 (hnew.1 hk), fun hc => .inr ⟨rfl, (hsites d hd hs _).2 rfl,
      hkept d hd hs hc⟩⟩

end Joint

end Regional

end FlatScope
