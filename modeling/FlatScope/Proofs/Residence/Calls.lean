import FlatScope.Proofs.Regional.Closures
import FlatScope.Proofs.Residence.Statements

/-!
# Calls in both programs

A call makes a frame in the program and an activation in the machine. The parameters hold the
arguments in both (`arguments_agree`), and the variables of the function have their homes at their
slots. As a call takes a step, the machine follows every call of a closure if it follows those that
take fewer steps (`Joint.calls`).
-/

namespace FlatScope

open Process

namespace Regional

variable {a : Scoping} {id : ScopeId} {ps : List Name} {b : Block Mark} {parent : Option ScopeId}
  {d : Binding} {v : Value} {c : Bool}

/-- The parameters of a call are in its activation. -/
theorem activation_of_arguments (g : FrameId) {args : List Value} {q : Location × Value}
    (hq : q ∈ arguments a id g ps args) : q.1.activation = g := by
  induction ps generalizing args with
  | nil => cases hq
  | cons p ps ih =>
    rcases List.mem_cons.1 hq with rfl | hq
    · rfl
    · exact ih hq

/-- The slot of a parameter. -/
def paramSlot (a : Scoping) (id : ScopeId) (n : Name) : Slot :=
  .binding (((a.lookup? id n).map (·.id)).getD 0)

/-- The slot of a parameter is that of a binding of the function. -/
theorem paramSlot_eq (ha : a.Consistent) (ho : a.OpensFunction id ps b parent) {n : Name}
    (hn : n ∈ ps) : ∃ e ∈ a.bindings, e.scope = id ∧ e.name = n ∧
      paramSlot a id n = .binding e.id := by
  obtain ⟨e, he, hs, -⟩ := ho.params n hn
  obtain ⟨hm, hen, -⟩ := ha.of_lookup? he
  refine ⟨e, hm, hs, hen, ?_⟩
  rw [paramSlot, he]
  rfl

/-- No two parameters have one slot, and none has that of another variable. -/
theorem name_of_paramSlot (ha : a.Consistent) (ho : a.OpensFunction id ps b parent) {n : Name}
    (hn : n ∈ ps) (hd : d ∈ a.bindings) (h : paramSlot a id n = .binding d.id) : n = d.name := by
  obtain ⟨e, he, -, rfl, hslot⟩ := paramSlot_eq ha ho hn
  rw [ha.eq_of_id he hd (Slot.binding.inj (hslot.symm.trans h))]

/-- What a variable holds when a call begins is at its slot. -/
theorem arguments_agree {κ : Nat → Option Nat} {m : Machine} {f : FrameId} {args : List Value}
    {vars : List (Name × Span)} (ha : a.Consistent) (ho : a.OpensFunction id ps b parent)
    (hargs : Value.AreLike κ args args) (hd : d ∈ a.bindings) (hs : d.scope = id)
    (hv : (Eval.bindVars (Eval.bindParams ⟨some f, []⟩ ps args) vars).find? d.name =
      some ⟨some v, c⟩) :
    v.Like κ ((m.activate.setAll (arguments a id m.activations ps args)).cells
      ⟨m.activations, .binding d.id⟩) := by
  obtain ⟨qs, hqs⟩ : ∃ qs : List (Name × Slot), qs = ps.map fun n => (n, paramSlot a id n) :=
    ⟨_, rfl⟩
  have hnames : qs.map (·.1) = ps := by
    rw [hqs, List.map_map]
    exact List.map_id ps
  have hslots : qs.map (·.2) = ps.map (paramSlot a id) := by
    rw [hqs, List.map_map]
    rfl
  have hdistinct : (ps.map (paramSlot a id)).Nodup := by
    refine ho.distinct.map_on fun n hn n' hn' heq => ?_
    obtain ⟨e, he, -, rfl, hslot⟩ := paramSlot_eq ha ho hn'
    exact name_of_paramSlot ha ho hn he (heq.trans hslot)
  obtain ⟨heach, hrest, -⟩ := World.bindParams_like (f := m.activations) (m := m.activate)
    (e := ⟨some f, []⟩) hargs (hnames ▸ ho.distinct) (hslots ▸ hdistinct) fun _ _ => rfl
  rw [hnames] at heach hrest
  rw [Eval.find?_bindVars] at hv
  rw [World.arguments_eq]
  by_cases hp : d.name ∈ ps
  · obtain ⟨u, hu, hlike⟩ := heach (d.name, paramSlot a id d.name)
      (hqs ▸ List.mem_map_of_mem (f := fun n => (n, paramSlot a id n)) hp)
    rw [hu] at hv
    cases hv
    obtain ⟨e, he, hes, hen, hslot⟩ := paramSlot_eq ha ho hp
    obtain rfl := ha.eq_of_name he hd hen (hes.trans hs.symm)
    rwa [hslots, hslot] at hlike
  · -- a `var`, which is undefined at first
    rw [hrest _ hp] at hv
    change (if _ then _ else none) = some _ at hv
    split at hv
    · cases hv
      rw [World.cells_slotValues, show m.activate.cells ⟨m.activations, .binding d.id⟩ = .undefined
        from if_pos rfl]
      · exact .undefined
      · rintro t ht heq
        obtain ⟨n, hn, rfl⟩ := List.mem_map.1 ht
        exact hp (name_of_paramSlot ha ho hn hd (Location.mk.inj heq).2.symm ▸ hn)
    · cases hv

namespace Joint

variable {i : Nat} {j j₀ : Joint}

/-- What a function yields that is left by a `return` or by an error. -/
theorem yielded_follows {pl : Place} {r : Except Interrupt Unit} (h : Runs j₀ pl false r j) :
    Follows i (fun _ => yielded r) (fun _ => yielded r) j (Yields j₀) := by
  cases r with
  | ok u => exact .pure (.ok h.agree h.grows .undefined)
  | error w =>
    have hw := h.stop w rfl
    cases w with
    | failed e => exact .interrupt (.error h.agree h.grows ⟨e, rfl⟩)
    | returned v => exact .pure (.ok h.agree h.grows hw)
    | broke => cases hw
    | continued => cases hw.1

/-- The variables of a function are entered into the activation of a call. -/
theorem Matches.call (hj : j.Matches) {args : List Value} {vars : List (Name × Span)} {f : FrameId}
    {fr : Frame} {ls : List (Lexical Span)} (ha : a.Consistent)
    (ho : a.OpensFunction id ps b parent) (hargs : j.HasAll args) (hf : f < j.store.frames.size)
    (hp : fr.parent = some f) (hfr : Eval.bindLexicals
      (Eval.bindVars (Eval.bindParams ⟨some f, []⟩ ps args) vars) ls = .ok fr) :
    ((j.goTo j.store (j.machine.activate.setAll
        (arguments a id j.machine.activations ps args))).enter fr
      (slots a id j.machine.activations) True).Matches ∧
    j.Grows ((j.goTo j.store (j.machine.activate.setAll
        (arguments a id j.machine.activations ps args))).enter fr
      (slots a id j.machine.activations) True) := by
  have hactivations : (j.machine.activate.setAll (arguments a id j.machine.activations ps
      args)).activations = j.machine.activations + 1 := (World.setAll_keeps _ _).2.1
  obtain ⟨hj', hgrows⟩ := hj.leaves (((Leaves.refl j).activate hj).setAll fun q hq =>
    hj.free (Nat.le_of_eq (activation_of_arguments _ hq).symm))
  refine ⟨hj'.enter hp hf (fun {x l} hl => ?_) (fun {x l v c} hl hc => ?_) fun hx hy =>
    slots_injective ha hx hy, hgrows.enter fun {x l} hl => ?_⟩
  · obtain ⟨d, -, -, -, rfl⟩ := hl
    exact ⟨hactivations ▸ Nat.lt_succ_self _, hj.free (Nat.le_refl _)⟩
  · obtain ⟨d, hd, hs, rfl, rfl⟩ := hl
    exact arguments_agree ha ho hargs hd hs (Eval.find?_bindLexicals hfr hc)
  · obtain ⟨d, -, -, -, rfl⟩ := hl
    exact Nat.le_refl _

/-- The machine follows the calls of closures if it follows those that take fewer steps. -/
theorem calls_of_fewer (hc : ∀ k, i = k + 1 → Calls k) : Calls i := by
  intro j C D args hj hCD hargs
  obtain @⟨fn, globals, a, id, m, ps, ss, parent, f, env, span, name, hfn, hsrc, hres, hin, hopens,
    hframe, hknown, hglobal⟩ := hCD
  have ha := hfn.analysed.consistent
  obtain ⟨fr, hfr, hp, hopensFrame, -⟩ := Eval.callFrame_opens
    (c := ⟨ps, .mk span (Stmt.mapList Mark.span ss), f, name⟩) (b := .mk ⟨m.id, span⟩ ss) ha
    ⟨hopens.scope, hopens.distinct, hopens.params, hopens.vars, hopens.lexicals,
      hopens.distinctLexicals⟩ rfl args
  obtain ⟨hj', hgrows⟩ := hj.call ha hopens hargs hframe hp hfr
  refine .step rfl (Eval.callClosure_frame hfr)
    (callClosure_succ ⟨a.scoping, id, ps, ss, env⟩ args) fun i' hi => ?_
  -- the variables of the function are at home, and so is what is used from outside
  have hresides : ((j.goTo j.store (j.machine.activate.setAll
      (arguments a.scoping id j.machine.activations ps args))).enter fr
      (slots a.scoping id j.machine.activations) True).Resides a.scoping id j.store.frames.size
      (env.enter a.scoping id j.machine.activations) (Stmt.nodesOfList ss)
      (Opened id id (ss.filterMap Stmt.lexical? ≠ [])) := by
    refine .of_frame ha Store.getElem?_newFrame_self hopensFrame hp (fun d hd hs => ?_)
      (fun {n d} hd hs => ?_) fun hn hg => (hglobal hn hg).later hgrows.later.toExtends
    · rw [Env.enter_own hfn.analysed hd hs]
      have hown : slots a.scoping id j.machine.activations d.name
        ⟨j.machine.activations, .binding d.id⟩ := ⟨d, hd, hs, rfl, rfl⟩
      refine ⟨fun _ => .inl (.inr ⟨rfl, hown, trivial⟩), fun _ k hk => ?_,
        fun _ => .inr ⟨rfl, hown, trivial⟩⟩
      rcases at_enter.1 hk with hk | ⟨-, hk⟩
      · exact absurd (hj.placed hk).2.1 (Nat.lt_irrefl _)
      · exact (slots_iff ha hd hs).1 hk
    · rw [Env.enter_other hfn.analysed (ha.of_lookup? hd).1 hs]
      have hout : ¬ Opened id id (ss.filterMap Stmt.lexical? ≠ []) d.scope :=
        fun ho => hs (ho.elim (fun h => h) And.right)
      exact ((hknown hd hs).extends hgrows.toExtends).imp (·.resolve_left hout)
        (·.resolve_left hout) (·.usedIn)
  have hstays : ((j.goTo j.store (j.machine.activate.setAll
      (arguments a.scoping id j.machine.activations ps args))).enter fr
      (slots a.scoping id j.machine.activations) True).Stays a.scoping
      ⟨j.machine.activations, false, []⟩ (Stmt.nodesOfList ss) := by
    refine (Stays.fresh hj (Nat.le_refl _) ?_ false).enter (fun y hy =>
        ⟨(hy : y ∈ Stmt.nodesOfList ss), Nat.ne_of_lt (hin y hy).2⟩) (fun {x l} hl => ?_)
      fun hl d hd hid => scope_of_slots ha hl hd hid
    · rw [(World.setAll_keeps _ _).2.1]
      exact Nat.lt_succ_self _
    · obtain ⟨d, -, -, -, rfl⟩ := hl
      rfl
  have hbody := stmts_follows hfn (hc i' hi) hsrc hres hin hj' hresides hstays
  refine .leads (.of_eq fun n => ?_) (.of_eq fun n => ?_) ((hbody.andThen (fun r j'' hr =>
    yielded_follows hr) ?_).before hgrows)
  · rfl
  · rfl
  · rintro n r s ⟨x, rfl⟩
    exact ⟨_, ⟨x, rfl⟩, rfl⟩

/-- The machine follows the calls of closures. -/
theorem calls (i : Nat) : Calls i := by
  induction i with
  | zero =>
    refine calls_of_fewer fun k hk => ?_
    cases hk
  | succ i ih =>
    refine calls_of_fewer fun k hk => ?_
    obtain rfl := Nat.succ.inj hk
    exact ih

end Joint

end Regional

end FlatScope
