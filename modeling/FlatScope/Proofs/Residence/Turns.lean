import FlatScope.Proofs.Residence.Blocks

/-!
# Iterations in both programs

The program makes a frame for every iteration of a loop with a variable. As long as no wrapper has
the variable for a parameter, it lodges in the activation around the loop, at the driver if there is
one (`Joint.Turn`), and so does the variable of the next frame, which is a copy (`Turned.copy`).

A wrapper that has the variable for a parameter becomes its home when the body is entered
(`Joint.moved`). It stays at the driver, too, if the body does not assign to it. So at the end of
the body the driver has its content in any case: the wrapper has written it back, or it did not
change (`Joint.Looping.paramBody_follows`).
-/

namespace FlatScope

open Process

/-- Only parameters of the wrapper of a loop are written back. -/
theorem Scoping.fresh_of_writeBackOf {a : Scoping} {loop : NodeId} {h : Header Mark}
    {b : Block Mark} {i : BindingId} (hi : i ∈ a.writeBackOf loop h b) : i ∈ a.freshOf loop h := by
  rw [writeBackOf] at hi
  split at hi
  · exact (List.mem_filter.1 hi).1
  · cases hi

namespace Regional.Joint

variable {fn : FunctionDef Mark} {globals : List Name} {a : Analysis} {i : Nat} {j j₀ : Joint}
  {f : FrameId} {fs sc : ScopeId} {env : Env} {pl : Place} {jumps : Bool} {m b : Mark}
  {hd : Header Mark} {ss : List (Stmt Mark)} {kept : Prop}

/-! ## The variable of a loop -/

/-- The binding `d` is the only one in the header of a loop, and there it is at the location `l`. -/
structure Heads (a : Scoping) (loop sc : ScopeId) (pl : Place) (env env' : Env) (d : Binding)
    (l : Location) : Prop where
  mem : d ∈ a.bindings
  scope : d.scope = loop
  alone : ∀ e ∈ a.bindings, e.scope = loop → e = d
  opens : a.Opens loop .loop (some sc) (· = [d.name])
  activation : l.activation = pl.activation
  slot : l.slot.id = d.id
  own : env' d.id = l
  other : ∀ e ∈ a.bindings, e.scope ≠ loop → env' e.id = env e.id

/-- The binding of the header of a loop. -/
theorem heads (h : fn.Analysed globals a) (ho : a.scoping.OpensLoop m.id hd sc) {l : Lexical Mark}
    (hl : Resolve.headerLexical? hd = some l) (pl : Place) (env : Env) (c : Block Mark) :
    ∃ d k, d.name = l.name ∧ a.scoping.declared? l.mark.id = some d ∧ d.origin = .header l.kind ∧
      Heads a.scoping m.id sc pl env (Loop.headerEnv ⟨m, hd, c⟩ a.scoping pl env) d k ∧
      (Loop.fresh ⟨m, hd, c⟩ a.scoping = [] ∨
        Loop.fresh ⟨m, hd, c⟩ a.scoping = [d.id] ∧ k = ⟨pl.activation, .driver d.id⟩) := by
  obtain ⟨d, hdm, hdecl, hname, hscope, horigin, hids⟩ := h.of_header ho hl
  have hown : Loop.headerEnv ⟨m, hd, c⟩ a.scoping pl env d.id =
      if d.id ∈ Loop.fresh ⟨m, hd, c⟩ a.scoping then ⟨pl.activation, .driver d.id⟩
      else ⟨pl.activation, .binding d.id⟩ := by
    rw [Loop.headerEnv, Env.header, if_pos ⟨by rw [hl]; rfl, by simp [hids]⟩]
  refine ⟨d, _, hname, hdecl, horigin, ⟨hdm, hscope, fun e he hes => ?_, hname ▸ (ho l hl).1, ?_,
    ?_, rfl, fun e he hes => Env.header_other h he fun _ => hes⟩, ?_⟩
  · have hmem := h.consistent.mem_bindingIdsOf.2 ⟨e, he, rfl, hes⟩
    rw [hids, List.mem_singleton] at hmem
    exact h.eq_of_id he hdm hmem
  · rw [hown]
    split <;> rfl
  · rw [hown]
    split <;> rfl
  · rw [hown, Loop.fresh]
    cases a.scoping.loopWrapper? m.id c with
    | none => exact .inl rfl
    | some w =>
      rw [Scoping.freshOf, hl, hids]
      by_cases hp : a.scoping.isPerIteration d.id
      · exact .inr (by simp [hp])
      · exact .inl (by simp [hp])

/-! ## Frames of iterations -/

/-- An iteration of a loop has a frame of its own, whose lodgers move out in the end. -/
structure Turned (j₀ j : Joint) (a : Scoping) (f g : FrameId) (loop : ScopeId) : Prop where
  agree : j.Matches
  grows : j₀.Grows (j.forget g)
  new : j₀.store.frames.size ≤ g
  frame : ∃ fr, j.store.frames[g]? = some fr ∧ fr.parent = some f ∧ fr.Opens a loop

/-- The variable of the frame lodges at the location. -/
structure Turn (j₀ j : Joint) (a : Scoping) (f g : FrameId) (loop : ScopeId) (n : Name)
    (l : Location) : Prop extends j₀.Turned j a f g loop where
  lodges : j.lodging g n l
  only : ∀ {x k}, j.lodging g x k → k = l
  homeless : ∀ k, ¬ j.home g n k

/-- The content of the variable is at the location. -/
def Carries (j : Joint) (g : FrameId) (n : Name) (l : Location) : Prop :=
  ∀ {v c}, j.store.cell? g n = some ⟨some v, c⟩ → v.Like j.closure (j.machine.cells l)

variable {g : FrameId} {n : Name} {l : Location} {loop : ScopeId} {sco : Scoping}

namespace Turned

variable {j' : Joint}

/-- The frames from before the loop are as they were. -/
theorem since (h : j₀.Turned j sco f g loop) : j₀.Extends j where
  later := h.grows.later
  home hf := h.grows.home hf
  lodging hf := (and_iff_right (Nat.ne_of_lt (Nat.lt_of_lt_of_le hf h.new))).symm.trans
    (h.grows.lodging hf)

/-- The frame is one of the iteration later, too. -/
theorem later (h : j₀.Turned j sco f g loop) (hj' : j'.Matches) (hle : j.Grows j') :
    j₀.Turned j' sco f g loop :=
  ⟨hj', h.grows.forget hle, h.new, Store.opens_later hle.later h.frame⟩

end Turned

/-- The variable lodges where it did. -/
theorem Turn.later {j' : Joint} (h : j₀.Turn j sco f g loop n l) (hj' : j'.Matches)
    (hle : j.Grows j') : j₀.Turn j' sco f g loop n l := by
  have hlt : g < j.store.frames.size := by
    obtain ⟨fr, hfr, -⟩ := h.frame
    exact Store.lt_of_frame hfr
  exact ⟨h.toTurned.later hj' hle, (hle.lodging hlt).2 h.lodges, fun hk =>
    h.only ((hle.lodging hlt).1 hk), fun k hk => h.homeless k ((hle.home hlt).1 hk)⟩

/-- The content of a lodger is at its location. -/
theorem Turn.carries (h : j₀.Turn j sco f g loop n l) : j.Carries g n l :=
  fun hc => h.agree.agrees (.inr h.lodges) hc

/-- A frame for an iteration is entered. -/
theorem Turn.enter {fr : Frame} (hj : j.Matches) (hle : j₀.Grows j) (hp : fr.parent = some f)
    (hf : f < j.store.frames.size) (ho : fr.Opens sco loop)
    (hl : l.activation < j₀.machine.activations) (hfree : j₀.Free l)
    (hagrees : ∀ {v c}, fr.find? n = some ⟨some v, c⟩ → v.Like j.closure (j.machine.cells l)) :
    j₀.Turn (j.enter fr (fun x k => x = n ∧ k = l) False) sco f j.store.frames.size loop n l where
  agree := by
    refine hj.enter hp hf (fun {x k} hk => ?_) (fun {x k v c} hk hc => ?_) fun hx hy => ?_
    · rw [hk.2]
      exact ⟨Nat.lt_of_lt_of_le hl hle.activations, hle.free hl hfree⟩
    · rw [hk.2]
      exact hagrees (hk.1 ▸ hc)
    · exact hx.1.trans hy.1.symm
  grows := hle.enter_forget False.elim
  new := hle.later.size_le
  frame := ⟨fr, Store.getElem?_newFrame_self, hp, ho⟩
  lodges := .inr ⟨rfl, ⟨rfl, rfl⟩, not_false⟩
  only hk := by
    rcases hk with hk | ⟨-, hk, -⟩
    · exact absurd (hj.placed (.inr hk)).2.1 (Nat.lt_irrefl _)
    · exact hk.2
  homeless k hk := by
    rcases hk with hk | ⟨-, -, hk⟩
    · exact Nat.lt_irrefl _ (hj.placed (.inl hk)).2.1
    · exact hk

/-- The frame of the next iteration is a copy. -/
theorem Turned.copy (h : j₀.Turned j sco f g loop) (hc : j.Carries g n l)
    (hf : f < j₀.store.frames.size) (hl : l.activation < j₀.machine.activations)
    (hfree : j₀.Free l) : ∃ g' j', j.store.copy g = (g', j'.store) ∧ j'.machine = j.machine ∧
      j₀.Turn j' sco f g' loop n l := by
  obtain ⟨fr, hfr, hp, ho⟩ := h.frame
  refine ⟨_, _, ?_, ?_, Turn.enter (h.agree.forget g) h.grows hp (h.grows.later.lt hf) ho hl hfree
    fun hx => hc (by rw [Store.cell?, hfr]; exact hx)⟩
  · rw [Store.copy, hfr]
    rfl
  · rfl

/-! ## Names in iterations -/

section Heads

variable {d : Binding} {env' : Env} {ns ms : List (Node Mark)} {opened opened' : ScopeId → Prop}

/-- The names in the header of a loop. -/
theorem Turn.resides (h : j₀.Turn j sco f g loop d.name l) (ha : sco.Consistent)
    (H : Heads sco loop sc pl env env' d l) (hs : j₀.Resides sco sc f env ms opened)
    (hns : ∀ y ∈ ns, y ∈ ms) (hopened : ∀ s, s ≠ loop → opened' s → opened s)
    (hc : ¬ sco.ClosesOver ns d.id) : j.Resides sco loop g env' ns opened' := by
  obtain ⟨fr, hfr, hp, ho⟩ := h.frame
  refine (hs.extends h.since).inner ha H.opens hfr ho hp hns hopened H.other fun e he hes => ?_
  obtain rfl := H.alone e he hes
  rw [H.own]
  exact ⟨fun _ => .inr h.lodges, fun _ k hk => hk.elim (fun hk => absurd hk (h.homeless k)) h.only,
    fun hc' => absurd hc' hc⟩

/-- The machine stays where it is. -/
theorem Turn.stays (h : j₀.Turn j sco f g loop d.name l) (ha : sco.Consistent)
    (H : Heads sco loop sc pl env env' d l) (hst : j₀.Stays sco pl ms)
    (hns : ∀ y ∈ ns, y ∈ ms ∧ loop ≠ y.mark.id) : j.Stays sco pl ns := by
  -- what resides in the frame of the iteration is the variable alone
  have hold := (hst.sub fun y hy => (hns y hy).1).grows h.grows
  have hat {p : FrameId} {x : Name} {k : Location} (hk : j.At p x k) :
      (j.forget g).At p x k ∨ k = l := by
    rcases hk with hk | hk
    · exact .inl (.inl hk)
    · by_cases hp : p = g
      · exact .inr (h.only (hp ▸ hk))
      · exact .inl (.inr ⟨hp, hk⟩)
  refine ⟨hold.known, fun {p x k} hk hact e he hid y hy => ?_, fun q hq => ?_⟩
  · rcases hat hk with hk | rfl
    · exact hold.clear hk hact e he hid y hy
    · rw [ha.eq_of_id he H.mem (hid.trans H.slot), H.scope]
      exact (hns y hy).2
  · obtain ⟨hone, hlt, hfree⟩ := hold.writeBacks q hq
    refine ⟨hone, hlt, fun p x hk => ?_⟩
    rcases hat hk with hk | hk
    · exact hfree p x hk
    · exact Nat.ne_of_lt (hk ▸ hlt) H.activation

end Heads

/-! ## Bodies -/

/-- A loop of a settled function, in the scope `sc`. The machine follows its body. -/
structure Looping (i : Nat) (fn : FunctionDef Mark) (globals : List Name) (a : Analysis)
    (fs sc : ScopeId) (m : Mark) (hd : Header Mark) (b : Mark) (ss : List (Stmt Mark)) : Prop where
  settled : fn.Settled globals a
  source : hd.IsSource
  within : ∀ y ∈ (Stmt.loop m hd (.mk b ss)).nodes, y ∈ fn.nodes ∧ fs < y.mark.id
  loop : a.scoping.HasLoop m.id hd (.mk b ss) sc
  opens : a.scoping.OpensLoop m.id hd sc
  header : a.scoping.ResolvedHeader globals fs sc m.id hd
  block : a.scoping.OpensBlock (.mk b ss) (hd.scopeIn m.id sc)
  followed : Followed i a.scoping fs ((Block.mk b ss).scopeIn (hd.scopeIn m.id sc))
    ((Block.mk b ss).lexicals ≠ []) true (Stmt.nodesOfList ss)
    (fun f n => Eval.stmts n (Stmt.mapList Mark.span ss) f)
    fun pl env k => stmts k a.scoping ss pl env

namespace Looping

variable {y : Node Mark}

theorem node (L : Looping i fn globals a fs sc m hd b ss) :
    .stmt (.loop m hd (.mk b ss)) ∈ fn.nodes := (L.within _ List.mem_cons_self).1

theorem mem_header (h : y ∈ hd.nodes) : y ∈ (Stmt.loop m hd (.mk b ss)).nodes :=
  List.mem_cons_of_mem _ (List.mem_append_left _ h)

theorem mem_body (h : y ∈ (Block.mk b ss).nodes) : y ∈ (Stmt.loop m hd (.mk b ss)).nodes :=
  List.mem_cons_of_mem _ (List.mem_append_right _ h)

/-- The scope of the loop comes before what is in the body. -/
theorem body_lt (L : Looping i fn globals a fs sc m hd b ss) (h : y ∈ (Block.mk b ss).nodes) :
    m.id < y.mark.id :=
  L.settled.analysed.lt_below L.node (List.mem_append_right _ h)

theorem body_within (L : Looping i fn globals a fs sc m hd b ss) :
    ∀ y ∈ (Block.mk b ss).nodes, y ∈ fn.nodes := fun y hy => (L.within y (mem_body hy)).1

/-- The body of a loop, none of whose bindings is a parameter. -/
theorem sharedBody_follows (L : Looping i fn globals a fs sc m hd b ss)
    (hfresh : Loop.fresh ⟨m, hd, .mk b ss⟩ a.scoping = []) (hj : j.Matches)
    (hs : j.Resides a.scoping (hd.scopeIn m.id sc) f
      (Loop.headerEnv ⟨m, hd, .mk b ss⟩ a.scoping pl env) (Block.mk b ss).nodes (· = fs))
    (hst : j.Stays a.scoping pl (Block.mk b ss).nodes) :
    Follows i (fun n => Eval.block n (.mk b.span (Stmt.mapList Mark.span ss)) f)
      (fun k => body k a.scoping ⟨m, hd, .mk b ss⟩ pl env) j
      (Runs j { pl with inLoop := true } true) := by
  have hfn := L.settled
  have hin := L.body_within
  cases hw : a.scoping.loopWrapper? m.id (.mk b ss) with
  | none =>
    refine .right (k := j) (.step rfl fun k => ?_) rfl (block_follows False _ hfn L.block
      hin L.followed (fun hne d hd hds hc => ?_) hj (.refl hj) False.elim hs (hst.inLoop true))
    · rw [body, hw]
      rfl
    · refine hfn.not_closes hd (hfn.analysed.of_plainLoop L.node L.loop L.opens L.block hw hd
        (.inr ⟨hne, hds⟩)).2 (fun y hy => ?_) hc
      rw [hds]
      exact within_block hfn.analysed hin y hy
  | some w =>
    have hback (g : FrameId) : Loop.writeBacks ⟨m, hd, .mk b ss⟩ a.scoping pl g = [] := by
      rw [Loop.writeBacks, List.map_eq_nil_iff, List.eq_nil_iff_forall_not_mem]
      intro d hd
      rw [Loop.fresh, hw] at hfresh
      have := Scoping.fresh_of_writeBackOf hd
      rw [show a.scoping.freshOf m.id _ = [] from hfresh] at this
      cases this
    obtain ⟨hj', hgrows⟩ := hj.activate
    have hrun := (block_follows True ⟨j.machine.activations, false, []⟩ hfn
      L.block hin L.followed (fun _ _ _ _ _ => trivial) hj' hgrows (fun _ => Nat.le_refl _)
      (hs.extends hgrows.toExtends)
      (.fresh hj (Nat.le_refl _) (Nat.lt_succ_self _) false)).handed hst (by simp)
    refine .right (k := j.goTo j.store j.machine.activate) (.step rfl fun k => ?_) rfl
      (hrun.imp fun _ _ hr => hr.1)
    rw [body, hw]
    change dispatch pl true _ (Machine.copyAll _ (Loop.parameters _ _ _ _)) = _
    rw [hback, Loop.parameters, hfresh]
    rfl

end Looping

/-! ## Parameters -/

/-- In a new activation, the variable of an iteration gets a home, which has its content. If it
    `stays`, it lodges where it did, too. -/
def moved (j : Joint) (g : FrameId) (n : Name) (l p : Location) (stays : Prop) : Joint :=
  (j.goTo j.store (j.machine.activate.set p (j.machine.cells l))).settle g n p stays

section Moved

variable {p : Location} {stays : Prop} {ns ms : List (Node Mark)}

/-- The states match after the move. -/
theorem Turn.moved (h : j₀.Turn j sco f g loop n l) (hp : p.activation = j.machine.activations)
    (stays : Prop) : (j.moved g n l p stays).Matches := by
  have hj := h.agree
  have hfree : j.Free p := hj.free (Nat.le_of_eq hp.symm)
  obtain ⟨hpos, hlt, -⟩ := hj.placed (.inr h.lodges)
  refine (hj.leaves (((Leaves.refl j).activate hj).set hfree)).1.settle hpos hlt ?_ hfree h.homeless
    fun hc => ?_
  · rw [hp]
    exact Nat.lt_succ_self _
  · change Value.Like _ _ ((Machine.set _ p _).cells p)
    rw [Machine.set_cells_same]
    exact h.carries hc

/-- The variable is at its new home before the activation begins. -/
theorem Turn.grows_moved (h : j₀.Turn j sco f g loop n l)
    (hp : p.activation = j.machine.activations) :
    (j.settle g n p stays).Grows (j.moved g n l p stays) where
  later := .refl _
  home _ := .rfl
  lodging _ := .rfl
  activations := Nat.le_succ _
  fresh hf hk := absurd ((h.moved hp stays).placed hk).2.1 (Nat.not_lt.2 hf)

/-- What has happened since the variable moved. -/
theorem Turn.turned_moved {j' : Joint} (h : j₀.Turn j sco f g loop n l)
    (hp : p.activation = j.machine.activations) (hj' : j'.Matches)
    (hle : (j.settle g n p stays).Grows j') : j₀.Turned j' sco f g loop where
  agree := hj'
  grows := (h.grows.settle_forget h.new (hp ▸ h.grows.activations)).forget hle
  new := h.new
  frame := Store.opens_later (s := j.store) hle.later h.frame

/-- The machine stays in the activation of the parameter. -/
theorem Stays.settle (h : j.Stays sco pl ns) (hp : pl.activation < p.activation) :
    (j.settle g n p stays).Stays sco pl ns := by
  refine ⟨h.known, fun {q x k} hk hact => ?_, fun q hq => ?_⟩
  · rcases at_of_settle hk with hk | ⟨-, -, rfl⟩
    · exact h.clear hk hact
    · exact absurd hact (Nat.ne_of_gt hp)
  · obtain ⟨hone, hlt, hfree⟩ := h.writeBacks q hq
    refine ⟨hone, hlt, fun x y hk => ?_⟩
    rcases at_of_settle hk with hk | ⟨-, -, hk⟩
    · exact hfree x y hk
    · exact Nat.lt_asymm hlt (hk ▸ hp)

/-- A variable that does not stay leaves its location. -/
theorem Turn.free_settle (h : j₀.Turn j sco f g loop n l) (hp : l ≠ p) (hs : ¬ stays) :
    (j.settle g n p stays).Free l := by
  -- nothing else was there, because the variable was
  rintro q x ((hk | ⟨-, -, hk⟩) | ⟨hk, hst⟩)
  · obtain ⟨rfl, rfl⟩ := h.agree.injective (.inl hk) (.inr h.lodges)
    exact h.homeless _ hk
  · exact hp hk
  · obtain ⟨rfl, rfl⟩ := h.agree.injective (.inr hk) (.inr h.lodges)
    exact hs (hst rfl)

variable {d : Binding} {env' : Env} {opened opened' : ScopeId → Prop}

/-- The names in the body of a loop whose binding is a parameter. -/
theorem Turn.resides_moved (h : j₀.Turn j sco f g loop d.name l) (ha : sco.Consistent)
    (H : Heads sco loop sc pl env env' d l) (hs : j₀.Resides sco sc f env ms opened)
    (hp : p.activation = j.machine.activations) (hns : ∀ y ∈ ns, y ∈ ms)
    (hopened : ∀ s, opened' s → s ≠ loop ∧ opened s) (hstays : sco.WrittenIn d.id ns → ¬ stays)
    (env'' : Env) (hown : env'' d.id = p) (hother : ∀ e, e ≠ d.id → env'' e = env' e) :
    (j.moved g d.name l p stays).Resides sco loop g env'' ns opened' := by
  have hT := h.turned_moved hp (h.moved hp stays) (h.grows_moved hp)
  obtain ⟨fr, hfr, hpar, ho⟩ := hT.frame
  refine (hs.extends hT.since).inner ha H.opens hfr ho hpar hns (fun s _ hs => (hopened s hs).2)
    (fun e he hes => ?_) fun e he hes => ?_
  · rw [hother e.id, H.other e he hes]
    exact fun heq => hes (ha.eq_of_id he H.mem heq ▸ H.scope)
  · obtain rfl := H.alone e he hes
    rw [hown]
    have hhome : (j.moved g e.name l p stays).home g e.name p := .inr ⟨rfl, rfl, rfl⟩
    refine ⟨fun _ => .inl hhome, fun hw k hk => ?_, fun _ => hhome⟩
    rcases hk with (hk | ⟨-, -, hk⟩) | ⟨-, hk⟩
    · exact absurd hk (h.homeless k)
    · exact hk
    · exact absurd (hk rfl) (hstays (hw.resolve_left fun ho => (hopened _ ho).1 rfl))

/-- The machine stays in the activation of a wrapper, in which only the variable is. -/
theorem Turn.stays_moved (h : j₀.Turn j sco f g loop d.name l) (ha : sco.Consistent)
    (H : Heads sco loop sc pl env env' d l) {ws : List (Location × Location)}
    (hws : ∀ q ∈ ws, ws = [q] ∧ q.1.activation < j.machine.activations ∧
      (j.settle g d.name ⟨j.machine.activations, .binding d.id⟩ stays).Free q.1)
    (hns : ∀ y ∈ ns, loop ≠ y.mark.id) :
    (j.moved g d.name l ⟨j.machine.activations, .binding d.id⟩ stays).Stays sco
      ⟨j.machine.activations, false, ws⟩ ns := by
  refine ⟨Nat.lt_succ_self _, fun {q x k} hk hact e he hid y hy => ?_, fun q hq => ?_⟩
  · rcases at_of_settle hk with hk | ⟨-, -, rfl⟩
    · exact absurd hact (Nat.ne_of_lt (h.agree.placed (f := q) (x := x) hk).2.2)
    · rw [ha.eq_of_id he H.mem hid, H.scope]
      exact hns y hy
  · obtain ⟨hone, hlt, hq⟩ := hws q hq
    exact ⟨hone, hlt, (h.grows_moved rfl).free hlt hq⟩

end Moved

/-- What has happened after the body of a loop: a `for` that counts goes on with the content of its
    variable. -/
structure Iterated (j₀ : Joint) (a : Scoping) (f g : FrameId) (loop : ScopeId) (hd : Header Mark)
    (n : Name) (l : Location) (pl : Place) (r : Except Interrupt Unit) (j : Joint) : Prop
    extends j₀.Turned j a f g loop where
  carries : Scoping.isCounting hd → r = .ok () ∨ r = .error .continued → j.Carries g n l
  leaving : ∀ w, r = .error w → Leaving { pl with inLoop := true } true j w

/-- What the wrapper of a loop writes back that has one parameter. -/
theorem writeBacks_eq {d : BindingId} {c : Block Mark} (h : sco.freshOf m.id hd = [d]) (pl : Place)
    (g : FrameId) :
    d ∈ sco.writeBackOf m.id hd c ∧ Loop.writeBacks ⟨m, hd, c⟩ sco pl g =
        [(⟨pl.activation, .driver d⟩, ⟨g, .binding d⟩)] ∨
      d ∉ sco.writeBackOf m.id hd c ∧ Loop.writeBacks ⟨m, hd, c⟩ sco pl g = [] := by
  have hof : sco.writeBackOf m.id hd c = [d] ∨ sco.writeBackOf m.id hd c = [] := by
    rw [Scoping.writeBackOf, h]
    split
    · cases hany : (sco.writesOf d).any (c.marks.map (·.id)).contains <;> simp [hany]
    · exact .inr rfl
  rw [Loop.writeBacks]
  rcases hof with hof | hof
  · exact .inl (by simp [hof])
  · exact .inr (by simp [hof])

/-- A loop with a parameter has a wrapper. -/
theorem wrapper_of_fresh {d : BindingId} {c : Block Mark}
    (h : Loop.fresh ⟨m, hd, c⟩ sco = [d]) :
    (∃ w, sco.loopWrapper? m.id c = some w) ∧ sco.freshOf m.id hd = [d] := by
  rw [Loop.fresh] at h
  split at h
  · cases h
  · exact ⟨⟨_, ‹_›⟩, h⟩

/-- The machine begins the activation of a wrapper with one parameter, and the variable moves. -/
theorem body_leads {d : BindingId} (hfresh : Loop.fresh ⟨m, hd, .mk b ss⟩ sco = [d])
    (hpl : pl.activation < j.machine.activations) (g : FrameId) (n : Name) (stays : Prop) :
    Leads (fun k => body k sco ⟨m, hd, .mk b ss⟩ pl env) j.machine
      (fun k => dispatch pl true do
        stmts k sco ss ⟨j.machine.activations, false,
            Loop.writeBacks ⟨m, hd, .mk b ss⟩ sco pl j.machine.activations⟩
          (Env.block ((Loop.headerEnv ⟨m, hd, .mk b ss⟩ sco pl env).params [d]
            j.machine.activations) sco (.mk b ss) j.machine.activations)
        copyAll (Loop.writeBacks ⟨m, hd, .mk b ss⟩ sco pl j.machine.activations))
      (j.moved g n ⟨pl.activation, .driver d⟩ ⟨j.machine.activations, .binding d⟩
        stays).machine := by
  obtain ⟨⟨w, hw⟩, -⟩ := wrapper_of_fresh hfresh
  have hcells : j.machine.activate.cells ⟨pl.activation, .driver d⟩ =
      j.machine.cells ⟨pl.activation, .driver d⟩ := if_neg (Nat.ne_of_lt hpl)
  refine .step rfl fun k => ?_
  rw [body, hw]
  change dispatch pl true _ (Machine.copyAll _ (Loop.parameters _ _ _ _)) = _
  rw [Loop.parameters, hfresh]
  change dispatch pl true _ (j.machine.activate.set _ (j.machine.activate.cells _)) = _
  rw [hcells]
  rfl

namespace Looping

/-- The body of a loop whose binding is a parameter. -/
theorem paramBody_follows (L : Looping i fn globals a fs sc m hd b ss)
    (hlex : (Resolve.headerLexical? hd).isSome) {d : Binding}
    (hfresh : Loop.fresh ⟨m, hd, .mk b ss⟩ a.scoping = [d.id])
    (H : Heads a.scoping m.id sc pl env (Loop.headerEnv ⟨m, hd, .mk b ss⟩ a.scoping pl env) d
      ⟨pl.activation, .driver d.id⟩)
    (h : j₀.Turn j a.scoping f g m.id d.name ⟨pl.activation, .driver d.id⟩)
    (hs : j₀.Resides a.scoping sc f env (Stmt.loop m hd (.mk b ss)).nodes (· = fs))
    (hst : j.Stays a.scoping pl (Block.mk b ss).nodes) :
    Follows i (fun n => Eval.block n (.mk b.span (Stmt.mapList Mark.span ss)) g)
      (fun k => body k a.scoping ⟨m, hd, .mk b ss⟩ pl env) j
      (Iterated j₀ a.scoping f g m.id hd d.name ⟨pl.activation, .driver d.id⟩ pl) := by
  have hfn := L.settled
  have ha := hfn.analysed.consistent
  have hscope : hd.scopeIn m.id sc = m.id := if_pos hlex
  have hob := hscope ▸ L.block
  have hss := hscope ▸ L.followed
  obtain ⟨-, hfreshOf⟩ := wrapper_of_fresh hfresh
  have hback := writeBacks_eq (c := .mk b ss) hfreshOf pl j.machine.activations
  have hlp : pl.activation < j.machine.activations := hst.known
  -- the variable stays at the driver if that is not written back
  let stays := d.id ∉ a.scoping.writeBackOf m.id hd (.mk b ss) ∧
    ¬ a.scoping.WrittenIn d.id (Block.mk b ss).nodes
  have hfree : ∀ q ∈ Loop.writeBacks ⟨m, hd, .mk b ss⟩ a.scoping pl j.machine.activations,
      Loop.writeBacks ⟨m, hd, .mk b ss⟩ a.scoping pl j.machine.activations = [q] ∧
      q.1.activation < j.machine.activations ∧
      (j.settle g d.name ⟨j.machine.activations, .binding d.id⟩ stays).Free q.1 := by
    intro q hq
    rcases hback with ⟨hmem, hback⟩ | ⟨-, hback⟩
    · rw [hback, List.mem_singleton] at hq
      subst hq
      exact ⟨hback, hlp, h.free_settle (fun he => Nat.ne_of_lt hlp
        (congrArg Location.activation he)) fun hs => hs.1 hmem⟩
    · rw [hback] at hq
      cases hq
  have hresides := h.resides_moved ha H hs (p := ⟨j.machine.activations, .binding d.id⟩) rfl
    (fun y hy => mem_body hy) (fun s (hs : s = fs) =>
      ⟨hs ▸ Nat.ne_of_lt (L.within _ List.mem_cons_self).2, hs⟩)
    (fun hw (hst : stays) => hst.2 hw) ((Loop.headerEnv ⟨m, hd, .mk b ss⟩ a.scoping pl env).params
      [d.id] j.machine.activations) (if_pos (by simp)) fun e he => if_neg (by simpa using he)
  have hrun := (block_follows True ⟨j.machine.activations, false, _⟩ hfn hob L.body_within hss
    (fun _ _ _ _ _ => trivial) (h.moved rfl stays) (h.grows_moved rfl) (fun _ => Nat.le_refl _)
    hresides (h.stays_moved ha H hfree fun y hy => Nat.ne_of_lt (L.body_lt hy))).handed
      (hst.settle hlp) hfree
  refine .right (body_leads hfresh hlp g d.name stays) rfl (hrun.imp fun r j' hr =>
    ⟨h.turned_moved rfl hr.1.agree hr.1.grows, fun hc hr' => ?_, hr.1.stop⟩)
  have hlt : g < j.store.frames.size := (h.agree.placed (.inr h.lodges)).2.1
  intro v c hv
  rcases hback with ⟨-, hback⟩ | ⟨hno, -⟩
  · -- the driver has been written back
    rw [hr.2 hr' (_, _) (by rw [hback]; exact List.mem_cons_self)]
    exact hr.1.agree.agrees (.inl ((hr.1.grows.home hlt).2 (.inr ⟨rfl, rfl, rfl⟩))) hv
  · -- the body does not assign to the variable, so it has stayed at the driver
    refine hr.1.agree.agrees (.inr ((hr.1.grows.lodging hlt).2 ⟨h.lodges, fun _ => ?_⟩)) hv
    exact ⟨hno, fun hw => hno (hfn.analysed.mem_writeBackOf L.node hc (by simp [hfreshOf]) hw)⟩

/-- No function uses the binding of a loop that is no parameter. -/
theorem not_captured (L : Looping i fn globals a fs sc m hd b ss)
    (hfresh : Loop.fresh ⟨m, hd, .mk b ss⟩ a.scoping = [])
    (hlex : (Resolve.headerLexical? hd).isSome) {d : Binding} (hdm : d ∈ a.scoping.bindings)
    (hs : d.scope = m.id) : a.scoping.isCaptured d.id = false := by
  rw [Loop.fresh] at hfresh
  have h := L.settled.analysed
  cases hw : a.scoping.loopWrapper? m.id (.mk b ss) with
  | none => exact (h.of_plainLoop L.node L.loop L.opens L.block hw hdm (.inl ⟨hlex, hs⟩)).2
  | some w =>
    rw [hw] at hfresh
    refine (h.of_sharedHeader L.node L.opens hlex hdm hs ?_).2
    rw [show a.scoping.freshOf m.id hd = [] from hfresh]
    exact List.not_mem_nil

/-- The body of a loop in the frame of an iteration. -/
theorem turnBody_follows (L : Looping i fn globals a fs sc m hd b ss)
    (hlex : (Resolve.headerLexical? hd).isSome) {d : Binding}
    (hfresh : Loop.fresh ⟨m, hd, .mk b ss⟩ a.scoping = [] ∨
      Loop.fresh ⟨m, hd, .mk b ss⟩ a.scoping = [d.id] ∧ l = ⟨pl.activation, .driver d.id⟩)
    (H : Heads a.scoping m.id sc pl env (Loop.headerEnv ⟨m, hd, .mk b ss⟩ a.scoping pl env) d l)
    (h : j₀.Turn j a.scoping f g m.id d.name l)
    (hs : j₀.Resides a.scoping sc f env (Stmt.loop m hd (.mk b ss)).nodes (· = fs))
    (hst : j₀.Stays a.scoping pl (Stmt.loop m hd (.mk b ss)).nodes) :
    Follows i (fun n => Eval.block n (.mk b.span (Stmt.mapList Mark.span ss)) g)
      (fun k => body k a.scoping ⟨m, hd, .mk b ss⟩ pl env) j
      (Iterated j₀ a.scoping f g m.id hd d.name l pl) := by
  have hfn := L.settled
  have hst' := h.stays hfn.analysed.consistent H hst fun y (hy : y ∈ (Block.mk b ss).nodes) =>
    ⟨mem_body hy, Nat.ne_of_lt (L.body_lt hy)⟩
  rcases hfresh with hfresh | ⟨hfresh, rfl⟩
  · have hcap := L.not_captured hfresh hlex H.mem H.scope
    refine (L.sharedBody_follows hfresh h.agree ?_ hst').imp fun r j' hr => ?_
    · rw [show hd.scopeIn m.id sc = m.id from if_pos hlex]
      refine h.resides hfn.analysed.consistent H hs (fun y hy => mem_body hy) (fun _ _ => id) ?_
      exact hfn.not_closes H.mem hcap fun y hy => ⟨L.body_within y hy, H.scope ▸ L.body_lt hy⟩
    · have hT := h.later hr.agree hr.grows
      exact ⟨hT.toTurned, fun _ _ => hT.carries, hr.stop⟩
  · exact L.paramBody_follows hlex hfresh H h hs hst'

end Looping

end Regional.Joint

end FlatScope
