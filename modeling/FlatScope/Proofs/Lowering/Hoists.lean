import FlatScope.Proofs.Lowering.Rendered

/-!
# What is moved out of wrappers

A `var` that is declared in a wrapper belongs to the function around it. What has to be moved there
is read off the code of the wrapper beforehand (`Wrapper.hoisted`), and moved declaration by
declaration when the code is lowered (`LoweringPlan.hoists`). Both come to the same, in a function
as a whole and in every part of its code: what the lowering moves to the top of the function is what
is to be moved out of the wrappers in it (`LoweringPlan.Sound.mem_hoistsList`).
-/

namespace FlatScope

open Node

namespace LoweringPlan

variable {p : LoweringPlan} {fn : FunctionDef Mark} {globals : List Name} {D : Demands} {r : Region}

/-- The bindings that some `var`s declare. -/
def bindingsOf (p : LoweringPlan) (vs : List (Name × Mark)) : List BindingId :=
  vs.filterMap fun v => p.analysis.scoping.declarations.lookup v.2.id

theorem bindingsOf_append (vs ws : List (Name × Mark)) :
    p.bindingsOf (vs ++ ws) = p.bindingsOf vs ++ p.bindingsOf ws := List.filterMap_append

/-- A node has a wrapper, from which the binding is to be moved. -/
def HoistsAt (p : LoweringPlan) (y : Node Mark) (b : BindingId) : Prop :=
  ∃ w, p.analysis.wrapper? y.mark.id = some w ∧ b ∈ w.hoisted

/-! ## What the lowering moves out of a wrapper -/

/-- A clause of a `for` contains no wrapper. -/
theorem hoists_of_isInit {s : Stmt Mark} (h : s.isInit) : p.hoists false s = [] := by
  cases s with
  | declaration | assignment | expression => rfl
  | _ => cases h

/-- The last clause of a `for` declares nothing. -/
theorem elim_hoists_update {u : Option (Stmt Mark)} {w : Bool}
    (h : ∀ s, u = some s → s.isUpdate ∧ s.IsSource) : u.elim [] (p.hoists w) = [] := by
  cases u with
  | none => rfl
  | some s =>
    have hs := (h s rfl).1
    cases s with
    | assignment | expression => rfl
    | _ => cases hs

theorem hoistsHeader_false {h : Header Mark} (hsrc : h.IsSource) : p.hoistsHeader false h = [] := by
  cases h with
  | counting m i c u =>
    obtain ⟨hi, -, hu⟩ := Header.shaped_counting.1 hsrc
    have hinit : i.elim [] (p.hoists false) = [] := by
      cases i with
      | none => rfl
      | some i => exact hoists_of_isInit (hi i rfl).1
    rw [hoistsHeader_counting, hinit, elim_hoists_update hu]
    rfl
  | forOf m n k e => cases k <;> rfl
  | _ => rfl

/-- What a declaration declares, if it is a `var`. -/
theorem Sound.varOf_eq (hp : p.Sound fn globals) {m : Mark} {n : Name} {k : DeclKind}
    (h : ∃ fs sc, p.analysis.scoping.Declares fs sc m.id n k) :
    p.varOf m = if k = .var then p.bindingsOf [(n, m)] else [] := by
  obtain ⟨fs, sc, h⟩ := h
  obtain ⟨b, -, hdecl, -, hk⟩ := Lower.declares_binding hp h
  obtain ⟨i, hi, hb⟩ := Option.bind_eq_some_iff.1 hdecl
  obtain rfl := (Scoping.mem_of_binding? hb).2
  rw [varOf, hdecl]
  rcases hk with ⟨hk, -, hs⟩ | ⟨hk, -, hs⟩
  · simp [hs, hk]
  · simp [hs, hk, bindingsOf, hi]

mutual

/-- All `var`s in the code of a wrapper are moved out of it. -/
theorem hoists_true (hp : p.Sound fn globals) : ∀ {s : Stmt Mark}, s.IsSource →
    (∀ y ∈ s.nodes, y ∈ fn.nodes) → p.hoists true s = p.bindingsOf s.vars
  | .declaration m n k v, _, hin => by
    have hnoted := hp.analysed.noted (.stmt (.declaration m n k v))
      (hin _ (by cases v <;> exact List.mem_cons_self))
    rw [hoists, if_pos rfl, hp.varOf_eq hnoted]
    cases k <;> rfl
  | .block b, hsrc, hin => by
    have hsub : b.IsSource := hsrc
    rw [hoists, Stmt.vars, hoistsBlock_true hp hsub hin]
  | .branch _ _ t none, hsrc, hin => by
    rw [hoists, Stmt.vars, List.append_nil]
    exact hoistsBlock_true hp hsrc.2 fun y hy => hin y (List.mem_cons_of_mem _
      (List.mem_append_right _ (List.mem_append_left _ hy)))
  | .branch _ _ t (some e), hsrc, hin => by
    rw [hoists, Stmt.vars, bindingsOf_append,
      hoistsBlock_true hp hsrc.2.1 fun y hy => hin y (List.mem_cons_of_mem _
        (List.mem_append_right _ (List.mem_append_left _ hy))),
      hoistsBlock_true hp hsrc.2.2 fun y hy => hin y (List.mem_cons_of_mem _
        (List.mem_append_right _ (List.mem_append_right _ hy)))]
  | .loop _ h (.mk _ ss), hsrc, hin => by
    have hinb : ∀ y ∈ Stmt.nodesOfList ss, y ∈ fn.nodes :=
      fun y hy => hin y (Stmt.mem_nodes_body hy)
    rw [hoists, Stmt.vars, Bool.true_or, bindingsOf_append, Block.vars,
      hoistsHeader_true hp hsrc.1 fun y hy =>
      hin y (List.mem_cons_of_mem _ (List.mem_append_left _ hy)), hoistsList_true hp hsrc.2 hinb]
  | .assignment .., _, _ | .expression .., _, _ | .ret .., _, _ | .brk _, _, _ | .cont _, _, _
  | .unknown .., _, _ => rfl

theorem hoistsList_true (hp : p.Sound fn globals) : ∀ {ss : List (Stmt Mark)}, Stmt.AreSource ss →
    (∀ y ∈ Stmt.nodesOfList ss, y ∈ fn.nodes) →
    p.hoistsList true ss = p.bindingsOf (Stmt.varsOfList ss)
  | [], _, _ => rfl
  | s :: ss, hsrc, hin => by
    rw [hoistsList, Stmt.varsOfList, bindingsOf_append,
      hoists_true hp hsrc.1 fun y hy => hin y (List.mem_append_left _ hy),
      hoistsList_true hp hsrc.2 fun y hy => hin y (List.mem_append_right _ hy)]

theorem hoistsBlock_true (hp : p.Sound fn globals) : ∀ {b : Block Mark}, b.IsSource →
    (∀ y ∈ b.nodes, y ∈ fn.nodes) → p.hoistsBlock true b = p.bindingsOf b.vars
  | .mk _ ss, hsrc, hin => by
    rw [hoistsBlock, Block.vars, Bool.true_or]
    exact hoistsList_true hp hsrc fun y hy => hin y (List.mem_cons_of_mem _ hy)

theorem hoistsHeader_true (hp : p.Sound fn globals) : ∀ {h : Header Mark}, h.IsSource →
    (∀ y ∈ h.nodes, y ∈ fn.nodes) → p.hoistsHeader true h = p.bindingsOf h.vars
  | .whileTrue .., _, _ | .forOf _ _ none _, _, _ | .unknown .., _, _ => rfl
  | .forOf m n (some k) e, _, hin => by
    have hnoted := hp.analysed.noted (.header (.forOf m n (some k) e)) (hin _ List.mem_cons_self)
    rw [hoistsHeader, if_pos rfl, hp.varOf_eq hnoted]
    cases k <;> rfl
  | .counting m i c u, hsrc, hin => by
    obtain ⟨hi, -, hu⟩ := Header.shaped_counting.1 hsrc
    rw [Header.nodes_counting] at hin
    rw [hoistsHeader_counting, elim_hoists_update hu, List.append_nil]
    cases i with
    | none => rfl
    | some i =>
      exact hoists_true hp (hi i rfl).2 fun y hy =>
        hin y (List.mem_cons_of_mem _ (List.mem_append_left _ hy))

end

mutual

/-- A wrapper around some code moves no less out of it. -/
theorem hoists_mono {w : Bool} {b : BindingId} : ∀ {s : Stmt Mark}, b ∈ p.hoists w s →
    b ∈ p.hoists true s
  | .declaration .., h => by
    rw [hoists] at h ⊢
    split at h
    · exact h
    · cases h
  | .block c, h => hoistsBlock_mono (c := c) h
  | .branch _ _ t none, h => hoistsBlock_mono (c := t) h
  | .branch _ _ t (some e), h =>
    List.mem_append.2 ((List.mem_append.1 h).imp hoistsBlock_mono hoistsBlock_mono)
  | .loop _ hd (.mk _ ss), h =>
    List.mem_append.2 ((List.mem_append.1 h).imp hoistsHeader_mono fun h => by
    rw [Bool.true_or]
    exact hoistsList_mono h)
  | .assignment .., h | .expression .., h | .ret .., h | .brk _, h | .cont _, h | .unknown .., h =>
    h

theorem hoistsList_mono {w : Bool} {b : BindingId} :
    ∀ {ss : List (Stmt Mark)}, b ∈ p.hoistsList w ss → b ∈ p.hoistsList true ss
  | [], h => h
  | _ :: _, h => List.mem_append.2 ((List.mem_append.1 h).imp hoists_mono hoistsList_mono)

theorem hoistsBlock_mono {w : Bool} {b : BindingId} : ∀ {c : Block Mark}, b ∈ p.hoistsBlock w c →
    b ∈ p.hoistsBlock true c
  | .mk _ ss, h => by
    rw [hoistsBlock, Bool.true_or]
    exact hoistsList_mono h

theorem hoistsHeader_mono {w : Bool} {b : BindingId} : ∀ {h : Header Mark}, b ∈ p.hoistsHeader w h →
    b ∈ p.hoistsHeader true h
  | .whileTrue .., h | .forOf _ _ none _, h | .unknown .., h => h
  | .forOf _ _ (some _) _, h => by
    rw [hoistsHeader] at h ⊢
    split at h
    · exact h
    · cases h
  | .counting m i c u, h => by
    rw [hoistsHeader_counting] at h ⊢
    refine List.mem_append.2 ((List.mem_append.1 h).imp (fun h => ?_) fun h => ?_)
    · cases i with
      | none => exact h
      | some i => exact hoists_mono (s := i) h
    · cases u with
      | none => exact h
      | some u => exact hoists_mono (s := u) h

end

/-! ## What a wrapper is to be moved out of -/

/-- The wrapper of a loop is in the plan of the loop. -/
theorem Sound.loopPlan_wrapper (hp : p.Sound fn globals) {m : Mark} {hd : Header Mark}
    {b : Block Mark} (hx : .stmt (.loop m hd b) ∈ fn.nodes) :
    (p.loopPlan m.id).wrapper = p.analysis.wrapper? m.id := by
  obtain ⟨hoisting, hplan⟩ := hp.analysed.loopPlan? hx
  rw [loopPlan, hplan, Option.getD_some, Scoping.planLoop, Analysis.wrapper?]
  split
  · next h => exact h.symm
  · next h => exact h.symm

/-- The body of a loop has no wrapper of its own. -/
theorem Sound.wrapper?_body (hp : p.Sound fn globals)
    (hrec : p.analysis.scoping.Records globals fn.acts) {m : Mark} {hd : Header Mark}
    {b : Block Mark}
    (hx : .stmt (.loop m hd b) ∈ fn.nodes) : p.analysis.wrapper? b.mark.id = none := by
  have hb : .block b ∈ fn.nodes := by
    obtain ⟨k, ss⟩ := b
    exact (nodes_sublist (x := .function fn) hx).subset
      (List.mem_cons_of_mem _ (List.mem_append_right _ List.mem_cons_self))
  refine (hp.analysed.wrapper? hb).trans (Option.eq_none_iff_forall_ne_some.2 fun w hw => ?_)
  obtain ⟨sc, hsc, hno, -, -⟩ := Scoping.blockWrapper?_eq_some.1 hw
  obtain ⟨hid, hkind⟩ := hp.analysed.consistent.blocks _ (Table.mem_of_lookup hsc)
  obtain rfl : sc = b.mark.id := hid
  -- the block declares something, so it is noted as the body of the loop
  obtain ⟨q, c, hq, hnode, hid, hne, -⟩ := hrec.block_of_scope hkind
  have hc : .block c ∈ fn.nodes := hnode ▸ hq.mem_nodes rfl
  cases node_unique hp.analysed.nodup hc hb hid
  obtain ⟨sc, hl, -⟩ := hp.analysed.noted _ hx
  exact hno _ (List.mem_of_find?_eq_some hl) (by simp [hne])

/-- What is to be moved out of the wrapper of a block. -/
theorem Sound.hoisted_block (hp : p.Sound fn globals) {c : Block Mark} (hx : .block c ∈ fn.nodes)
    {w : Wrapper} (hw : p.analysis.wrapper? c.mark.id = some w) :
    w.hoisted = p.analysis.scoping.hoistedIn c := by
  have hbw : p.analysis.scoping.blockWrapper? c = some w := (hp.analysed.wrapper? hx).symm.trans hw
  obtain ⟨_, -, -, -, rfl⟩ := Scoping.blockWrapper?_eq_some.1 hbw
  rfl

/-- What is to be moved out of the wrapper of a loop. -/
theorem Sound.hoisted_loop (hp : p.Sound fn globals) {m : Mark} {hd : Header Mark} {c : Block Mark}
    (hx : .stmt (.loop m hd c) ∈ fn.nodes) {w : Wrapper} (hw : p.analysis.wrapper? m.id = some w) :
    w.hoisted = p.analysis.scoping.hoistedIn c := by
  have hlw : p.analysis.scoping.loopWrapper? m.id c = some w :=
    (hp.analysed.wrapper? hx).symm.trans hw
  obtain ⟨_, _, -, -, -, rfl⟩ := Scoping.loopWrapper?_eq_some.1 hlw
  rfl

/-- What is to be moved out of a wrapper is what is moved out of its code. -/
theorem Sound.mem_hoisted (hp : p.Sound fn globals) {b : Block Mark} (hsrc : b.IsSource)
    (hin : ∀ y ∈ b.nodes, y ∈ fn.nodes) {w : Wrapper}
    (hw : w.hoisted = p.analysis.scoping.hoistedIn b)
    {i : BindingId} : i ∈ w.hoisted ↔ i ∈ p.hoistsBlock true b := by
  rw [hw, Scoping.hoistedIn, List.mem_eraseDups, hoistsBlock_true hp hsrc hin]
  rfl

variable {x : Node Mark} {b : BindingId}

/-- Only blocks and loops have wrappers. -/
theorem Sound.not_hoistsAt (hp : p.Sound fn globals) (hx : x ∈ fn.nodes)
    (hw : p.analysis.scoping.wrapper? x = none) : ¬ p.HoistsAt x b := by
  rintro ⟨w, h, -⟩
  cases hw.symm.trans ((hp.analysed.wrapper? hx).symm.trans h)

/-- No wrapper is in an expression, unless in a function. -/
theorem Sound.not_hoistsAt_expr (hp : p.Sound fn globals) {e : Expr Mark}
    (hin : ∀ y ∈ e.nodes, y ∈ fn.nodes) (hx : x ∈ e.own) : ¬ p.HoistsAt x b := by
  obtain ⟨⟨f, rfl⟩, hf⟩ := e.own_expr hx
  exact hp.not_hoistsAt (hin _ hf) rfl

/-- No wrapper is in a clause of a `for`, unless in a function. -/
theorem Sound.not_hoistsAt_clause (hp : p.Sound fn globals) {s : Stmt Mark} (hs : s.isInit)
    (hin : ∀ y ∈ s.nodes, y ∈ fn.nodes) (hx : x ∈ s.own) : ¬ p.HoistsAt x b := by
  cases s with
  | declaration m n k v =>
    rcases List.mem_cons.1 hx with rfl | hx
    · exact hp.not_hoistsAt (hin _ (by cases v <;> exact List.mem_cons_self)) rfl
    · cases v with
      | none => cases hx
      | some e => exact hp.not_hoistsAt_expr (fun y hy => hin y (List.mem_cons_of_mem _ hy)) hx
  | assignment m t v =>
    rcases List.mem_cons.1 hx with rfl | hx
    · exact hp.not_hoistsAt (hin _ List.mem_cons_self) rfl
    rcases List.mem_append.1 hx with hx | hx
    · exact hp.not_hoistsAt_expr
        (fun y hy => hin y (List.mem_cons_of_mem _ (List.mem_append_left _ hy))) hx
    · exact hp.not_hoistsAt_expr
        (fun y hy => hin y (List.mem_cons_of_mem _ (List.mem_append_right _ hy))) hx
  | expression m e =>
    rcases List.mem_cons.1 hx with rfl | hx
    · exact hp.not_hoistsAt (hin _ List.mem_cons_self) rfl
    · exact hp.not_hoistsAt_expr (fun y hy => hin y (List.mem_cons_of_mem _ hy)) hx
  | _ => cases hs

/-- No wrapper is in the header of a loop, unless in a function. -/
theorem Sound.not_hoistsAt_header (hp : p.Sound fn globals) {h : Header Mark} (hsrc : h.IsSource)
    (hin : ∀ y ∈ h.nodes, y ∈ fn.nodes) (hx : x ∈ h.own) : ¬ p.HoistsAt x b := by
  cases h with
  | whileTrue m c | forOf m n k c =>
    rcases List.mem_cons.1 hx with rfl | hx
    · exact hp.not_hoistsAt (hin _ List.mem_cons_self) rfl
    · exact hp.not_hoistsAt_expr (fun y hy => hin y (List.mem_cons_of_mem _ hy)) hx
  | counting m i c u =>
    obtain ⟨hi, -, hu⟩ := Header.shaped_counting.1 hsrc
    rw [Header.nodes_counting] at hin
    rw [Header.own_counting] at hx
    rcases List.mem_cons.1 hx with rfl | hx
    · exact hp.not_hoistsAt (hin _ List.mem_cons_self) rfl
    rcases List.mem_append.1 hx with hx | hx
    · cases i with
      | none => cases hx
      | some s =>
        exact hp.not_hoistsAt_clause (hi s rfl).1
          (fun y hy => hin y (List.mem_cons_of_mem _ (List.mem_append_left _ hy))) hx
    rcases List.mem_append.1 hx with hx | hx
    · cases c with
      | none => cases hx
      | some e =>
        exact hp.not_hoistsAt_expr (fun y hy => hin y (List.mem_cons_of_mem _
          (List.mem_append_right _ (List.mem_append_left _ hy)))) hx
    · cases u with
      | none => cases hx
      | some s =>
        exact hp.not_hoistsAt_clause (Resolve.isInit_of_isUpdate (hu s rfl).1) (fun y hy => hin y
          (List.mem_cons_of_mem _ (List.mem_append_right _ (List.mem_append_right _ hy)))) hx
  | unknown => exact hsrc.elim

/-- What is moved out of code that may be that of a wrapper: what is to be moved out of the wrapper
    and of those in it. -/
theorem Sound.mem_hoistsCode (hp : p.Sound fn globals) {m : Mark} {ss : List (Stmt Mark)}
    (hsrc : Stmt.AreSource ss) (hin : ∀ y ∈ (Block.mk m ss).nodes, y ∈ fn.nodes)
    {o : Option Wrapper}
    (ho : ∀ w, o = some w → w.hoisted = p.analysis.scoping.hoistedIn (.mk m ss))
    (ih : b ∈ p.hoistsList false ss ↔ ∃ y ∈ Stmt.ownOfList ss, p.HoistsAt y b) :
    b ∈ p.hoistsList o.isSome ss ↔
      (∃ w, o = some w ∧ b ∈ w.hoisted) ∨ ∃ y ∈ Stmt.ownOfList ss, p.HoistsAt y b := by
  cases o with
  | none => exact ih.trans ⟨.inr, fun h => h.resolve_left fun ⟨_, hw, _⟩ => nomatch hw⟩
  | some w =>
    have hmem : b ∈ w.hoisted ↔ b ∈ p.hoistsList true ss := by
      rw [hp.mem_hoisted (b := .mk m ss) hsrc hin (ho w rfl), hoistsBlock, Bool.true_or]
    rw [Option.isSome_some, ← hmem]
    refine ⟨fun h => .inl ⟨w, rfl, h⟩,
      fun h => h.elim (fun ⟨v, hv, h⟩ => Option.some.inj hv ▸ h) fun h => ?_⟩
    exact hmem.2 (hoistsList_mono (ih.2 h))

mutual

/-- What is moved to the top of a function from a statement in it. -/
theorem Sound.mem_hoists (hp : p.Sound fn globals)
    (hrec : p.analysis.scoping.Records globals fn.acts) : ∀ {s : Stmt Mark}, s.IsSource →
    (∀ y ∈ s.nodes, y ∈ fn.nodes) → (b ∈ p.hoists false s ↔ ∃ y ∈ s.own, p.HoistsAt y b)
  | .declaration .., _, hin | .assignment .., _, hin | .expression .., _, hin =>
    ⟨nofun, fun ⟨_, hy, h⟩ => absurd h (hp.not_hoistsAt_clause rfl hin hy)⟩
  | .ret m v, _, hin => by
    refine ⟨nofun, fun ⟨y, hy, h⟩ => ?_⟩
    rcases List.mem_cons.1 hy with rfl | hy
    · exact absurd h (hp.not_hoistsAt (hin _ (by cases v <;> exact List.mem_cons_self)) rfl)
    · cases v with
      | none => cases hy
      | some e =>
        exact absurd h (hp.not_hoistsAt_expr (fun y hy => hin y (List.mem_cons_of_mem _ hy)) hy)
  | .brk _, _, hin | .cont _, _, hin => by
    refine ⟨nofun, fun ⟨y, hy, h⟩ => ?_⟩
    obtain rfl := List.mem_singleton.1 hy
    exact absurd h (hp.not_hoistsAt (hin _ List.mem_cons_self) rfl)
  | .block c, hsrc, hin => by
    have hsub : c.IsSource := hsrc
    exact hp.mem_hoistsBlock hrec hsub hin
  | .branch _ c t none, hsrc, hin => by
    rw [hoists, hp.mem_hoistsBlock hrec hsrc.2 fun y hy => hin y (List.mem_cons_of_mem _
      (List.mem_append_right _ (List.mem_append_left _ hy)))]
    refine ⟨fun ⟨y, hy, h⟩ => ⟨y, List.mem_cons_of_mem _ (List.mem_append_right _
      (List.mem_append_left _ hy)), h⟩, fun ⟨y, hy, h⟩ => ?_⟩
    rcases List.mem_cons.1 hy with rfl | hy
    · exact absurd h (hp.not_hoistsAt (hin _ List.mem_cons_self) rfl)
    rcases List.mem_append.1 hy with hy | hy
    · exact absurd h (hp.not_hoistsAt_expr
        (fun y hy => hin y (List.mem_cons_of_mem _ (List.mem_append_left _ hy))) hy)
    · exact ⟨y, (List.append_nil t.own) ▸ hy, h⟩
  | .branch _ c t (some e), hsrc, hin => by
    rw [hoists, List.mem_append, hp.mem_hoistsBlock hrec hsrc.2.1 fun y hy =>
      hin y (List.mem_cons_of_mem _
      (List.mem_append_right _ (List.mem_append_left _ hy))), hp.mem_hoistsBlock hrec
      hsrc.2.2 fun y hy =>
        hin y (List.mem_cons_of_mem _ (List.mem_append_right _ (List.mem_append_right _ hy)))]
    constructor
    · rintro (⟨y, hy, h⟩ | ⟨y, hy, h⟩)
      · exact ⟨y, List.mem_cons_of_mem _ (List.mem_append_right _ (List.mem_append_left _ hy)), h⟩
      · exact ⟨y, List.mem_cons_of_mem _ (List.mem_append_right _ (List.mem_append_right _ hy)), h⟩
    · rintro ⟨y, hy, h⟩
      rcases List.mem_cons.1 hy with rfl | hy
      · exact absurd h (hp.not_hoistsAt (hin _ List.mem_cons_self) rfl)
      rcases List.mem_append.1 hy with hy | hy
      · exact absurd h (hp.not_hoistsAt_expr
          (fun y hy => hin y (List.mem_cons_of_mem _ (List.mem_append_left _ hy))) hy)
      · exact (List.mem_append.1 hy).imp (⟨y, ·, h⟩) (⟨y, ·, h⟩)
  | .loop m hd (.mk k ss), hsrc, hin => by
    have hx : .stmt (.loop m hd (.mk k ss)) ∈ fn.nodes := hin _ List.mem_cons_self
    have hinb : ∀ y ∈ (Block.mk k ss).nodes, y ∈ fn.nodes := fun y hy =>
      hin y (List.mem_cons_of_mem _ (List.mem_append_right _ hy))
    rw [hoists, hoistsHeader_false hsrc.1, List.nil_append, Bool.false_or, hp.loopPlan_wrapper hx,
      hp.mem_hoistsCode hsrc.2 hinb (fun _ => hp.hoisted_loop hx)
      (hp.mem_hoistsList hrec hsrc.2 fun y hy =>
        hinb y (List.mem_cons_of_mem _ hy))]
    constructor
    · rintro (⟨w, hw, h⟩ | ⟨y, hy, h⟩)
      · exact ⟨_, List.mem_cons_self, w, hw, h⟩
      · exact ⟨y, List.mem_cons_of_mem _ (List.mem_append_right _ (List.mem_cons_of_mem _ hy)), h⟩
    · rintro ⟨y, hy, h⟩
      rcases List.mem_cons.1 hy with rfl | hy
      · exact .inl h
      rcases List.mem_append.1 hy with hy | hy
      · exact absurd h (hp.not_hoistsAt_header hsrc.1
          (fun y hy => hin y (List.mem_cons_of_mem _ (List.mem_append_left _ hy))) hy)
      rcases List.mem_cons.1 hy with rfl | hy
      · -- the body of a loop has no wrapper of its own
        obtain ⟨w, hw, -⟩ := h
        cases (hp.wrapper?_body hrec hx).symm.trans hw
      · exact .inr ⟨y, hy, h⟩
  | .unknown .., hsrc, _ => hsrc.elim

theorem Sound.mem_hoistsList (hp : p.Sound fn globals)
    (hrec : p.analysis.scoping.Records globals fn.acts) :
    ∀ {ss : List (Stmt Mark)}, Stmt.AreSource ss → (∀ y ∈ Stmt.nodesOfList ss, y ∈ fn.nodes) →
    (b ∈ p.hoistsList false ss ↔ ∃ y ∈ Stmt.ownOfList ss, p.HoistsAt y b)
  | [], _, _ => ⟨nofun, fun ⟨_, hy, _⟩ => absurd hy List.not_mem_nil⟩
  | s :: ss, hsrc, hin => by
    rw [hoistsList, List.mem_append, hp.mem_hoists hrec hsrc.1 fun y hy =>
      hin y (List.mem_append_left _ hy), hp.mem_hoistsList hrec hsrc.2 fun y hy =>
      hin y (List.mem_append_right _ hy), Stmt.ownOfList]
    simp only [List.mem_append, or_and_right, exists_or]

theorem Sound.mem_hoistsBlock (hp : p.Sound fn globals)
    (hrec : p.analysis.scoping.Records globals fn.acts) : ∀ {c : Block Mark}, c.IsSource →
    (∀ y ∈ c.nodes, y ∈ fn.nodes) → (b ∈ p.hoistsBlock false c ↔ ∃ y ∈ c.own, p.HoistsAt y b)
  | .mk m ss, hsrc, hin => by
    have hx : .block (.mk m ss) ∈ fn.nodes := hin _ List.mem_cons_self
    rw [hoistsBlock, Bool.false_or, hp.mem_hoistsCode (o := p.analysis.wrapper? m.id) hsrc hin
      (fun _ => hp.hoisted_block hx)
      (hp.mem_hoistsList hrec hsrc fun y hy => hin y (List.mem_cons_of_mem _ hy)), Block.own]
    simp only [List.mem_cons, exists_eq_or_imp]
    rfl

end

end LoweringPlan

end FlatScope
