import FlatScope.Proofs.Residence.Leaving

/-!
# Blocks in both programs

The program makes a frame for the variables of a block, the machine an activation, or it has slots
for them in the one around. The frame is entered when the block is, and forgotten when it is left
(`Joint.block_follows`): what is used by a closure has its home in the activation of a wrapper.
-/

namespace FlatScope

open Process

/-- `let`s and `const`s hold nothing when they are defined. -/
theorem Eval.find?_bindLexicals {ls : List (Lexical Span)} {f f' : Frame} {x : Name} {v : Value}
    {c : Bool} (h : bindLexicals f ls = .ok f') (hx : f'.find? x = some ⟨some v, c⟩) :
    f.find? x = some ⟨some v, c⟩ := by
  induction ls generalizing f with
  | nil =>
    cases h
    exact hx
  | cons l ls ih =>
    rw [bindLexicals, List.foldlM_cons, Frame.define] at h
    split at h
    · cases h
    · have hadd := ih (f := f.add l.name ⟨none, l.kind == .const⟩) h
      rw [Frame.add, Frame.find?_append, Option.or_eq_some_iff] at hadd
      obtain hf | ⟨-, hl⟩ := hadd
      · exact hf
      · have hmem := Table.mem_of_lookup hl
        cases List.mem_singleton.1 hmem

/-- A block without variables runs its statements. -/
theorem Eval.block_leads_nil {b : Block Span} (h : b.lexicals = []) (f : FrameId) (s : Store) :
    Leads (fun n => block n b f) s (fun n => stmts n b.statements f) s := by
  refine .step rfl fun n => ?_
  rw [block, blockFrame, h]
  rfl

/-- A block with variables runs its statements in a new frame. -/
theorem Eval.block_leads {b : Block Span} {f : FrameId} {fr : Frame} (h : b.lexicals ≠ [])
    (hfr : bindLexicals ⟨some f, []⟩ b.lexicals = .ok fr) (s : Store) :
    Leads (fun n => block n b f) s (fun n => stmts n b.statements s.frames.size)
      (s.newFrame fr).2 := by
  refine .step rfl fun n => ?_
  rw [block, blockFrame]
  cases hls : b.lexicals with
  | nil => exact absurd hls h
  | cons l ls =>
    rw [hls] at hfr
    dsimp only
    rw [hfr]
    rfl

namespace Regional.Joint

variable {fn : FunctionDef Mark} {globals : List Name} {a : Analysis} {i : Nat} {j j₀ : Joint}
  {f : FrameId} {fs sc : ScopeId} {env : Env} {pl : Place} {jumps : Bool} {m : Mark}
  {ss : List (Stmt Mark)} {kept : Prop}

/-- The scopes whose variables a statement gives a value: that of the function, and its own one if
    it declares something in it. -/
def Opened (fs sc : ScopeId) (declares : Prop) (s : ScopeId) : Prop := s = fs ∨ declares ∧ s = sc

/-- Wherever the names of a scope mean variables that reside where an environment says, `y` follows
    `x`. -/
def Followed (i : Nat) (a : Scoping) (fs sc : ScopeId) (declares : Prop) (jumps : Bool)
    (ns : List (Node Mark)) (x : FrameId → Nat → FlatScope.Run Unit)
    (y : Place → Env → Nat → Run Unit) : Prop :=
  ∀ ⦃j : Joint⦄ ⦃f : FrameId⦄ ⦃env : Env⦄ ⦃pl : Place⦄, j.Matches →
    j.Resides a sc f env ns (Opened fs sc declares) → j.Stays a pl ns →
    Follows i (x f) (y pl env) j (Runs j pl jumps)

/-- What stands in a block comes after it. -/
theorem within_block (h : fn.Analysed globals a) (hin : ∀ y ∈ (Block.mk m ss).nodes, y ∈ fn.nodes) :
    ∀ y ∈ Stmt.nodesOfList ss, y ∈ fn.nodes ∧ m.id < y.mark.id := fun y hy =>
  ⟨hin y (List.mem_cons_of_mem _ hy), h.lt_below (hin _ List.mem_cons_self) hy⟩

/-- The statements of a block. The variables of the block are in the activation that the machine
    stays in. They are `kept` if closures use them, and then the activation is a new one. -/
theorem block_follows (kept : Prop) (pl : Place) (hfn : fn.Settled globals a)
    (ho : a.scoping.OpensBlock (.mk m ss) sc)
    (hin : ∀ y ∈ (Block.mk m ss).nodes, y ∈ fn.nodes)
    (hss : Followed i a.scoping fs ((Block.mk m ss).scopeIn sc) ((Block.mk m ss).lexicals ≠ [])
      jumps (Stmt.nodesOfList ss) (fun f n => Eval.stmts n (Stmt.mapList Mark.span ss) f)
      fun pl env k => stmts k a.scoping ss pl env)
    (hkept : (Block.mk m ss).lexicals ≠ [] → ∀ d ∈ a.scoping.bindings, d.scope = m.id →
      a.scoping.ClosesOver (Stmt.nodesOfList ss) d.id → kept)
    (hj : j.Matches) (hle : j₀.Grows j) (hnew : kept → j₀.machine.activations ≤ pl.activation)
    (hs : j.Resides a.scoping sc f env (Block.mk m ss).nodes (· = fs))
    (hst : j.Stays a.scoping pl (Block.mk m ss).nodes) :
    Follows i (fun n => Eval.block n (.mk m.span (Stmt.mapList Mark.span ss)) f)
      (fun k => stmts k a.scoping ss pl (env.block a.scoping (.mk m ss) pl.activation)) j
      (Runs j₀ pl jumps) := by
  have ha := hfn.analysed.consistent
  have hbelow : ∀ y ∈ Stmt.nodesOfList ss, y ∈ (Block.mk m ss).nodes := fun y hy =>
    List.mem_cons_of_mem _ hy
  have hlex : (Block.mk m.span (Stmt.mapList Mark.span ss)).lexicals =
      (Block.mk m ss).lexicals.map (·.map Mark.span) := Block.lexicals_map Mark.span (.mk m ss)
  by_cases hne : (Block.mk m ss).lexicals = []
  · -- the block has no variables, so there is no frame
    rw [hne, List.map_nil] at hlex
    rw [Block.scopeIn_of_nil hne] at hss
    rw [show env.block a.scoping (.mk m ss) pl.activation = env by simp [Env.block, hne]]
    refine .leads (Eval.block_leads_nil hlex f j.store) (.refl _ _)
      ((hss hj (hs.sub hbelow fun s h => ?_) (hst.sub hbelow)).imp fun _ _ hr => hr.before hle)
    exact h.resolve_right fun h => h.1 hne
  · rw [Block.scopeIn_of_ne_nil hne] at hss
    obtain ⟨fr, hfr, hp, hopens⟩ := Eval.blockFrame_opens (f := f) ha ho hne
    have hframe := Eval.block_leads (b := .mk m.span (Stmt.mapList Mark.span ss))
      (fun hno => hne (List.map_eq_nil_iff.1 (hlex.symm.trans hno))) hfr j.store
    rw [show env.block a.scoping (.mk m ss) pl.activation = env.enter a.scoping m.id pl.activation
      by simp [Env.block, hne, Block.mark]]
    have hentered : (j.enter fr (slots a.scoping m.id pl.activation) kept).Matches := by
      refine hj.enter hp hs.frame (fun {x l} hl => ?_) (fun {x l v c} hl hc => ?_)
        fun hx hy => slots_injective ha hx hy
      · obtain ⟨d, hd, hds, -, rfl⟩ := hl
        exact ⟨hst.known, hst.free rfl hd rfl ⟨_, List.mem_cons_self, hds.symm⟩⟩
      · cases Eval.find?_bindLexicals hfr hc
    refine .leads (k := j.enter fr (slots a.scoping m.id pl.activation) kept) hframe (.refl _ _)
      (((hss hentered ?_ ?_)).relink fun r j' hr => ?_)
    · refine hs.enter hj ha (ho.scope hne).2 hopens hp hbelow (fun s hs h => ?_)
        (fun d hd hds => Env.enter_other hfn.analysed hd hds) (fun d hd hds k => ?_)
        (fun d hd hds => hkept hne d hd hds)
      · exact h.resolve_right fun h => hs h.2
      · rw [show env.enter a.scoping m.id pl.activation d.id = _ from
          Env.enter_own hfn.analysed hd hds]
        exact slots_iff ha hd hds
    · refine hst.enter
        (fun y hy => ⟨hbelow y hy, Nat.ne_of_lt (within_block hfn.analysed hin y hy).2⟩)
        (fun {x l} hl => ?_) fun hl d hd hid => scope_of_slots ha hl hd hid
      obtain ⟨-, -, -, -, rfl⟩ := hl
      rfl
    -- the lodgers move out
    · refine ⟨j'.forget j.store.frames.size, rfl, rfl, hr.agree.forget _, ?_, fun _ _ => trivial,
        fun w hw => hr.stop w hw⟩
      refine Grows.forget (hle.enter_forget fun hk {x l} hl => ?_) hr.grows
      obtain ⟨-, -, -, -, rfl⟩ := hl
      exact hnew hk

/-! ## Blocks that are not the body of a loop -/

/-- A new activation. -/
theorem Matches.activate (hj : j.Matches) : (j.goTo j.store j.machine.activate).Matches ∧
    j.Grows (j.goTo j.store j.machine.activate) :=
  hj.leaves ((Leaves.refl j).activate hj)

/-- A block with or without a wrapper. -/
theorem innerBlock_follows (hfn : fn.Settled globals a) (hno : a.scoping.NoLoopBody (.mk m ss))
    (ho : a.scoping.OpensBlock (.mk m ss) sc) (hin : ∀ y ∈ (Block.mk m ss).nodes, y ∈ fn.nodes)
    (hss : Followed i a.scoping fs ((Block.mk m ss).scopeIn sc) ((Block.mk m ss).lexicals ≠ [])
      jumps (Stmt.nodesOfList ss) (fun f n => Eval.stmts n (Stmt.mapList Mark.span ss) f)
      fun pl env k => stmts k a.scoping ss pl env)
    (hj : j.Matches) (hs : j.Resides a.scoping sc f env (Block.mk m ss).nodes (· = fs))
    (hst : j.Stays a.scoping pl (Block.mk m ss).nodes) :
    Follows i (fun n => Eval.block n (.mk m.span (Stmt.mapList Mark.span ss)) f)
      (fun k => block k a.scoping (.mk m ss) pl env) j (Runs j pl jumps) := by
  have hx := hin _ List.mem_cons_self
  cases hw : a.scoping.blockWrapper? (.mk m ss) with
  | none =>
    refine .right (k := j) (.step rfl fun k => ?_) rfl (block_follows False pl hfn ho hin hss
      (fun hne d hd hds hc => ?_) hj (.refl hj) False.elim hs hst)
    · rw [block, hw]
      rfl
    · refine hfn.not_closes hd (hfn.analysed.of_plainBlock hx ho hno hw hne hd hds).2
        (fun y hy => ?_) hc
      rw [hds]
      exact within_block hfn.analysed hin y hy
  | some w =>
    obtain ⟨hne, -⟩ := hfn.analysed.of_wrappedBlock hx ho hw
    obtain ⟨hj', hgrows⟩ := hj.activate
    refine .right (k := j.goTo j.store j.machine.activate) (.step rfl fun k => ?_) rfl
      ((block_follows True ⟨j.machine.activations, false, []⟩ hfn ho hin hss
        (fun _ _ _ _ _ => trivial) hj' hgrows (fun _ => Nat.le_refl _)
        (hs.extends hgrows.toExtends)
        (.fresh hj (Nat.le_refl _) (Nat.lt_succ_self _) false)).dispatched hst)
    rw [block, hw, show env.block a.scoping (.mk m ss) j.machine.activations =
      env.enter a.scoping m.id j.machine.activations by simp [Env.block, hne, Block.mark]]
    rfl

/-! ## Wrappers of loops -/

/-- What the wrapper of a loop has written back if the loop goes on. -/
def Handed (ws : List (Location × Location)) (r : Except Interrupt Unit) (j : Joint) : Prop :=
  r = .ok () ∨ r = .error .continued → ∀ q ∈ ws, j.machine.cells q.1 = j.machine.cells q.2

/-- The machine writes back at the end of the wrapper of a loop, and goes on with what it was left
    by. -/
theorem Follows.handed {x : Nat → FlatScope.Run Unit} {y : Nat → Run Unit} {g : FrameId}
    {ws : List (Location × Location)} {ns : List (Node Mark)}
    (h : Follows i x y j (Runs j₀ ⟨g, false, ws⟩ true)) (hst : j₀.Stays a.scoping pl ns)
    (hws : ∀ q ∈ ws, ws = [q] ∧ q.1.activation < j₀.machine.activations ∧ j₀.Free q.1) :
    Follows i x (fun k => dispatch pl true (do y k; copyAll ws)) j
      fun r j' => Runs j₀ { pl with inLoop := true } true r j' ∧ Handed ws r j' := by
  simp only [World.dispatch_eq, bind_andThen]
  refine h.finish fun r j' hr => ?_
  cases r with
  | ok u =>
    obtain ⟨hj', hgrows⟩ := hr.agree.leaves ((Leaves.refl j').copyAll fun q hq =>
      hr.grows.free (hws q hq).2.1 (hws q hq).2.2)
    exact ⟨j'.goTo j'.store (j'.machine.copyAll ws), rfl, rfl,
      .ok hj' (hr.grows.trans hgrows) trivial, fun _ => copied _ fun q hq => (hws q hq).1⟩
  | error w =>
    obtain ⟨j'', hs, hl, hrun⟩ := resume_ended (b := true) hst hr
    refine ⟨j'', hs, hl, hrun, ?_⟩
    rintro (hw | hw) <;> cases hw
    -- a loop is around, so nothing else is left
    obtain ⟨-, hm⟩ := Outcome.ended_inj
      (show Outcome.ended (.error .continued) j'.machine = _ from hl)
    rw [← hm]
    exact (hr.stop _ rfl).2 rfl

end Regional.Joint

end FlatScope
