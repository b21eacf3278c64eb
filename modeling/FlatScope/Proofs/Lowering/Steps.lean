import FlatScope.Proofs.Lowering.Hosting

/-!
# The steps of a lowering succeed

What the steps of `Lower` that lower no code themselves do: a fresh name is made, a wrapper is
called, the drivers of a loop are made. None of them fails on resolved code. In particular, a call
finds somewhere to go on with each of its signals (`planDispatch_eq`), because a `break` or
`continue` only leaves code that a loop is around (`Stmt.inLoop_of_mayExit`).
-/

namespace FlatScope

/-! ## Exits -/

mutual

/-- A `break` or `continue` that leaves a statement leaves it for a loop around it. -/
theorem Stmt.inLoop_of_mayExit {a : Scoping} {globals : List Name} {e : Exit} (he : e ≠ .ret) :
    ∀ (s : Stmt Mark) {fs sc : ScopeId} {inLoop inner : Bool},
      a.ResolvedStmt globals fs sc inLoop s → s.mayExit e inner → inLoop ∧ !inner
  | .declaration .., _, _, _, _, _, hm => by simp [Stmt.mayExit] at hm
  | .assignment .., _, _, _, _, _, hm => by simp [Stmt.mayExit] at hm
  | .expression .., _, _, _, _, _, hm => by simp [Stmt.mayExit] at hm
  | .block b, _, _, _, _, h, hm => by
    simp only [Scoping.ResolvedStmt] at h
    exact b.inLoop_of_mayExit he h.2 hm
  | .branch _ _ t none, _, _, _, _, h, hm => by
    simp only [Scoping.ResolvedStmt] at h
    exact t.inLoop_of_mayExit he h.2.2 (by simpa [Stmt.mayExit] using hm)
  | .branch _ _ t (some f), _, _, _, _, h, hm => by
    simp only [Scoping.ResolvedStmt] at h
    rcases Bool.or_eq_true .. ▸ (hm : (t.mayExitIn e _ || f.mayExitIn e _) = true) with hm | hm
    · exact t.inLoop_of_mayExit he h.2.2.1 hm
    · exact f.inLoop_of_mayExit he h.2.2.2.2 hm
  | .loop _ _ b, _, _, _, _, h, hm => by
    simp only [Scoping.ResolvedStmt] at h
    have := b.inLoop_of_mayExit he h.2.2.2 hm
    simp at this
  | .ret .., _, _, _, _, _, hm => by simp_all [Stmt.mayExit]
  | .brk _, _, _, _, _, h, hm => by
    simp only [Scoping.ResolvedStmt] at h
    simp_all [Stmt.mayExit]
  | .cont _, _, _, _, _, h, hm => by
    simp only [Scoping.ResolvedStmt] at h
    simp_all [Stmt.mayExit]
  | .unknown .., _, _, _, _, _, hm => by simp [Stmt.mayExit] at hm

theorem Stmt.inLoop_of_mayExitList {a : Scoping} {globals : List Name} {e : Exit} (he : e ≠ .ret) :
    ∀ (ss : List (Stmt Mark)) {fs sc : ScopeId} {inLoop inner : Bool},
      a.ResolvedStmts globals fs sc inLoop ss → Stmt.mayExitList e inner ss → inLoop ∧ !inner
  | [], _, _, _, _, _, hm => by simp [Stmt.mayExitList] at hm
  | s :: ss, _, _, _, _, h, hm => by
    simp only [Scoping.ResolvedStmts] at h
    rcases Bool.or_eq_true .. ▸
      (hm : (s.mayExit e _ || Stmt.mayExitList e _ ss) = true) with hm | hm
    · exact s.inLoop_of_mayExit he h.1 hm
    · exact Stmt.inLoop_of_mayExitList he ss h.2 hm

theorem Block.inLoop_of_mayExit {a : Scoping} {globals : List Name} {e : Exit} (he : e ≠ .ret) :
    ∀ (b : Block Mark) {fs sc : ScopeId} {inLoop inner : Bool},
      a.ResolvedBlock globals fs sc inLoop b → b.mayExitIn e inner → inLoop ∧ !inner
  | .mk _ ss, _, _, _, _, h, hm => by
    simp only [Scoping.ResolvedBlock] at h
    exact Stmt.inLoop_of_mayExitList he ss h.2 hm

end

/-- The exits of a block are those by which it may be left. -/
theorem Block.mem_exits {b : Block Mark} {e : Exit} :
    e ∈ b.exits ↔ Stmt.mayExitList e false b.statements := by
  cases e <;> simp [Block.exits, Stmt.exits, Exit.all]

/-! ## Dispatch -/

/-- What the call of a wrapper does about a signal that has somewhere to go. -/
def CallSite.action (site : CallSite) : Exit → ExitAction
  | .ret => if site.inWrapper then .propagate else .returnValue
  | .brk | .cont => if site.inLoop then .jump else .propagate

/-- The signals that may arrive at a call have somewhere to go. -/
def CallSite.Handles (site : CallSite) (exits : List Exit) : Prop :=
  ∀ e ∈ exits, e ≠ .ret → site.inLoop ∨ site.inWrapper

/-- What a call does about the signals of a wrapper, in the order in which it tests for them. -/
def CallSite.plan (site : CallSite) (exits : List Exit) : List (Exit × ExitAction) :=
  (Exit.all.filter exits.contains).map fun e => (e, site.action e)

theorem planExit_eq {site : CallSite} {e : Exit} (h : e ≠ .ret → site.inLoop ∨ site.inWrapper) :
    planExit site e = .ok (site.action e) := by
  cases e with
  | ret => rfl
  | brk | cont =>
    have := h (by decide)
    cases hl : site.inLoop <;> cases hw : site.inWrapper <;>
      simp_all [planExit, CallSite.action]

theorem planDispatch_eq {exits : List Exit} {site : CallSite} (h : site.Handles exits) :
    planDispatch exits site = .ok (site.plan exits) := by
  have hall : ∀ es : List Exit, (∀ e ∈ es, e ∈ exits) →
      (es.mapM fun e => do return (e, ← planExit site e) : Except Rejection _) =
        .ok (es.map fun e => (e, site.action e)) := by
    intro es
    induction es with
    | nil => exact fun _ => rfl
    | cons e es ih =>
      intro hes
      rw [List.mapM_cons, planExit_eq (h e (hes e List.mem_cons_self)),
        ih fun f hf => hes f (List.mem_cons_of_mem _ hf)]
      rfl
  exact hall _ fun e he => by simpa using (List.mem_filter.1 he).2

/-- The statements by which a call handles its signals. -/
def CallSite.handlers (site : CallSite) (signal : Name) (exits : List Exit) (ws : WriteBacks)
    (span : Span) : List (Stmt Span) :=
  if !(site.plan exits).isEmpty && (site.plan exits).all (·.2 = .propagate) then
    [propagateAll signal ws span]
  else (site.plan exits).map fun (e, action) => handleSignal signal ws span e action

theorem signalCall_eq {call : Expr Span} {signal : Name} {exits : List Exit} {site : CallSite}
    {ws : WriteBacks} {span : Span} (h : site.Handles exits) :
    signalCall call signal exits site ws span =
      .ok (.declaration span signal .var (some call) :: site.handlers signal exits ws span) := by
  rw [signalCall, dispatchStmts, planDispatch_eq h, CallSite.handlers]
  by_cases hall : (!(site.plan exits).isEmpty && (site.plan exits).all (·.2 = .propagate)) = true
  · simp only [bind, Except.bind, if_pos hall]
    rfl
  · simp only [bind, Except.bind, if_neg hall]
    rfl

namespace Lower

variable {p : LoweringPlan} {fn : FunctionDef Mark} {globals : List Name} {r : Region}
  {fs sc n m : Nat} {st st' : LoweringState} {α β : Type}

/-! ## Steps -/

theorem bind_eq {x : Lower α} {f : α → Lower β} {a : α} (h : x st = .ok (a, st')) :
    (x >>= f) st = f a st' := by
  change (x st >>= fun y => f y.1 y.2) = f a st'
  rw [h]
  rfl

/-- A fresh name is made. -/
theorem fresh_eq (stem : Name) (st : LoweringState) : ∃ x st', fresh stem st = .ok (x, st') ∧
    x ∉ st.supply.taken ∧ st'.supply.taken = x :: st.supply.taken ∧ st'.hoisted = st.hoisted ∧
    ∃ k, x = NameSupply.numbered stem k :=
  ⟨_, _, rfl, st.supply.fresh_not_mem stem, rfl, rfl, _, rfl⟩

theorem hoist_eq (b : BindingId) (st : LoweringState) : ∃ st', hoist b st = .ok ((), st') ∧
    st'.supply = st.supply ∧ ∀ i, i ∈ st'.hoisted ↔ i ∈ st.hoisted ∨ i = b := by
  refine ⟨_, rfl, ?_, fun i => ?_⟩
  · dsimp only
    split <;> rfl
  · dsimp only
    split
    · rename_i hb
      have hb : b ∈ st.hoisted := by simpa using hb
      exact ⟨.inl, fun hi => hi.elim id fun hi => hi ▸ hb⟩
    · simp

theorem withHoisted_eq {code : Lower (List (Stmt Span))} {out : List (Stmt Span)}
    (h : code ⟨st.supply, []⟩ = .ok (out, st')) :
    withHoisted p code st =
      .ok (p.hoistedDeclarations st'.hoisted ++ out, ⟨st'.supply, st.hoisted⟩) := by
  change (code ⟨st.supply, []⟩ >>= fun y =>
    Except.ok (p.hoistedDeclarations y.2.hoisted ++ y.1, (⟨y.2.supply, st.hoisted⟩ :
      LoweringState))) = _
  rw [h]
  rfl

/-- A single variable with a made name that holds no binding. -/
theorem piece_of_fresh (p : LoweringPlan) (r : Region) (fs sc n : Nat) {x : Name} {ρ : Role}
    (hx : x ∉ st.supply.taken)
    (ht : st'.supply.taken = x :: st.supply.taken) (hh : st'.hoisted = st.hoisted) {stem : Name}
    (hρ : ρ.stem? = some stem) (hk : ∃ k, x = NameSupply.numbered stem k) :
    p.Piece r fs sc n n st st' [] [(x, ρ)] := by
  have hnot : ∀ s, ρ ≠ .holds s := fun s he => by
    rw [he] at hρ
    cases hρ
  refine ⟨fun y hy => ht ▸ List.mem_cons_of_mem _ hy, fun υ hυ => ?_, fun hσ hτ _ => ?_,
    fun hx _ => ?_, by simp [hh], by simp +contextual [hh], by simp⟩
  · obtain rfl := List.mem_singleton.1 hυ
    refine .inr ⟨hx, ht ▸ List.mem_cons_self, ⟨fun b => hnot _, fun s hs => ?_⟩,
      fun b hb => absurd hb (hnot _)⟩
    rwa [← Option.some.inj (hρ.symm.trans hs)]
  · rw [List.mem_singleton, Prod.mk.injEq] at hσ hτ
    rw [hσ.2, hτ.2]
  · rw [List.mem_singleton, Prod.mk.injEq] at hx
    exact absurd hx.2.symm (hnot _)

/-- The call of a wrapper. -/
theorem callWrapper_ok (p : LoweringPlan) (r : Region) (fs sc n : Nat) (call : Expr Span)
    {exits : List Exit} {site : CallSite} (span : Span) (h : site.Handles exits)
    (st : LoweringState) : ∃ out roles st',
      callWrapper call exits site r.writeBacks span st = .ok (out, st') ∧
        r.Calls exits site span call out roles ∧ p.Piece r fs sc n n st st' [] roles := by
  unfold callWrapper
  split
  · rename_i hempty
    refine ⟨_, [], st, rfl, ?_, .nothing (fun _ hx => hx) rfl⟩
    rw [Region.Calls, if_pos hempty]
    exact ⟨rfl, rfl⟩
  · rename_i hne
    obtain ⟨x, st', hfresh, hx, ht, hh, hk⟩ := fresh_eq "$sig" st
    refine ⟨.declaration span x .var (some call) :: site.handlers x exits r.writeBacks span,
      [(x, .signal)], st', ?_, ?_, piece_of_fresh p r fs sc n hx ht hh rfl hk⟩
    · rw [bind_eq hfresh, signalCall_eq h]
      rfl
    · rw [Region.Calls, if_neg hne]
      exact ⟨x, signalCall_eq h, rfl⟩

/-- The drivers of a loop. -/
theorem makeDrivers_ok (p : LoweringPlan) (plan : LoopPlan) (st : LoweringState) :
    ∃ drivers st', makeDrivers p plan st = .ok (drivers, st') ∧ drivers.map (·.1) = plan.fresh ∧
      (∀ d ∈ drivers, d.2 ∉ st.supply.taken ∧ d.2 ∈ st'.supply.taken) ∧
      (∀ x ∈ st.supply.taken, x ∈ st'.supply.taken) ∧ st'.hoisted = st.hoisted := by
  unfold makeDrivers
  generalize plan.fresh = bs
  induction bs generalizing st with
  | nil => exact ⟨[], st, rfl, rfl, by simp, fun _ hx => hx, rfl⟩
  | cons b bs ih =>
    obtain ⟨x, s₁, hfresh, hx, ht, hh, -⟩ := fresh_eq (Naming.stem (p.naming.nameOf b)) st
    obtain ⟨ds, s₂, hrest, hkeys, hnew, hmono, hh₂⟩ := ih s₁
    have hstep : (do return (b, ← fresh (Naming.stem (p.naming.nameOf b))) : Lower _) st =
        .ok ((b, x), s₁) := by
      rw [bind_eq hfresh]
      rfl
    refine ⟨(b, x) :: ds, s₂, ?_, by simp [hkeys], fun d hd => ?_, fun y hy => ?_, hh₂.trans hh⟩
    · rw [List.mapM_cons, bind_eq hstep, bind_eq hrest]
      rfl
    · rcases List.mem_cons.1 hd with rfl | hd
      · exact ⟨hx, hmono _ (ht ▸ List.mem_cons_self)⟩
      · obtain ⟨hn, hy⟩ := hnew d hd
        exact ⟨fun hm => hn (ht ▸ List.mem_cons_of_mem _ hm), hy⟩
    · exact hmono y (ht ▸ List.mem_cons_of_mem _ hy)

end Lower

namespace LoweringPlan

variable {p : LoweringPlan} {fn : FunctionDef Mark} {globals : List Name} {r : Region}
  {fs n m : Nat} {st st₁ st₂ : LoweringState} {vars : List (Name × Mark)} {roles : Roles}

/-- The drivers of a loop are for bindings of its header, of which there is at most one, and their
    names are made before the header is lowered. -/
structure Drives (p : LoweringPlan) (mark : Mark) (hd : Header Mark)
    (drivers : List (BindingId × Name)) (st st₁ : LoweringState) : Prop where
  declared : drivers ≠ [] → (Resolve.headerLexical? hd).isSome
  keys : ∀ d ∈ drivers, ∃ c ∈ p.analysis.scoping.bindings, c.id = d.1 ∧ c.scope = mark.id
  one : ∀ d ∈ drivers, ∀ e ∈ drivers, d.1 = e.1
  others : (Resolve.headerLexical? hd).isSome → ∀ c ∈ p.analysis.scoping.bindings,
    c.scope = mark.id → c.id ∉ drivers.map (·.1) → p.analysis.Inlined c
  new : ∀ d ∈ drivers, d.2 ∉ st.supply.taken ∧ d.2 ∈ st₁.supply.taken
  taken : ∀ x ∈ st.supply.taken, x ∈ st₁.supply.taken
  hoisted : st₁.hoisted = st.hoisted

theorem drives_of_fresh (hp : p.Sound fn globals) {mark : Mark} {hd : Header Mark} {b : Block Mark}
    {sc : ScopeId} (hx : .stmt (.loop mark hd b) ∈ fn.nodes)
    (ho : p.analysis.scoping.OpensLoop mark.id hd sc) {drivers : List (BindingId × Name)}
    (hkeys : drivers.map (·.1) = p.analysis.scoping.freshOf mark.id hd)
    (hnew : ∀ d ∈ drivers, d.2 ∉ st.supply.taken ∧ d.2 ∈ st₁.supply.taken)
    (htaken : ∀ x ∈ st.supply.taken, x ∈ st₁.supply.taken) (hh : st₁.hoisted = st.hoisted) :
    p.Drives mark hd drivers st st₁ := by
  have hmem : ∀ {d}, d ∈ drivers → (Resolve.headerLexical? hd).isSome ∧
      d.1 ∈ p.analysis.scoping.bindingIdsOf mark.id := by
    intro d hd'
    have hin : d.1 ∈ p.analysis.scoping.freshOf mark.id hd := hkeys ▸ List.mem_map_of_mem hd'
    rw [Scoping.freshOf] at hin
    split at hin
    · exact ⟨‹_›, (List.mem_filter.1 hin).1⟩
    · cases hin
  refine ⟨fun hne => ?_, fun d hd' => ?_, fun d hd' e he => ?_, fun hsome c hc hs hn => ?_, hnew,
    htaken, hh⟩
  · obtain ⟨d, hd'⟩ := List.exists_mem_of_ne_nil _ hne
    exact (hmem hd').1
  · obtain ⟨c, hc, hid, hs⟩ := hp.analysed.consistent.mem_bindingIdsOf.1 (hmem hd').2
    exact ⟨c, hc, hid, hs⟩
  · obtain ⟨l, hlex⟩ := Option.isSome_iff_exists.1 (hmem hd').1
    obtain ⟨c, -, -, -, -, -, hids⟩ := hp.analysed.of_header ho hlex
    have h₁ := (hmem hd').2
    have h₂ := (hmem he).2
    rw [hids, List.mem_singleton] at h₁ h₂
    rw [h₁, h₂]
  · rw [hkeys] at hn
    exact (hp.analysed.of_sharedHeader hx ho hsome hc hs hn).1

/-- The drivers of a loop are variables of its header. -/
theorem driver_role (hp : p.Sound fn globals) {mark : Mark} {hd : Header Mark} {sc sc' : ScopeId}
    (ho : p.analysis.scoping.OpensLoop mark.id hd sc) {drivers : List (BindingId × Name)}
    (hkeys : drivers.map (·.1) = p.analysis.scoping.freshOf mark.id hd) {hd' : Header Span}
    (hlow : p.LowersHeader (r.loopHeader drivers) sc' hd hd' roles) {d : BindingId × Name}
    (hd : d ∈ drivers) : (d.2, Role.holds (.driver d.1)) ∈ roles := by
  have hin : d.1 ∈ drivers.map (·.1) := List.mem_map_of_mem hd
  rw [hkeys] at hin
  rw [Scoping.freshOf] at hin hkeys
  split at hin
  · rename_i hsome
    obtain ⟨l, hlex⟩ := Option.isSome_iff_exists.1 hsome
    obtain ⟨e, hem, hdecl, -, -, heo, hids⟩ := hp.analysed.of_header ho hlex
    rw [if_pos hsome] at hkeys
    have hnd : (drivers.map (·.1)).Nodup := by
      rw [hkeys, hids]
      exact List.Pairwise.sublist List.filter_sublist (List.pairwise_singleton _ _)
    have hde : d.1 = e.id := by
      have := (List.mem_filter.1 hin).1
      rwa [hids, List.mem_singleton] at this
    obtain ⟨c, hc, hrole⟩ := role_of_header hlow hlex
    rw [hdecl] at hc
    cases hc
    have hl : (r.loopHeader drivers).drivers.lookup d.1 = some d.2 :=
      Table.lookup_append_of_some (Table.lookup_of_mem hnd hd)
    have hno := hrole (by
      rw [heo]
      simpa [Origin.isFunctionScoped] using Resolve.headerLexical?_kind hlex)
    rwa [← hde, role_of_some hl] at hno
  · cases hin

namespace Drives

variable {mark : Mark} {hd : Header Mark} {drivers : List (BindingId × Name)}

/-- Other bindings than those of the header have no driver. -/
theorem not_mem (h : p.Drives mark hd drivers st st₁) (hp : p.Sound fn globals) {d : Binding}
    (hdm : d ∈ p.analysis.scoping.bindings) (hs : d.scope ≠ mark.id) :
    d.id ∉ drivers.map (·.1) := by
  intro hm
  obtain ⟨e, he, hid⟩ := List.mem_map.1 hm
  obtain ⟨c, hc, hce, hcs⟩ := h.keys e he
  exact hs (hp.analysed.eq_of_id hc hdm (hce.trans hid) ▸ hcs)

theorem role_eq {i : BindingId} (hi : i ∉ drivers.map (·.1)) :
    p.role (r.loopHeader drivers) i = p.role r i := by
  have hl : (drivers ++ r.drivers).lookup i = r.drivers.lookup i :=
    Table.lookup_append_of_none (Table.lookup_eq_none.2 hi)
  cases hr : r.drivers.lookup i with
  | none => rw [role_of_none hr, role_of_none (r := r.loopHeader drivers) (hl.trans hr)]
  | some x => rw [role_of_some hr, role_of_some (r := r.loopHeader drivers) (hl.trans hr)]

/-- A region with the drivers of a loop fits its header. -/
theorem fits (h : p.Drives mark hd drivers st st₁) {sc : ScopeId}
    (ho : p.analysis.scoping.OpensLoop mark.id hd sc) (hf : p.Fits r fs mark.id st) :
    p.Fits (r.loopHeader drivers) fs (mark.id + 1) st₁ where
  function := hf.function
  drivers {b x} hb := by
    cases hl : drivers.lookup b with
    | none =>
      rw [Region.loopHeader, Table.lookup_append_of_none hl] at hb
      obtain ⟨d, hd, hid, hk, hlt, ht, hnew⟩ := hf.drivers hb
      exact ⟨d, hd, hid, hk, Nat.lt_succ_of_lt hlt, h.taken _ ht, hnew⟩
    | some y =>
      rw [Region.loopHeader, Table.lookup_append_of_some hl] at hb
      cases hb
      have hmem := Table.mem_of_lookup hl
      obtain ⟨c, hc, hcb, hcs⟩ := h.keys _ hmem
      obtain ⟨l, hlex⟩ := Option.isSome_iff_exists.1 (h.declared (List.ne_nil_of_mem hmem))
      refine ⟨c, hc, hcb, hcs ▸ FunctionDef.Analysed.hasScope_of_opens (ho l hlex).1,
        hcs ▸ Nat.lt_succ_self _, (h.new _ hmem).2, fun hx => (h.new _ hmem).1 (hf.supply _ hx)⟩
  supply x hx := h.taken x (hf.supply x hx)

/-- The variables of the header of a loop, drivers included, as those of the loop. -/
theorem piece (h : p.Drives mark hd drivers st st₁) (hp : p.Sound fn globals) {sc : ScopeId}
    (ho : p.analysis.scoping.OpensLoop mark.id hd sc) (hf : p.Fits r fs mark.id st)
    (hpiece : p.Piece (r.loopHeader drivers) fs (hd.scopeIn mark.id sc) (mark.id + 1) m st₁ st₂
      vars roles) (hlt : mark.id < m) :
    p.Piece r fs sc mark.id m st st₂ vars roles := by
  -- the variable of a binding without a driver is the same outside of the header
  have hrole : ∀ {d}, d ∈ p.analysis.scoping.bindings → d.id ∉ drivers.map (·.1) →
      p.role (r.loopHeader drivers) d.id = p.role r d.id := fun _ hn => role_eq hn
  have hdriver : ∀ {d : Binding}, d.id ∈ drivers.map (·.1) → ∃ x, (d.id, x) ∈ drivers ∧
      p.role (r.loopHeader drivers) d.id = (x, .holds (.driver d.id)) := by
    intro d hm
    obtain ⟨x, hx⟩ := Table.exists_lookup.2 hm
    have hl : (drivers ++ r.drivers).lookup d.id = some x := Table.lookup_append_of_some hx
    exact ⟨x, Table.mem_of_lookup hx, role_of_some hl⟩
  have hfits := h.fits ho hf
  refine ⟨fun x hx => hpiece.taken x (h.taken x hx), fun ρ hρ => ?_,
    fun {x σ τ} hσ hτ hx => ?_, hpiece.injective, fun b hb => hpiece.hoists b (h.hoisted ▸ hb),
    fun b hb => h.hoisted ▸ hpiece.hoisted b hb, hpiece.vars⟩
  · rcases hpiece.each ρ hρ with ⟨d, hdm, rfl, ⟨hw, hs⟩ | hs | ⟨hi, hl, hu⟩⟩ | ⟨hn, ht, hb, hd'⟩
    · have hn : d.id ∉ drivers.map (·.1) := fun hm => by
        obtain ⟨e, he, hid⟩ := List.mem_map.1 hm
        obtain ⟨c, hc, hce, hcs⟩ := h.keys e he
        cases hp.analysed.eq_of_id hc hdm (hce.trans hid)
        obtain ⟨l, hlex⟩ := Option.isSome_iff_exists.1 (h.declared (List.ne_nil_of_mem he))
        have hloop := FunctionDef.Analysed.hasScope_of_opens (ho l hlex).1
        exact absurd (hp.analysed.consistent.kind_unique (hs ▸ hf.function) (hcs ▸ hloop))
          (by decide)
      exact .inl ⟨d, hdm, hrole hdm hn, .inl ⟨hw, hs⟩⟩
    · by_cases hsome : (Resolve.headerLexical? hd).isSome
      · rw [Header.scopeIn, if_pos hsome] at hs
        by_cases hm : d.id ∈ drivers.map (·.1)
        · obtain ⟨x, hx, he⟩ := hdriver hm
          rw [he]
          exact .inr ⟨(h.new _ hx).1, hpiece.taken _ (h.new _ hx).2,
            ⟨by simp, by simp [Role.stem?]⟩, fun b hb => by
            obtain rfl : d.id = b := by simpa using hb
            exact ⟨d, hdm, rfl, Nat.le_of_eq hs.symm, hs ▸ hlt⟩⟩
        · exact .inl ⟨d, hdm, hrole hdm hm, .inr (.inr ⟨h.others hsome d hdm hs hm,
            Nat.le_of_eq hs.symm, hs ▸ hlt⟩)⟩
      · rw [Header.scopeIn, if_neg hsome] at hs
        have hn : d.id ∉ drivers.map (·.1) := fun hm => by
          obtain ⟨e, he, -⟩ := List.mem_map.1 hm
          exact hsome (h.declared (List.ne_nil_of_mem he))
        exact .inl ⟨d, hdm, hrole hdm hn, .inr (.inl hs)⟩
    · have hn : d.id ∉ drivers.map (·.1) :=
        h.not_mem hp hdm fun he => Nat.lt_irrefl _ (he ▸ hl : mark.id + 1 ≤ mark.id)
      exact .inl ⟨d, hdm, hrole hdm hn, .inr (.inr ⟨hi, Nat.le_of_succ_le hl, hu⟩)⟩
    · refine .inr ⟨fun hx => hn (h.taken _ hx), ht, hb, fun b hb => ?_⟩
      obtain ⟨d, hdm, hid, hl, hu⟩ := hd' b hb
      exact ⟨d, hdm, hid, Nat.le_of_succ_le hl, hu⟩
  · by_cases hx₁ : x ∈ st₁.supply.taken
    · have hof : ∀ {υ}, (x, υ) ∈ roles → ∃ e ∈ drivers, υ = .holds (.driver e.1) := by
        intro υ hυ
        rcases hpiece.each _ hυ with ⟨d, hdm, he, -⟩ | ⟨hn, -⟩
        · by_cases hm : d.id ∈ drivers.map (·.1)
          · obtain ⟨y, hy, hey⟩ := hdriver hm
            rw [hey] at he
            exact ⟨_, hy, congrArg (·.2) he⟩
          · rw [hrole hdm hm] at he
            have hname : x = (p.role r d.id).1 := congrArg (·.1) he
            exact absurd (hname ▸ hf.role_taken hp hdm) hx
        · exact absurd hx₁ hn
      obtain ⟨d, hd, rfl⟩ := hof hσ
      obtain ⟨e, he, rfl⟩ := hof hτ
      rw [h.one d hd e he]
    · exact hpiece.coherent hσ hτ hx₁

end Drives

end LoweringPlan

end FlatScope
