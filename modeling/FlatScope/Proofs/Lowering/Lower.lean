import FlatScope.Proofs.Lowering.Steps

/-!
# Lowering succeeds

Every analysed function can be lowered, and what comes out is related to it as `LowersFunction` says
(`FunctionDef.Analysed.lower_lowers`). The proof goes through the code as the lowering does; besides
the relation, the variables of each piece are collected (`LoweringPlan.Piece`), so that a function
or wrapper is known to host its code once its end is reached.
-/

namespace FlatScope

open Node

namespace LoweringPlan

variable {p : LoweringPlan} {fn : FunctionDef Mark} {globals : List Name} {r r' : Region}
  {fs sc sc' n m : Nat} {st st' : LoweringState} {vars : List (Name × Mark)} {roles : Roles}

/-- The variables of an inner scope whose bindings are inlined are those of the outer one. -/
theorem Piece.inline (h : p.Piece r fs sc' n m st st' vars roles)
    (hsc : sc' = sc ∨ n ≤ sc' ∧ sc' < m ∧ ∀ d ∈ p.analysis.scoping.bindings, d.scope = sc' →
      p.analysis.Inlined d) : p.Piece r fs sc n m st st' vars roles where
  taken := h.taken
  each ρ hρ := by
    rcases h.each ρ hρ with ⟨d, hd, he, hs | hs | hi⟩ | hm
    · exact .inl ⟨d, hd, he, .inl hs⟩
    · rcases hsc with rfl | ⟨hl, hu, hin⟩
      · exact .inl ⟨d, hd, he, .inr (.inl hs)⟩
      · exact .inl ⟨d, hd, he, .inr (.inr ⟨hin d hd hs, hs ▸ hl, hs ▸ hu⟩)⟩
    · exact .inl ⟨d, hd, he, .inr (.inr hi)⟩
    · exact .inr hm
  coherent := h.coherent
  injective := h.injective
  hoists := h.hoists
  hoisted := h.hoisted
  vars := h.vars

/-- What the code of a wrapper leaves outside of the wrapper. -/
theorem Piece.enclosed {s : ScopeId} (h : p.Piece r' fs sc' n m st st' vars roles)
    (hr : r'.inWrapper = true) : p.Piece r fs s n m st st' vars [] where
  taken := h.taken
  each := by simp
  coherent := by simp
  injective := by simp
  hoists := h.hoists
  hoisted := h.hoisted
  vars v hv := by
    obtain ⟨d, hd, hcov⟩ := h.vars v hv
    refine ⟨d, hd, .inr (hcov.resolve_left fun hw => ?_)⟩
    rw [hr] at hw
    cases hw.1

/-- A piece without variables is the same in any scope. -/
theorem Piece.anywhere (h : p.Piece r fs sc' n m st st' vars []) :
    p.Piece r fs sc n m st st' vars [] :=
  { h with each := by simp }

/-- Another region with the same drivers. -/
theorem Piece.region (h : p.Piece r' fs sc n m st st' vars roles) (hd : r'.drivers = r.drivers)
    (hw : r'.inWrapper = r.inWrapper) : p.Piece r fs sc n m st st' vars roles where
  taken := h.taken
  each ρ hρ := by
    have hrole : ∀ i, p.role r' i = p.role r i := fun i => by
      simp only [role, nameOf, Region.slot, hd]
    rcases h.each ρ hρ with ⟨d, hd, he, hs⟩ | hm
    · exact .inl ⟨d, hd, he.trans (hrole d.id), hw ▸ hs⟩
    · exact .inr hm
  coherent := h.coherent
  injective := h.injective
  hoists := h.hoists
  hoisted := h.hoisted
  vars v hv := hw ▸ h.vars v hv

theorem Fits.region {s : Region} (h : p.Fits r fs n st) (hd : s.drivers = r.drivers) :
    p.Fits s fs n st where
  function := h.function
  drivers hb := h.drivers (hd ▸ hb)
  supply := h.supply

/-- A single variable for a binding of the function or of the scope. -/
theorem piece_of_binding {d : Binding} (hd : d ∈ p.analysis.scoping.bindings)
    (hs : r.inWrapper = false ∧ d.scope = fs ∨ d.scope = sc)
    (hv : ∀ v ∈ vars, p.analysis.scoping.declared? v.2.id = some d ∧ r.inWrapper = false ∧
      p.role r d.id = p.ownRole d.id) :
    p.Piece r fs sc n m st st vars [p.role r d.id] where
  taken _ hx := hx
  each := by
    simp only [List.mem_singleton, forall_eq]
    exact .inl ⟨d, hd, rfl, hs.imp_right .inl⟩
  coherent hσ hτ _ := by
    rw [List.mem_singleton] at hσ hτ
    exact congrArg (·.2) (hσ.trans hτ.symm)
  injective hx hy := by
    rw [List.mem_singleton] at hx hy
    have hx' := congrArg (·.1) hx
    exact hx'.trans (congrArg (·.1) hy).symm
  hoists _ hb := hb
  hoisted _ hb := .inl hb
  vars v hv' := by
    obtain ⟨hdecl, hw, hrole⟩ := hv v hv'
    exact ⟨d, hdecl, .inl ⟨hw, by rw [hrole]; exact List.mem_singleton_self _⟩⟩

end LoweringPlan

namespace Lower

open LoweringPlan

variable {p : LoweringPlan} {fn : FunctionDef Mark} {globals : List Name} {r : Region}
  {fs sc n m : Nat} {st : LoweringState}

/-- What a declared binding is, by the kind of its declaration. -/
theorem declares_binding (hp : p.Sound fn globals) {node : NodeId} {x : Name} {k : DeclKind}
    (h : p.analysis.scoping.Declares fs sc node x k) : ∃ b ∈ p.analysis.scoping.bindings,
      p.analysis.scoping.declared? node = some b ∧ b.name = x ∧
        (k ≠ .var ∧ b.scope = sc ∧ b.origin.isFunctionScoped = false ∨
          k = .var ∧ b.scope = fs ∧ b.origin.isFunctionScoped = true) := by
  obtain ⟨b, hb, hl, hk⟩ := h
  obtain ⟨hbm, hbn, -⟩ := hp.analysed.consistent.of_lookup? hl
  refine ⟨b, hbm, hb, hbn, ?_⟩
  cases k with
  | var => exact .inr ⟨rfl, by simpa [DeclKind.isBlockScoped] using hk⟩
  | letVar | const =>
    rw [if_pos (by rfl)] at hk
    exact .inl ⟨by decide, hk.1, Origin.not_functionScoped hk.2 (by rfl)⟩

/-- The declaration of a binding of the function is moved to its top. -/
theorem hoist_ok {mark : Mark} {x : Name} {b : Binding} (hb : b ∈ p.analysis.scoping.bindings)
    (hdecl : p.analysis.scoping.declared? mark.id = some b) (hs : b.scope = fs) :
    ∃ st', hoist b.id st = .ok ((), st') ∧ p.Piece r fs sc n m st st' [(x, mark)] [] := by
  obtain ⟨st', hh, hsup, hmem⟩ := hoist_eq b.id st
  refine ⟨st', hh, by simp [hsup], by simp, by simp, by simp, fun i hi => (hmem i).2 (.inl hi),
    fun i hi => ?_, fun v hv => ?_⟩
  · rcases (hmem i).1 hi with hi | rfl
    · exact .inl hi
    · exact .inr ⟨b, hb, rfl, hs⟩
  · obtain rfl := List.mem_singleton.1 hv
    exact ⟨b, hdecl, .inr ((hmem b.id).2 (.inr rfl))⟩

/-- The declaration of a binding. -/
theorem declaration_lowers (hp : p.Sound fn globals) {mark : Mark} {x : Name} {k : DeclKind}
    (hf : p.Fits r fs n st) {b : Binding} (hb : b ∈ p.analysis.scoping.bindings)
    (hdecl : p.analysis.scoping.declared? mark.id = some b)
    (hk : k ≠ .var ∧ b.scope = sc ∧ b.origin.isFunctionScoped = false ∨
      k = .var ∧ b.scope = fs ∧ b.origin.isFunctionScoped = true) (value : Option (Expr Span)) :
    ∃ out roles st', declaration p r mark b value st = .ok (out, st') ∧
      p.LowersDeclaration r mark b value out roles ∧
      p.Piece r fs sc n m st st' (if k = .var then [(x, mark)] else []) roles := by
  rcases hk with ⟨hk, hs, ho⟩ | ⟨rfl, hs, ho⟩
  · refine ⟨[.declaration mark.span (p.nameOf r b.id) .var
      (some (value.getD (.literal mark.span .undefined)))], [p.role r b.id], st, ?_, ?_,
      piece_of_binding hb (.inr hs) (by simp [hk])⟩
    · rw [declaration, ho]
      rfl
    · rw [LowersDeclaration, if_pos ho]
      exact ⟨rfl, rfl⟩
  · cases hw : r.inWrapper with
    | true =>
      obtain ⟨st', hh, hpiece⟩ := hoist_ok hb hdecl hs
      refine ⟨value.toList.map fun v =>
        .assignment mark.span (.name mark.span (p.nameOf r b.id)) v, [], st', ?_, ?_, hpiece⟩
      · rw [declaration, ho, hw]
        simp only [Bool.not_true, Bool.false_eq_true, if_false, if_true]
        rw [bind_eq hh]
        rfl
      · rw [LowersDeclaration, if_neg (by simp [ho]), if_pos hw]
        exact ⟨rfl, rfl⟩
    | false =>
      have hnone := hf.no_driver hp hb (k := .function) (by decide) (hs ▸ hf.function)
      refine ⟨[.declaration mark.span (p.nameOf r b.id) .var value], [p.role r b.id], st, ?_, ?_,
        piece_of_binding hb (.inl ⟨hw, hs⟩) fun v hv => ?_⟩
      · rw [declaration, ho, hw]
        rfl
      · rw [LowersDeclaration, if_neg (by simp [ho]), if_neg (by simp [hw])]
        exact ⟨rfl, rfl⟩
      · obtain rfl := List.mem_singleton.1 hv
        exact ⟨hdecl, hw, role_of_none hnone⟩

/-- The variable of a loop over a sequence. -/
theorem elementVariable_lowers (hp : p.Sound fn globals) {mark : Mark} {x : Name} {k : DeclKind}
    (hf : p.Fits r fs n st) {b : Binding} (hb : b ∈ p.analysis.scoping.bindings)
    (hdecl : p.analysis.scoping.declared? mark.id = some b)
    (hk : k ≠ .var ∧ b.scope = sc ∧ b.origin.isFunctionScoped = false ∨
      k = .var ∧ b.scope = fs ∧ b.origin.isFunctionScoped = true) :
    ∃ y k' roles st', elementVariable p r mark x (some k) st = .ok ((y, k'), st') ∧
      p.LowersElement r mark x (some k) y k' roles ∧
      p.Piece r fs sc n m st st' (if k = .var then [(x, mark)] else []) roles := by
  rcases hk with ⟨hk, hs, ho⟩ | ⟨rfl, hs, ho⟩
  · refine ⟨p.nameOf r b.id, some .var, [p.role r b.id], st, ?_, ⟨b, hdecl, rfl, ?_⟩,
      piece_of_binding hb (.inr hs) (by simp [hk])⟩
    · simp only [elementVariable, hdecl, ho, Bool.false_and, Bool.false_eq_true, if_false]
      rfl
    · rw [ho, Bool.false_and, if_neg (by simp)]
      exact ⟨rfl, rfl⟩
  · cases hw : r.inWrapper with
    | true =>
      obtain ⟨st', hh, hpiece⟩ := hoist_ok hb hdecl hs
      refine ⟨p.nameOf r b.id, none, [], st', ?_, ⟨b, hdecl, rfl, ?_⟩, hpiece⟩
      · simp only [elementVariable, hdecl, ho, hw, Bool.true_and, if_true]
        rw [bind_eq hh]
        rfl
      · rw [ho, hw, Bool.true_and, if_pos rfl]
        exact ⟨rfl, rfl⟩
    | false =>
      have hnone := hf.no_driver hp hb (k := .function) (by decide) (hs ▸ hf.function)
      refine ⟨p.nameOf r b.id, some .var, [p.role r b.id], st, ?_, ⟨b, hdecl, rfl, ?_⟩,
        piece_of_binding hb (.inl ⟨hw, hs⟩) fun v hv => ?_⟩
      · simp only [elementVariable, hdecl, ho, hw, Bool.and_false, Bool.false_eq_true, if_false]
        rfl
      · rw [ho, hw, Bool.and_false, if_neg (by simp)]
        exact ⟨rfl, rfl⟩
      · obtain rfl := List.mem_singleton.1 hv
        exact ⟨hdecl, hw, role_of_none hnone⟩

/-- A `break` or `continue` of code that has somewhere to go. -/
theorem jump_eq {e : Exit} {span : Span} {plain : Stmt Span} (h : r.inLoop ∨ r.inWrapper) :
    jump r e span plain st =
      .ok (if r.inLoop then [plain] else leave r e none span plain, st) := by
  unfold jump
  cases hl : r.inLoop with
  | true => rfl
  | false =>
    have hw : r.inWrapper = true := by simpa [hl] using h
    simp only [Bool.false_eq_true, if_false, hw, if_true]
    rfl

/-- The clause of a `for`, lowered. -/
def clause {α β : Type} (lower : α → Lower β) : Option α → Lower (Option β)
  | none => pure none
  | some x => do return some (← lower x)

/-- The statement in a clause of a `for`, lowered. -/
def clauseStmt (span : Span) (lower : Stmt Mark → Lower (List (Stmt Span))) :
    Option (Stmt Mark) → Lower (Option (Stmt Span))
  | none => pure none
  | some s => do single span (← lower s)

theorem header_counting (mark : Mark) (i : Option (Stmt Mark)) (c : Option (Expr Mark))
    (u : Option (Stmt Mark)) : header p r (.counting mark i c u) = (do
      let i ← clauseStmt mark.span (stmt p r) i
      let c ← clause (expr p r) c
      let u ← clauseStmt mark.span (stmt p r) u
      return .counting mark.span i c u) := by
  cases i <;> cases c <;> cases u <;>
    simp only [header, clause, clauseStmt, bind_assoc, pure_bind]

/-- A clause of a `for` becomes one statement at most. -/
theorem single_ok {s : Stmt Mark} (hs : s.isInit) {out : List (Stmt Span)} {roles : Roles}
    (h : p.LowersStmt r sc s out roles) (span : Span) (st : LoweringState) :
    ∃ o, single span out st = .ok (o, st) ∧ out = o.toList := by
  have hshort : out = [] ∨ ∃ x, out = [x] := by
    cases s with
    | declaration m x k v =>
      have hdecl : ∃ b v', p.LowersDeclaration r m b v' out roles := by
        cases v with
        | none =>
          obtain ⟨b, -, hb⟩ := h
          exact ⟨b, none, hb⟩
        | some e =>
          obtain ⟨b, e', -, -, hb⟩ := h
          exact ⟨b, some e', hb⟩
      obtain ⟨b, v', hb⟩ := hdecl
      rw [LowersDeclaration] at hb
      split at hb
      · exact .inr ⟨_, hb.1⟩
      · split at hb
        · cases v' with
          | none => exact .inl hb.1
          | some v => exact .inr ⟨_, hb.1⟩
        · exact .inr ⟨_, hb.1⟩
    | assignment =>
      obtain ⟨t, v, -, -, ho, -⟩ := h
      exact .inr ⟨_, ho⟩
    | expression =>
      obtain ⟨e, -, ho, -⟩ := h
      exact .inr ⟨_, ho⟩
    | _ => cases hs
  rcases hshort with rfl | ⟨x, rfl⟩
  · exact ⟨none, rfl, rfl⟩
  · exact ⟨some x, rfl, rfl⟩


/-! ## What is proved of code -/

section Statements

variable (p : LoweringPlan) (fn : FunctionDef Mark) (globals : List Name)

/-- An expression can be lowered into every region that it fits, as `LowersExpr` says. -/
def ExprLowerable (e : Expr Mark) : Prop :=
  ∀ ⦃r : Region⦄ ⦃fs sc n m : Nat⦄ ⦃st : LoweringState⦄, e.IsSource →
    p.analysis.scoping.ResolvedExpr globals sc e →
    Consecutive n e.nodes m → (∀ x ∈ e.nodes, x ∈ fn.nodes) → p.Fits r fs n st →
    ∃ e' st', expr p r e st = .ok (e', st') ∧ p.LowersExpr r e e' ∧
      p.Piece r fs sc n m st st' [] []

/-- Expressions can be lowered. -/
def ExprsLowerable (es : List (Expr Mark)) : Prop :=
  ∀ ⦃r : Region⦄ ⦃fs sc n m : Nat⦄ ⦃st : LoweringState⦄, Expr.AreSource es →
    p.analysis.scoping.ResolvedExprs globals sc es →
    Consecutive n (Expr.nodesOfList es) m → (∀ x ∈ Expr.nodesOfList es, x ∈ fn.nodes) →
    p.Fits r fs n st → ∃ es' st', exprs p r es st = .ok (es', st') ∧ p.LowersExprs r es es' ∧
      p.Piece r fs sc n m st st' [] []

/-- A list of statements can be lowered, where the jumps in it are allowed. -/
def StmtsLowerable (ss : List (Stmt Mark)) : Prop :=
  ∀ ⦃r : Region⦄ ⦃fs sc n m : Nat⦄ ⦃inLoop : Bool⦄ ⦃st : LoweringState⦄, Stmt.AreSource ss →
    p.analysis.scoping.ResolvedStmts globals fs sc inLoop ss →
    Consecutive n (Stmt.nodesOfList ss) m → (∀ x ∈ Stmt.nodesOfList ss, x ∈ fn.nodes) →
    p.Fits r fs n st → (inLoop → r.inLoop ∨ r.inWrapper) →
    ∃ out roles st', stmts p r ss st = .ok (out, st') ∧ p.LowersStmts r sc ss out roles ∧
      p.Piece r fs sc n m st st' (Stmt.varsOfList ss) roles

/-- A block that is not the body of a loop can be lowered. -/
def BlockLowerable (b : Block Mark) : Prop :=
  ∀ ⦃r : Region⦄ ⦃fs sc n m : Nat⦄ ⦃inLoop : Bool⦄ ⦃st : LoweringState⦄, b.IsSource →
    p.analysis.scoping.NoLoopBody b → p.analysis.scoping.ResolvedBlock globals fs sc inLoop b →
    Consecutive n b.nodes m → (∀ x ∈ b.nodes, x ∈ fn.nodes) → p.Fits r fs n st →
    (inLoop → r.inLoop ∨ r.inWrapper) → ∃ c roles st', block p r b st = .ok (c, st') ∧
      p.LowersBlock r sc b c roles ∧ p.Piece r fs sc n m st st' b.vars roles

/-- A statement can be lowered. -/
def StmtLowerable (s : Stmt Mark) : Prop :=
  ∀ ⦃r : Region⦄ ⦃fs sc n m : Nat⦄ ⦃inLoop : Bool⦄ ⦃st : LoweringState⦄, s.IsSource →
    p.analysis.scoping.ResolvedStmt globals fs sc inLoop s →
    Consecutive n s.nodes m → (∀ x ∈ s.nodes, x ∈ fn.nodes) → p.Fits r fs n st →
    (inLoop → r.inLoop ∨ r.inWrapper) → ∃ out roles st', stmt p r s st = .ok (out, st') ∧
      p.LowersStmt r sc s out roles ∧ p.Piece r fs sc n m st st' s.vars roles

/-- The header of a loop can be lowered. -/
def HeaderLowerable (h : Header Mark) : Prop :=
  ∀ ⦃r : Region⦄ ⦃fs sc loop n m : Nat⦄ ⦃st : LoweringState⦄, h.IsSource →
    p.analysis.scoping.ResolvedHeader globals fs sc loop h →
    Consecutive n h.nodes m → (∀ x ∈ h.nodes, x ∈ fn.nodes) → p.Fits r fs n st →
    ∃ h' roles st', header p r h st = .ok (h', st') ∧
      p.LowersHeader r (h.scopeIn loop sc) h h' roles ∧
      p.Piece r fs (h.scopeIn loop sc) n m st st' h.vars roles

end Statements

/-! ## Blocks -/

/-- A block without a wrapper: its bindings are inlined. -/
theorem lowerable_plainBlock (hp : p.Sound fn globals) {k : Mark} {ss : List (Stmt Mark)}
    (hcode : StmtsLowerable p fn globals ss)
    (hbw : p.analysis.scoping.blockWrapper? (.mk k ss) = none) :
    BlockLowerable p fn globals (.mk k ss) := by
  intro r fs sc n m inLoop st hsrc hno hres hn hin hf hloop
  obtain ⟨hk, hlt, hc⟩ := hn.of_cons
  obtain rfl : n = k.id := hk
  obtain ⟨ho, hss⟩ := hres
  have hx : .block (.mk k ss) ∈ fn.nodes := hin _ List.mem_cons_self
  have hw : p.analysis.wrapper? k.id = none := (hp.analysed.wrapper? hx).trans hbw
  obtain ⟨out, roles, st', hout, hlow, hpc⟩ := hcode hsrc hss hc
    (fun x hx => hin x (List.mem_cons_of_mem _ hx)) (hf.mono (Nat.le_succ k.id) fun _ hx => hx)
    hloop
  refine ⟨.mk k.span out, roles, st', ?_, (lowersBlock_plain hw).2 ⟨out, hlow, rfl⟩, ?_⟩
  · rw [block, hw]
    dsimp only
    rw [bind_eq hout]
    rfl
  · refine (hpc.widen (Nat.le_succ _) (Nat.le_refl m)).inline ?_
    by_cases hne : (Block.mk k ss).lexicals = []
    · exact .inl (Block.scopeIn_of_nil hne)
    · rw [show (Block.mk k ss).scopeIn sc = k.id from Block.scopeIn_of_ne_nil hne]
      exact .inr ⟨Nat.le_refl _, hlt, fun d hd hs =>
        (hp.analysed.of_plainBlock hx ho hno hbw hne hd hs).1⟩

/-- A block with a wrapper, which hosts the bindings of the block. -/
theorem lowerable_wrappedBlock (hp : p.Sound fn globals) {k : Mark} {ss : List (Stmt Mark)}
    {w : Wrapper} (hcode : StmtsLowerable p fn globals ss)
    (hbw : p.analysis.scoping.blockWrapper? (.mk k ss) = some w) :
    BlockLowerable p fn globals (.mk k ss) := by
  intro r fs sc n m inLoop st hsrc hno hres hn hin hf hloop
  obtain ⟨hk, hlt, hc⟩ := hn.of_cons
  obtain rfl : n = k.id := hk
  obtain ⟨ho, hss⟩ := hres
  have hx : .block (.mk k ss) ∈ fn.nodes := hin _ List.mem_cons_self
  have hw : p.analysis.wrapper? k.id = some w := (hp.analysed.wrapper? hx).trans hbw
  obtain ⟨hne, hexits, hlocals, -⟩ := hp.analysed.of_wrappedBlock hx ho hbw
  rw [show (Block.mk k ss).scopeIn sc = k.id from Block.scopeIn_of_ne_nil hne] at hss
  obtain ⟨out, inner, st₁, hout, hlow, hpc⟩ := hcode hsrc hss hc
    (fun x hx => hin x (List.mem_cons_of_mem _ hx))
    ((hf.mono (Nat.le_succ k.id) fun _ hx => hx).region (s := r.wrapper []) rfl)
    (fun _ => .inr rfl)
  have hhandles : r.site.Handles w.exits := fun e he hne' => by
    rw [hexits, Block.mem_exits] at he
    exact hloop (Stmt.inLoop_of_mayExitList hne' ss hss he).1
  obtain ⟨call, ρc, st₂, hcall, hcalls, hpcall⟩ := callWrapper_ok p r fs sc m
    (.call k.span (.function k.span [] (.mk k.span (wrapperCode w [] out))) []) k.span
    hhandles st₁
  refine ⟨.mk k.span call, ρc, st₂, ?_, (lowersBlock_wrapped hw).2
    ⟨out, inner, call, hlow, ?_, hcalls, rfl⟩, ?_⟩
  · rw [block, hw]
    dsimp only
    rw [bind_eq hout, wrappedBlock, bind_eq hcall]
    rfl
  · rw [hlocals]
    exact hpc.hosts_block hp ho hne (hf.region rfl) rfl hlow
  · have hbody := (hpc.widen (Nat.le_succ _) (Nat.le_refl m)).enclosed (r := r) (s := sc) rfl
    have hseq := hbody.seq hp hf hpcall (Nat.le_of_lt hlt) (Nat.le_refl m)
    rwa [List.append_nil, List.nil_append] at hseq

theorem lowerable_block (hp : p.Sound fn globals) {k : Mark} {ss : List (Stmt Mark)}
    (hcode : StmtsLowerable p fn globals ss) : BlockLowerable p fn globals (.mk k ss) := by
  cases hbw : p.analysis.scoping.blockWrapper? (.mk k ss) with
  | none => exact lowerable_plainBlock hp hcode hbw
  | some w => exact lowerable_wrappedBlock hp hcode hbw

/-! ## Loops -/

section Loop

variable {k b : Mark} {h : Header Mark} {ss : List (Stmt Mark)}

/-- A loop without a wrapper: the bindings of its header and of its body are inlined. -/
theorem lowerable_plainLoop (hp : p.Sound fn globals) (hhead : HeaderLowerable p fn globals h)
    (hcode : StmtsLowerable p fn globals ss)
    (hlw : p.analysis.scoping.loopWrapper? k.id (.mk b ss) = none) :
    StmtLowerable p fn globals (.loop k h (.mk b ss)) := by
  intro r fs sc n m inLoop st hsrc hres hn hin hf hloop
  obtain ⟨rfl, hch, hcs, hlt, hlt'⟩ := hn.of_loop
  obtain ⟨hhas, ho, hrh, hob, hrb⟩ := hres
  have hx : .stmt (.loop k h (.mk b ss)) ∈ fn.nodes := hin _ List.mem_cons_self
  obtain ⟨plan, hplan, hpw⟩ := hp.analysed.loopPlan?_plain hx hlw
  have hlp : p.loopPlan k.id = plan := by rw [LoweringPlan.loopPlan, hplan]; rfl
  have hinl := fun {d} (hd : d ∈ p.analysis.scoping.bindings) hs =>
    (hp.analysed.of_plainLoop hx hhas ho hob hlw hd hs).1
  have hf₁ := hf.mono (Nat.le_succ k.id) fun _ hx => hx
  obtain ⟨h', ρh, st₁, hh, hlh, hph⟩ := hhead hsrc.1 hrh hch
    (fun x hx => hin x (Stmt.mem_nodes_header hx)) hf₁
  have hf₂ := hf₁.mono (Nat.le_trans hch.le (Nat.le_succ b.id)) hph.taken
  obtain ⟨body, ρb, st₂, hbody, hlb, hpb⟩ := hcode hsrc.2 hrb hcs
    (fun x hx => hin x (Stmt.mem_nodes_body hx)) (hf₂.region (s := r.loopBody) rfl)
    (fun _ => .inl rfl)
  refine ⟨[.loop k.span h' (.mk b.span body)], ρh ++ ρb, st₂, ?_,
    (lowersStmt_plainLoop (by rw [hlp, hpw])).2 ⟨h', body, ρh, ρb, hlh, hlb, rfl, rfl⟩, ?_⟩
  · rw [stmt, hlp, hpw]
    dsimp only
    rw [bind_eq hh, bind_eq hbody]
    rfl
  · have hbody : p.Piece r fs (h.scopeIn k.id sc) b.id m st₁ st₂ (Stmt.varsOfList ss) ρb := by
      refine ((hpb.region (r := r) rfl rfl).widen (Nat.le_succ _) (Nat.le_refl m)).inline ?_
      by_cases hne : (Block.mk b ss).lexicals = []
      · exact .inl (Block.scopeIn_of_nil hne)
      · rw [show (Block.mk b ss).scopeIn (h.scopeIn k.id sc) = b.id from
          Block.scopeIn_of_ne_nil hne]
        exact .inr ⟨Nat.le_refl _, hlt', fun d hd hs => hinl hd (.inr ⟨hne, hs⟩)⟩
    have hdrives : p.Drives k h [] st st :=
      ⟨by simp, by simp, by simp, fun hsome c hc hs _ => hinl hc (.inl ⟨hsome, hs⟩), by simp,
        fun _ hx => hx, rfl⟩
    exact hdrives.piece hp ho hf ((hph.seq hp hf₁ hbody hch.le (Nat.le_of_lt hlt')).region
      rfl rfl) (Nat.lt_trans hlt hlt')

/-- The call of the wrapper of a loop, which is made before the loop or in the call. -/
theorem wrappedLoop_ok (hp : p.Sound fn globals) (sc : ScopeId) {w : Wrapper}
    {drivers : List (BindingId × Name)} {h' : Header Span} {body : List (Stmt Span)} {ρh : Roles}
    (hf : p.Fits r fs m st) :
    ∃ out ρc st', wrappedLoop p r (p.loopPlan k.id) w drivers k.span h' (.mk b.span body) st =
        .ok (out, st') ∧
      p.CallsLoop r k b w drivers h' body ρh out (ρh ++ ρc) ∧ p.Piece r fs sc m m st st' [] ρc := by
  have hhandles : (⟨r.inWrapper, true⟩ : CallSite).Handles w.exits := fun _ _ _ => .inl rfl
  cases hhoist : (p.loopPlan k.id).hoist with
  | true =>
    obtain ⟨name, st₁, hname, hn₁, hn₂, hn₃, hn₄⟩ := fresh_eq "$loop" st
    obtain ⟨call, ρc, st₂, hcall, hcalls, hpcall⟩ := callWrapper_ok p r fs sc m
      (.call k.span (.name k.span name) (loopArgs k drivers)) k.span hhandles st₁
    have hnamed := piece_of_fresh p r fs sc m
      (ρ := .wrapper (p.loopParams k) (p.loopCode k b w drivers body)) hn₁ hn₂ hn₃ rfl hn₄
    refine ⟨[.declaration k.span name .var (some (.function k.span (p.loopParams k)
        (p.loopCode k b w drivers body))), .loop k.span h' (.mk k.span call)],
      (name, .wrapper (p.loopParams k) (p.loopCode k b w drivers body)) :: ρc, st₂, ?_, ?_,
      hnamed.seq hp hf hpcall (Nat.le_refl m) (Nat.le_refl m)⟩
    · rw [wrappedLoop]
      simp only [hhoist, if_true]
      rw [bind_eq hname]
      exact bind_eq hcall
    · rw [CallsLoop, if_pos hhoist]
      exact ⟨name, call, ρc, hcalls, rfl, rfl⟩
  | false =>
    obtain ⟨call, ρc, st₁, hcall, hcalls, hpcall⟩ := callWrapper_ok p r fs sc m
      (.call k.span (.function k.span (p.loopParams k) (p.loopCode k b w drivers body))
        (loopArgs k drivers)) k.span hhandles st
    refine ⟨[.loop k.span h' (.mk k.span call)], ρc, st₁, ?_, ?_, hpcall⟩
    · rw [wrappedLoop]
      simp only [hhoist, Bool.false_eq_true, if_false]
      exact bind_eq hcall
    · rw [CallsLoop, hhoist]
      exact ⟨call, ρc, hcalls, rfl, rfl⟩

/-- The drivers of a loop are variables of its header, and not of its wrapper. -/
theorem drivers_apart (hp : p.Sound fn globals) {w : Wrapper} {drivers : List (BindingId × Name)}
    {h' : Header Span} {ρh ρb : Roles} {st₁ st₂ st₃ : LoweringState} {q : Nat} {s : ScopeId}
    {vars vars' : List (Name × Mark)} (hx : .stmt (.loop k h (.mk b ss)) ∈ fn.nodes)
    (ho : p.analysis.scoping.OpensLoop k.id h sc) (hf : p.Fits r fs k.id st)
    (hlw : p.analysis.scoping.loopWrapper? k.id (.mk b ss) = some w)
    (hkeys : drivers.map (·.1) = p.analysis.scoping.freshOf k.id h)
    (hfw : (p.loopPlan k.id).fresh = w.params) (hdrives : p.Drives k h drivers st st₁)
    (hlh : p.LowersHeader (r.loopHeader drivers) (h.scopeIn k.id sc) h h' ρh)
    (hph : p.Piece (r.loopHeader drivers) fs (h.scopeIn k.id sc) (k.id + 1) b.id st₁ st₂ vars ρh)
    (hpb : p.Piece (p.loopRegion r k drivers) fs s q m st₂ st₃ vars' ρb) :
    ∀ d ∈ drivers, (d.2, Role.holds (.driver d.1)) ∈ ρh ∧
      d.2 ∉ Roles.names ((p.loopPlan k.id).fresh.map p.ownRole ++ ρb) ∧
      r.drivers.lookup d.1 = none := by
  intro d hd
  refine ⟨driver_role hp ho hkeys hlh hd, fun hin => ?_, ?_⟩
  rotate_left
  · obtain ⟨c, hc, hcd, hcs⟩ := hdrives.keys d hd
    exact hcd ▸ hf.no_inner_driver hp hc (Nat.le_of_eq hcs.symm)
  -- the name of a driver is taken when the wrapper gets its variables, and was free before
  obtain ⟨hd₁, hd₂⟩ := hdrives.new d hd
  rw [Roles.names_append, List.mem_append] at hin
  rcases hin with hin | hin
  · obtain ⟨ρ, hρ⟩ := Roles.exists_of_mem_names hin
    obtain ⟨i, hi, he⟩ := List.mem_map.1 hρ
    rw [hfw] at hi
    obtain ⟨c, hc, rfl⟩ := (hp.analysed.sorted
      (hp.analysed.of_wrappedLoop hx hlw).1).1 i (List.mem_append_right _ hi)
    have hname : p.naming.nameOf c.id = d.2 := congrArg (·.1) he
    exact hd₁ (hname ▸ hf.supply _ (hp.name_taken hc))
  · obtain ⟨ρ, hρ⟩ := Roles.exists_of_mem_names hin
    rcases hpb.each _ hρ with hb | ⟨hm, -⟩
    · exact hd₁ (Fits.holds_taken (hf.region (s := p.loopRegion r k drivers) rfl) hp hb)
    · exact hm (hph.taken _ hd₂)

/-- A loop with a wrapper, which hosts the bindings that are new in each iteration. -/
theorem lowerable_wrappedLoop (hp : p.Sound fn globals) {w : Wrapper}
    (hhead : HeaderLowerable p fn globals h) (hcode : StmtsLowerable p fn globals ss)
    (hlw : p.analysis.scoping.loopWrapper? k.id (.mk b ss) = some w) :
    StmtLowerable p fn globals (.loop k h (.mk b ss)) := by
  intro r fs sc n m inLoop st hsrc hres hn hin hf hloop
  obtain ⟨rfl, hch, hcs, hlt, hlt'⟩ := hn.of_loop
  obtain ⟨hhas, ho, hrh, hob, hrb⟩ := hres
  have hx : .stmt (.loop k h (.mk b ss)) ∈ fn.nodes := hin _ List.mem_cons_self
  obtain ⟨plan, hplan, hpw, hfresh, hwb⟩ := hp.analysed.loopPlan?_wrapped hx hhas hlw
  obtain rfl : p.loopPlan k.id = plan := by rw [LoweringPlan.loopPlan, hplan]; rfl
  obtain ⟨w', hw', -, -, hparams, -⟩ := hhas.loopWrapper?.resolve_left (by simp [hlw])
  obtain rfl : w = w' := Option.some.inj (hlw.symm.trans hw')
  obtain ⟨drivers, st₁, hdr, hkeys, hnew, hmono, hhoist⟩ := makeDrivers_ok p (p.loopPlan k.id) st
  have hkeys' := hkeys.trans hfresh
  have hdrives := drives_of_fresh hp hx ho hkeys' hnew hmono hhoist
  obtain ⟨h', ρh, st₂, hh, hlh, hph⟩ := hhead hsrc.1 hrh hch
    (fun x hx => hin x (Stmt.mem_nodes_header hx)) (hdrives.fits ho hf)
  have hf₂ : p.Fits (p.loopRegion r k drivers) fs k.id st₂ :=
    (hf.mono (Nat.le_refl _) fun x hx => hph.taken x (hmono x hx)).region rfl
  obtain ⟨body, ρb, st₃, hbody, hlb, hpb⟩ := hcode hsrc.2 hrb hcs
    (fun x hx => hin x (Stmt.mem_nodes_body hx))
    (hf₂.mono (Nat.le_succ_of_le (Nat.le_of_lt hlt)) fun _ hx => hx) (fun _ => .inr rfl)
  have hfw : (p.loopPlan k.id).fresh = w.params := hfresh.trans hparams.symm
  have hhosts := hpb.hosts_loop hp hx hhas ho hob hlw hf₂ rfl hlt hlb
  have hapart := drivers_apart hp hx ho hf hlw hkeys' hfw hdrives hlh hph hpb
  -- the header, the wrapper, and the call of the wrapper
  have hhead := hdrives.piece hp ho hf hph hlt
  have hinner : p.Piece r fs sc b.id m st₂ st₃ (Stmt.varsOfList ss) [] :=
    (hpb.enclosed (r := r) (s := sc) rfl).widen (Nat.le_succ _) (Nat.le_refl m)
  have hboth := hhead.seq hp hf hinner (Nat.le_of_lt hlt) (Nat.le_of_lt hlt')
  rw [List.append_nil] at hboth
  have hle := Nat.le_of_lt (Nat.lt_trans hlt hlt')
  obtain ⟨out, ρc, st₄, hout, hcalls, hpc⟩ := wrappedLoop_ok (k := k) (b := b) (w := w)
    hp sc ((hf₂.region (s := r) rfl).mono hle hpb.taken)
  refine ⟨out, ρh ++ ρc, st₄, ?_, (lowersStmt_wrappedLoop hpw).2 ⟨drivers, h', body, ρh, ρb, hkeys,
    hlh, hlb, by rw [hfw]; exact hhosts, hapart, hcalls⟩, ?_⟩
  · rw [stmt, hpw]
    dsimp only
    rw [LoweringPlan.loopRegion] at hbody
    rw [bind_eq hdr, bind_eq hh, bind_eq hbody]
    exact hout
  · have hseq := hboth.seq hp hf hpc hle (Nat.le_refl m)
    rw [List.append_nil] at hseq
    exact hseq

theorem lowerable_loop (hp : p.Sound fn globals) (hhead : HeaderLowerable p fn globals h)
    (hcode : StmtsLowerable p fn globals ss) :
    StmtLowerable p fn globals (.loop k h (.mk b ss)) := by
  cases hlw : p.analysis.scoping.loopWrapper? k.id (.mk b ss) with
  | none => exact lowerable_plainLoop hp hhead hcode hlw
  | some w => exact lowerable_wrappedLoop hp hhead hcode hlw

end Loop

/-! ## Headers -/

section Clauses

variable {k : Mark} {i : Option (Stmt Mark)} {c : Option (Expr Mark)}

/-- A first or last clause of a `for` can be lowered, if there is one. -/
theorem clauseStmt_ok (hi : ∀ s, i = some s → StmtLowerable p fn globals s)
    (hsrc : ∀ s, i = some s → s.isInit ∧ s.IsSource)
    (hres : ∀ s, i = some s → p.analysis.scoping.ResolvedStmt globals fs sc false s)
    (hn : Consecutive n (i.elim [] Stmt.nodes) m)
    (hin : ∀ x ∈ i.elim [] Stmt.nodes, x ∈ fn.nodes) (hf : p.Fits r fs n st) :
    ∃ i' ρ st', clauseStmt k.span (stmt p r) i st = .ok (i', st') ∧
      ((i = none → i' = none ∧ ρ = []) ∧ ∀ s, i = some s → p.LowersStmt r sc s i'.toList ρ) ∧
      p.Piece r fs sc n m st st' (i.elim [] Stmt.vars) ρ := by
  cases i with
  | none =>
    exact ⟨none, [], st, rfl, ⟨fun _ => ⟨rfl, rfl⟩, fun s hs => absurd hs.symm
      (Option.some_ne_none s)⟩, .nothing (fun _ hx => hx) rfl⟩
  | some s =>
    obtain ⟨o, ρ, st₁, hs, hls, hps⟩ := hi s rfl (hsrc s rfl).2 (hres s rfl) hn hin hf (by simp)
    obtain ⟨i', hi', rfl⟩ := single_ok (hsrc s rfl).1 hls k.span st₁
    refine ⟨i', ρ, st₁, ?_, ⟨fun hs => absurd hs (Option.some_ne_none s), ?_⟩, hps⟩
    · rw [clauseStmt, bind_eq hs, hi']
    · rintro _ ⟨⟩
      exact hls

/-- The condition of a `for` can be lowered, if there is one. -/
theorem clause_ok (hc : ∀ e, c = some e → ExprLowerable p fn globals e)
    (hsrc : ∀ e, c = some e → e.IsSource)
    (hres : ∀ e, c = some e → p.analysis.scoping.ResolvedExpr globals sc e)
    (hn : Consecutive n (c.elim [] Expr.nodes) m)
    (hin : ∀ x ∈ c.elim [] Expr.nodes, x ∈ fn.nodes) (hf : p.Fits r fs n st) :
    ∃ c' st', clause (expr p r) c st = .ok (c', st') ∧
      ((c = none → c' = none) ∧ ∀ e, c = some e → ∃ e', p.LowersExpr r e e' ∧ c' = some e') ∧
      p.Piece r fs sc n m st st' [] [] := by
  cases c with
  | none =>
    exact ⟨none, st, rfl, ⟨fun _ => rfl, fun e he => absurd he.symm (Option.some_ne_none e)⟩,
      .nothing (fun _ hx => hx) rfl⟩
  | some e =>
    obtain ⟨e', st', he, hle, hpe⟩ := hc e rfl (hsrc e rfl) (hres e rfl) hn hin hf
    refine ⟨some e', st', ?_, ⟨fun he => absurd he (Option.some_ne_none e), ?_⟩, hpe⟩
    · rw [clause, bind_eq he]
      rfl
    · rintro _ ⟨⟩
      exact ⟨e', hle, rfl⟩

end Clauses

theorem lowerable_counting (hp : p.Sound fn globals) {k : Mark} {i : Option (Stmt Mark)}
    {c : Option (Expr Mark)} {u : Option (Stmt Mark)}
    (hinit : ∀ s, i = some s → StmtLowerable p fn globals s)
    (hcond : ∀ e, c = some e → ExprLowerable p fn globals e)
    (hupdate : ∀ s, u = some s → StmtLowerable p fn globals s) :
    HeaderLowerable p fn globals (.counting k i c u) := by
  intro r fs sc loop n m st hsrc hres hn hin hf
  obtain ⟨hsi, hsc, hsu⟩ := Header.shaped_counting.1 hsrc
  obtain ⟨hri, hrc, hru⟩ := Scoping.resolvedHeader_counting.1 hres
  rw [Header.nodes_counting] at hn hin
  obtain ⟨-, -, hn⟩ := hn.of_cons
  obtain ⟨q, hci, hn⟩ := hn.of_append
  obtain ⟨q', hcc, hcu⟩ := hn.of_append
  have hf₁ := hf.mono (Nat.le_succ n) fun _ hx => hx
  obtain ⟨i', ρi, st₁, hi, hli, hpi⟩ := clauseStmt_ok (k := k) hinit hsi hri hci
    (fun x hx => hin x (List.mem_cons_of_mem _ (List.mem_append_left _ hx))) hf₁
  have hf₂ := hf₁.mono hci.le hpi.taken
  obtain ⟨c', st₂, hc, hlc, hpc⟩ := clause_ok hcond hsc hrc hcc (fun x hx => hin x
    (List.mem_cons_of_mem _ (List.mem_append_right _ (List.mem_append_left _ hx)))) hf₂
  obtain ⟨u', ρu, st₃, hu, hlu, hpu⟩ := clauseStmt_ok (k := k) hupdate
    (fun s hs => ⟨Resolve.isInit_of_isUpdate (hsu s hs).1, (hsu s hs).2⟩) hru hcu
    (fun x hx => hin x
      (List.mem_cons_of_mem _ (List.mem_append_right _ (List.mem_append_right _ hx))))
    (hf₂.mono hcc.le hpc.taken)
  refine ⟨.counting k.span i' c' u', ρi ++ ρu, st₃, ?_, lowersHeader_counting.2
    ⟨i', c', u', ρi, ρu, hli, hlc, hlu, rfl, rfl⟩, ?_⟩
  · rw [header_counting, bind_eq hi, bind_eq hc, bind_eq hu]
    rfl
  · -- the last clause declares nothing
    have hvars : u.elim [] Stmt.vars = [] := by
      cases u with
      | none => rfl
      | some s =>
        have hs := (hsu s rfl).1
        cases s <;> first | rfl | cases hs
    rw [hvars] at hpu
    have hseq := (hpi.seq hp hf₁ (hpc.seq hp hf₂ hpu hcc.le hcu.le) hci.le
      (Nat.le_trans hcc.le hcu.le)).widen (Nat.le_succ n) (Nat.le_refl m)
    have hown : (Header.counting k i c u).vars = i.elim [] Stmt.vars := by cases i <;> rfl
    simpa only [hown, List.append_nil, List.nil_append] using hseq

theorem lowerable_forOf (hp : p.Sound fn globals) {k : Mark} {x : Name} {kind : DeclKind}
    {e : Expr Mark} (hseq : ExprLowerable p fn globals e) :
    HeaderLowerable p fn globals (.forOf k x (some kind) e) := by
  intro r fs sc loop n m st hsrc hres hn hin hf
  obtain ⟨-, -, hc⟩ := hn.of_cons
  have hf₁ := hf.mono (Nat.le_succ n) fun _ hx => hx
  obtain ⟨e', st₁, he, hle, hpe⟩ := hseq hsrc hres.1 hc
    (fun x hx => hin x (List.mem_cons_of_mem _ hx)) hf₁
  have hdecl : p.analysis.scoping.Declares fs
      ((Header.forOf k x (some kind) e).scopeIn loop sc) k.id x kind := by
    cases kind with
    | var => exact hres.2.1
    | letVar | const => exact hres.2
  obtain ⟨b, hb, hdecl, -, hk⟩ := declares_binding hp hdecl
  obtain ⟨y, k', ρ, st₂, hel, hlel, hpel⟩ := elementVariable_lowers (m := m) (x := x) hp
    (hf₁.mono hc.le hpe.taken) hb hdecl hk
  refine ⟨.forOf k.span y k' e', ρ, st₂, ?_, ⟨e', y, k', hle, hlel, rfl⟩, ?_⟩
  · rw [header, bind_eq he, bind_eq hel]
    rfl
  · have hboth := (hpe.anywhere.seq hp hf₁ hpel hc.le (Nat.le_refl m)).widen (Nat.le_succ n)
      (Nat.le_refl m)
    cases kind <;> exact hboth

/-! ## Statements -/

theorem lowerable_initialized (hp : p.Sound fn globals) {k : Mark} {x : Name} {kind : DeclKind}
    {e : Expr Mark} (hvalue : ExprLowerable p fn globals e) :
    StmtLowerable p fn globals (.declaration k x kind (some e)) := by
  intro r fs sc n m _ st hsrc hres hn hin hf _
  obtain ⟨-, -, hc⟩ := hn.of_cons
  have hf₁ := hf.mono (Nat.le_succ n) fun _ hx => hx
  obtain ⟨b, hb, hdecl, -, hk⟩ := declares_binding hp hres.1
  obtain ⟨e', st₁, he, hle, hpe⟩ := hvalue hsrc hres.2 hc
    (fun x hx => hin x (List.mem_cons_of_mem _ hx)) hf₁
  obtain ⟨out, roles, st₂, hout, hlow, hpc⟩ := declaration_lowers (m := m) (x := x) hp
    (hf₁.mono hc.le hpe.taken) hb hdecl hk (some e')
  refine ⟨out, roles, st₂, ?_, ⟨b, e', hdecl, hle, hlow⟩, ?_⟩
  · rw [stmt, declaredBy, hdecl]
    change (expr p r e >>= fun e => declaration p r k b (some e)) st = _
    rw [bind_eq he]
    exact hout
  · have hseq := (hpe.seq hp hf₁ hpc hc.le (Nat.le_refl m)).widen (Nat.le_succ n) (Nat.le_refl m)
    cases kind <;> exact hseq

theorem lowerable_assignment (hp : p.Sound fn globals) {k : Mark} {t v : Expr Mark}
    (htarget : ExprLowerable p fn globals t) (hvalue : ExprLowerable p fn globals v) :
    StmtLowerable p fn globals (.assignment k t v) := by
  intro r fs sc n m _ st hsrc hres hn hin hf _
  obtain ⟨-, -, hc⟩ := hn.of_cons
  obtain ⟨q, hct, hcv⟩ := hc.of_append
  have hf₁ := hf.mono (Nat.le_succ n) fun _ hx => hx
  have hin₁ : ∀ x ∈ t.nodes, x ∈ fn.nodes :=
    fun x hx => hin x (List.mem_cons_of_mem _ (List.mem_append_left _ hx))
  have ht : ∃ t' st₁, expr p r t st = .ok (t', st₁) ∧ p.LowersExpr r t t' ∧
      p.Piece r fs sc (n + 1) q st st₁ [] [] := by
    cases t with
    | name k x => exact ⟨_, st, rfl, rfl, .nothing (fun _ hx => hx) rfl⟩
    | index k b i => exact htarget hsrc.1 ⟨hres.1, hres.2.1⟩ hct hin₁ hf₁
    | _ => exact hres.elim
  obtain ⟨t', st₁, ht, hlt, hpt⟩ := ht
  have hres' : p.analysis.scoping.ResolvedExpr globals sc v := by
    cases t with
    | name => exact hres.2
    | index => exact hres.2.2
    | _ => exact hres.elim
  obtain ⟨v', st₂, hv, hlv, hpv⟩ := hvalue hsrc.2 hres' hcv
    (fun x hx => hin x (List.mem_cons_of_mem _ (List.mem_append_right _ hx)))
    (hf₁.mono hct.le hpt.taken)
  refine ⟨[.assignment k.span t' v'], [], st₂, ?_, ⟨t', v', hlt, hlv, rfl, rfl⟩,
    (hpt.seq hp hf₁ hpv hct.le hcv.le).widen (Nat.le_succ n) (Nat.le_refl m)⟩
  rw [stmt, bind_eq ht, bind_eq hv]
  rfl

theorem lowerable_branch (hp : p.Sound fn globals) {k : Mark} {c : Expr Mark} {t : Block Mark}
    (hcond : ExprLowerable p fn globals c) (hthen : BlockLowerable p fn globals t) :
    StmtLowerable p fn globals (.branch k c t none) := by
  intro r fs sc n m _ st hsrc hres hn hin hf hloop
  obtain ⟨-, -, hnc⟩ := hn.of_cons
  obtain ⟨q, hcc, hct⟩ := hnc.of_append
  rw [List.append_nil] at hct
  obtain ⟨hrc, hno, hrt⟩ := hres
  have hf₁ := hf.mono (Nat.le_succ n) fun _ hx => hx
  obtain ⟨c', st₁, hc, hlc, hpc⟩ := hcond hsrc.1 hrc hcc
    (fun x hx => hin x (List.mem_cons_of_mem _ (List.mem_append_left _ hx))) hf₁
  obtain ⟨t', roles, st₂, ht, hlt, hpt⟩ := hthen hsrc.2 hno hrt hct
    (fun x hx => hin x (List.mem_cons_of_mem _ (List.mem_append_right _
      (List.mem_append_left _ hx)))) (hf₁.mono hcc.le hpc.taken) hloop
  have hseq := (hpc.seq hp hf₁ hpt hcc.le hct.le).widen (Nat.le_succ n) (Nat.le_refl m)
  refine ⟨[.branch k.span c' t' none], roles, st₂, ?_, ⟨c', t', hlc, hlt, rfl⟩, ?_⟩
  · rw [stmt, bind_eq hc, bind_eq ht]
    rfl
  · rw [Stmt.vars, List.append_nil]
    exact hseq

theorem lowerable_branchElse (hp : p.Sound fn globals) {k : Mark} {c : Expr Mark} {t e : Block Mark}
    (hcond : ExprLowerable p fn globals c) (hthen : BlockLowerable p fn globals t)
    (helse : BlockLowerable p fn globals e) :
    StmtLowerable p fn globals (.branch k c t (some e)) := by
  intro r fs sc n m _ st hsrc hres hn hin hf hloop
  obtain ⟨-, -, hnc⟩ := hn.of_cons
  obtain ⟨q, hcc, hcte⟩ := hnc.of_append
  obtain ⟨q', hct, hce⟩ := hcte.of_append
  obtain ⟨hrc, hno, hrt, hno', hre⟩ := hres
  have hf₁ := hf.mono (Nat.le_succ n) fun _ hx => hx
  obtain ⟨c', st₁, hc, hlc, hpc⟩ := hcond hsrc.1 hrc hcc
    (fun x hx => hin x (List.mem_cons_of_mem _ (List.mem_append_left _ hx))) hf₁
  have hf₂ := hf₁.mono hcc.le hpc.taken
  obtain ⟨t', ρt, st₂, ht, hlt, hpt⟩ := hthen hsrc.2.1 hno hrt hct
    (fun x hx => hin x (List.mem_cons_of_mem _ (List.mem_append_right _
      (List.mem_append_left _ hx)))) hf₂ hloop
  obtain ⟨e', ρe, st₃, he, hle, hpe⟩ := helse hsrc.2.2 hno' hre hce
    (fun x hx => hin x (List.mem_cons_of_mem _ (List.mem_append_right _
      (List.mem_append_right _ hx)))) (hf₂.mono hct.le hpt.taken) hloop
  have hseq := (hpc.seq hp hf₁ (hpt.seq hp hf₂ hpe hct.le hce.le) hcc.le hcte.le).widen
    (Nat.le_succ n) (Nat.le_refl m)
  refine ⟨[.branch k.span c' t' (some e')], ρt ++ ρe, st₃, ?_,
    ⟨c', t', e', ρt, ρe, hlc, hlt, hle, rfl, rfl⟩, hseq⟩
  rw [stmt, bind_eq hc, bind_eq ht, bind_eq he]
  rfl

/-! ## All code -/

mutual

theorem expr_lowers (hp : p.Sound fn globals) : ∀ e : Expr Mark, ExprLowerable p fn globals e
  | .literal _ _ => fun _ _ _ _ _ st _ _ _ _ _ =>
    ⟨_, st, rfl, rfl, .nothing (fun _ hx => hx) rfl⟩
  | .name _ _ => fun _ _ _ _ _ st _ _ _ _ _ => ⟨_, st, rfl, rfl, .nothing (fun _ hx => hx) rfl⟩
  | .unary k op e => by
    intro r fs sc n m st hsrc hres hn hin hf
    obtain ⟨-, -, hc⟩ := hn.of_cons
    obtain ⟨e', st', he, hl, hpc⟩ := expr_lowers hp e hsrc hres hc
      (fun x hx => hin x (List.mem_cons_of_mem _ hx)) (hf.mono (Nat.le_succ n) fun _ hx => hx)
    refine ⟨.unary k.span op e', st', ?_, ⟨e', hl, rfl⟩,
      hpc.widen (Nat.le_succ n) (Nat.le_refl m)⟩
    rw [expr, bind_eq he]
    rfl
  | .binary k op e f => by
    intro r fs sc n m st hsrc hres hn hin hf
    obtain ⟨-, -, hc⟩ := hn.of_cons
    obtain ⟨q, hce, hcf⟩ := hc.of_append
    have hf₁ := hf.mono (Nat.le_succ n) fun _ hx => hx
    obtain ⟨e', st₁, he, hle, hpe⟩ := expr_lowers hp e hsrc.1 hres.1 hce
      (fun x hx => hin x (List.mem_cons_of_mem _ (List.mem_append_left _ hx))) hf₁
    obtain ⟨f', st₂, hf', hlf, hpf⟩ := expr_lowers hp f hsrc.2 hres.2 hcf
      (fun x hx => hin x (List.mem_cons_of_mem _ (List.mem_append_right _ hx)))
      (hf₁.mono hce.le hpe.taken)
    refine ⟨.binary k.span op e' f', st₂, ?_, ⟨e', f', hle, hlf, rfl⟩,
      (hpe.seq hp hf₁ hpf hce.le hcf.le).widen (Nat.le_succ n) (Nat.le_refl m)⟩
    rw [expr, bind_eq he, bind_eq hf']
    rfl
  | .call k f args => by
    intro r fs sc n m st hsrc hres hn hin hf
    obtain ⟨-, -, hc⟩ := hn.of_cons
    obtain ⟨q, hce, hcf⟩ := hc.of_append
    have hf₁ := hf.mono (Nat.le_succ n) fun _ hx => hx
    obtain ⟨e', st₁, he, hle, hpe⟩ := expr_lowers hp f hsrc.1 hres.1 hce
      (fun x hx => hin x (List.mem_cons_of_mem _ (List.mem_append_left _ hx))) hf₁
    obtain ⟨as, st₂, ha, hla, hpa⟩ := exprs_lowers hp args hsrc.2 hres.2 hcf
      (fun x hx => hin x (List.mem_cons_of_mem _ (List.mem_append_right _ hx)))
      (hf₁.mono hce.le hpe.taken)
    refine ⟨.call k.span e' as, st₂, ?_, ⟨e', as, hle, hla, rfl⟩,
      (hpe.seq hp hf₁ hpa hce.le hcf.le).widen (Nat.le_succ n) (Nat.le_refl m)⟩
    rw [expr, bind_eq he, bind_eq ha]
    rfl
  | .array k es => by
    intro r fs sc n m st hsrc hres hn hin hf
    obtain ⟨-, -, hc⟩ := hn.of_cons
    obtain ⟨es', st', he, hl, hpc⟩ := exprs_lowers hp es hsrc hres hc
      (fun x hx => hin x (List.mem_cons_of_mem _ hx)) (hf.mono (Nat.le_succ n) fun _ hx => hx)
    refine ⟨.array k.span es', st', ?_, ⟨es', hl, rfl⟩,
      hpc.widen (Nat.le_succ n) (Nat.le_refl m)⟩
    rw [expr, bind_eq he]
    rfl
  | .index k b i => by
    intro r fs sc n m st hsrc hres hn hin hf
    obtain ⟨-, -, hc⟩ := hn.of_cons
    obtain ⟨q, hce, hcf⟩ := hc.of_append
    have hf₁ := hf.mono (Nat.le_succ n) fun _ hx => hx
    obtain ⟨b', st₁, hb, hlb, hpb⟩ := expr_lowers hp b hsrc.1 hres.1 hce
      (fun x hx => hin x (List.mem_cons_of_mem _ (List.mem_append_left _ hx))) hf₁
    obtain ⟨i', st₂, hi, hli, hpi⟩ := expr_lowers hp i hsrc.2 hres.2 hcf
      (fun x hx => hin x (List.mem_cons_of_mem _ (List.mem_append_right _ hx)))
      (hf₁.mono hce.le hpb.taken)
    refine ⟨.index k.span b' i', st₂, ?_, ⟨b', i', hlb, hli, rfl⟩,
      (hpb.seq hp hf₁ hpi hce.le hcf.le).widen (Nat.le_succ n) (Nat.le_refl m)⟩
    rw [expr, bind_eq hb, bind_eq hi]
    rfl
  | .function k ps (.mk b ss) => by
    intro r fs sc n m st hsrc hres hn hin hf
    obtain ⟨hk, -, hc⟩ := hn.of_cons
    obtain ⟨-, -, hc⟩ := hc.of_cons
    obtain ⟨ho, hss⟩ := hres
    have hk : n = k.id := hk
    subst hk
    have hf' : p.Fits r.function k.id k.id ⟨st.supply, []⟩ :=
      ⟨FunctionDef.Analysed.hasScope_of_opens ho.scope, hf.drivers, hf.supply⟩
    obtain ⟨out, roles, st', hout, hlow, hpc⟩ := stmts_lowers hp ss hsrc hss hc
      (fun x hx => hin x (List.mem_cons_of_mem _ (List.mem_cons_of_mem _ hx)))
      (hf'.mono (Nat.le_add_right k.id 2) fun _ hx => hx) (by simp)
    refine ⟨.function k.span ps (.mk b.span (p.hoistedDeclarations st'.hoisted ++ out)),
      ⟨st'.supply, st.hoisted⟩, ?_, ⟨st'.hoisted, out, roles, hlow, ?_, rfl⟩,
      .nothing hpc.taken rfl⟩
    · rw [expr, bind_eq (withHoisted_eq hout)]
      rfl
    · exact (hpc.widen (Nat.le_succ _) (Nat.le_refl m)).hosts_function hp ho hf' rfl hlow
  | .signal _ _ none => fun _ _ _ _ _ _ hsrc => hsrc.elim
  | .signal _ _ (some _) => fun _ _ _ _ _ _ hsrc => hsrc.1.elim
  | .signalIs .. => fun _ _ _ _ _ _ hsrc => hsrc.1.elim
  | .signalValue .. => fun _ _ _ _ _ _ hsrc => hsrc.1.elim
  | .unknown .. => fun _ _ _ _ _ _ hsrc => hsrc.elim

theorem exprs_lowers (hp : p.Sound fn globals) :
    ∀ es : List (Expr Mark), ExprsLowerable p fn globals es
  | [] => fun _ _ _ _ _ st _ _ _ _ _ => ⟨[], st, rfl, rfl, .nothing (fun _ hx => hx) rfl⟩
  | e :: es => by
    intro r fs sc n m st hsrc hres hn hin hf
    obtain ⟨q, hce, hces⟩ := hn.of_append
    obtain ⟨e', st₁, he, hle, hpe⟩ := expr_lowers hp e hsrc.1 hres.1 hce
      (fun x hx => hin x (List.mem_append_left _ hx)) hf
    obtain ⟨es', st₂, hes, hles, hpes⟩ := exprs_lowers hp es hsrc.2 hres.2 hces
      (fun x hx => hin x (List.mem_append_right _ hx)) (hf.mono hce.le hpe.taken)
    refine ⟨e' :: es', st₂, ?_, ⟨e', es', hle, hles, rfl⟩, hpe.seq hp hf hpes hce.le hces.le⟩
    rw [exprs, bind_eq he, bind_eq hes]
    rfl

theorem stmts_lowers (hp : p.Sound fn globals) :
    ∀ ss : List (Stmt Mark), StmtsLowerable p fn globals ss
  | [] => fun _ _ _ _ _ _ st _ _ _ _ _ _ =>
    ⟨[], [], st, rfl, ⟨rfl, rfl⟩, .nothing (fun _ hx => hx) rfl⟩
  | s :: ss => by
    intro r fs sc n m _ st hsrc hres hn hin hf hloop
    obtain ⟨q, hcs, hcss⟩ := hn.of_append
    obtain ⟨o, ρ, st₁, hs, hls, hps⟩ := stmt_lowers hp s hsrc.1 hres.1 hcs
      (fun x hx => hin x (List.mem_append_left _ hx)) hf hloop
    obtain ⟨os, ρs, st₂, hss, hlss, hpss⟩ := stmts_lowers hp ss hsrc.2 hres.2 hcss
      (fun x hx => hin x (List.mem_append_right _ hx)) (hf.mono hcs.le hps.taken) hloop
    refine ⟨o ++ os, ρ ++ ρs, st₂, ?_, ⟨o, os, ρ, ρs, hls, hlss, rfl, rfl⟩,
      hps.seq hp hf hpss hcs.le hcss.le⟩
    rw [stmts, bind_eq hs, bind_eq hss]
    rfl

theorem block_lowers (hp : p.Sound fn globals) : ∀ b : Block Mark, BlockLowerable p fn globals b
  | .mk _ ss => lowerable_block hp (stmts_lowers hp ss)

theorem stmt_lowers (hp : p.Sound fn globals) : ∀ s : Stmt Mark, StmtLowerable p fn globals s
  | .declaration k x kind none => by
    intro r fs sc n m _ st hsrc hres hn hin hf _
    obtain ⟨-, hlt, hc⟩ := hn.of_cons
    obtain ⟨b, hb, hdecl, -, hk⟩ := declares_binding hp hres.1
    obtain ⟨out, roles, st', hout, hlow, hpc⟩ := declaration_lowers (m := m) (x := x) hp hf hb hdecl
      hk none
    refine ⟨out, roles, st', ?_, ⟨b, hdecl, hlow⟩, ?_⟩
    · rw [stmt, declaredBy, hdecl]
      exact hout
    · cases kind <;> exact hpc
  | .declaration _ _ _ (some e) => lowerable_initialized hp (expr_lowers hp e)
  | .assignment _ t v => lowerable_assignment hp (expr_lowers hp t) (expr_lowers hp v)
  | .expression k e => by
    intro r fs sc n m _ st hsrc hres hn hin hf _
    obtain ⟨-, -, hc⟩ := hn.of_cons
    obtain ⟨e', st', he, hl, hpc⟩ := expr_lowers hp e hsrc hres hc
      (fun x hx => hin x (List.mem_cons_of_mem _ hx)) (hf.mono (Nat.le_succ n) fun _ hx => hx)
    refine ⟨[.expression k.span e'], [], st', ?_, ⟨e', hl, rfl, rfl⟩,
      hpc.widen (Nat.le_succ n) (Nat.le_refl m)⟩
    rw [stmt, bind_eq he]
    rfl
  | .block b => by
    intro r fs sc n m _ st hsrc hres hn hin hf hloop
    obtain ⟨c, roles, st', hb, hlow, hpc⟩ := block_lowers hp b hsrc hres.1 hres.2 hn hin hf hloop
    refine ⟨_, roles, st', ?_, ⟨c, hlow, rfl⟩, hpc⟩
    rw [stmt, bind_eq hb]
    rfl
  | .branch _ c t none => lowerable_branch hp (expr_lowers hp c) (block_lowers hp t)
  | .branch _ c t (some e) =>
    lowerable_branchElse hp (expr_lowers hp c) (block_lowers hp t) (block_lowers hp e)
  | .loop _ h (.mk _ ss) => lowerable_loop hp (header_lowers hp h) (stmts_lowers hp ss)
  | .ret _ none => fun _ _ _ _ _ _ st _ _ _ _ _ _ =>
    ⟨_, [], st, rfl, ⟨rfl, rfl⟩, .nothing (fun _ hx => hx) rfl⟩
  | .ret k (some e) => by
    intro r fs sc n m _ st hsrc hres hn hin hf _
    obtain ⟨-, -, hc⟩ := hn.of_cons
    obtain ⟨e', st', he, hl, hpc⟩ := expr_lowers hp e hsrc hres hc
      (fun x hx => hin x (List.mem_cons_of_mem _ hx)) (hf.mono (Nat.le_succ n) fun _ hx => hx)
    refine ⟨_, [], st', ?_, ⟨e', hl, rfl, rfl⟩, hpc.widen (Nat.le_succ n) (Nat.le_refl m)⟩
    rw [stmt, bind_eq he]
    rfl
  | .brk _ => fun _ _ _ _ _ _ st _ hres _ _ _ hloop =>
    ⟨_, [], st, jump_eq (hloop hres), ⟨rfl, rfl⟩, .nothing (fun _ hx => hx) rfl⟩
  | .cont _ => fun _ _ _ _ _ _ st _ hres _ _ _ hloop =>
    ⟨_, [], st, jump_eq (hloop hres), ⟨rfl, rfl⟩, .nothing (fun _ hx => hx) rfl⟩
  | .unknown .. => fun _ _ _ _ _ _ _ hsrc => hsrc.elim

theorem header_lowers (hp : p.Sound fn globals) : ∀ h : Header Mark, HeaderLowerable p fn globals h
  | .whileTrue k c => by
    intro r fs sc loop n m st hsrc hres hn hin hf
    obtain ⟨-, -, hc⟩ := hn.of_cons
    obtain ⟨c', st', hc', hl, hpc⟩ := expr_lowers hp c hsrc hres hc
      (fun x hx => hin x (List.mem_cons_of_mem _ hx)) (hf.mono (Nat.le_succ n) fun _ hx => hx)
    refine ⟨.whileTrue k.span c', [], st', ?_, ⟨c', hl, rfl, rfl⟩,
      hpc.widen (Nat.le_succ n) (Nat.le_refl m)⟩
    rw [header, bind_eq hc']
    rfl
  | .counting _ i c u => by
    refine lowerable_counting hp (fun s hs => ?_) (fun e he => ?_) fun s hs => ?_
    · cases i with
      | none => cases hs
      | some t =>
        have ht := stmt_lowers hp t
        exact Option.some.inj hs ▸ ht
    · cases c with
      | none => cases he
      | some g =>
        have hg := expr_lowers hp g
        exact Option.some.inj he ▸ hg
    · cases u with
      | none => cases hs
      | some t =>
        have ht := stmt_lowers hp t
        exact Option.some.inj hs ▸ ht
  | .forOf k x none e => by
    intro r fs sc loop n m st hsrc hres hn hin hf
    obtain ⟨-, -, hc⟩ := hn.of_cons
    obtain ⟨e', st', he, hl, hpc⟩ := expr_lowers hp e hsrc hres.1 hc
      (fun x hx => hin x (List.mem_cons_of_mem _ hx)) (hf.mono (Nat.le_succ n) fun _ hx => hx)
    refine ⟨.forOf k.span (p.refName r k.id x) none e', [], st', ?_,
      ⟨e', _, _, hl, ⟨rfl, rfl, rfl⟩, rfl⟩, hpc.widen (Nat.le_succ n) (Nat.le_refl m)⟩
    rw [header, bind_eq he]
    rfl
  | .forOf _ _ (some _) e => lowerable_forOf hp (expr_lowers hp e)
  | .unknown .. => fun _ _ _ _ _ _ _ hsrc => hsrc.elim

end
end Lower

open LoweringPlan in
/-- An analysed function can be lowered. -/
theorem FunctionDef.Analysed.lower_lowers {fn : FunctionDef Mark} {globals : List Name}
    {a : Analysis} (h : fn.Analysed globals a) :
    ∃ out, fn.lower a = .ok out ∧ LowersFunction ⟨a, .ofAnalysis a⟩ fn out := by
  have hp : Sound ⟨a, .ofAnalysis a⟩ fn globals := ⟨h, rfl⟩
  obtain ⟨mark, name, params, body⟩ := fn
  obtain ⟨bm, ss⟩ := body
  obtain ⟨m, hn⟩ := h.numbered
  obtain ⟨-, -, hc⟩ := hn.of_cons
  obtain ⟨-, -, hc⟩ := hc.of_cons
  have hf : Fits ⟨a, .ofAnalysis a⟩ .outermost mark.id mark.id ⟨(Naming.ofAnalysis a).supply, []⟩ :=
    ⟨FunctionDef.Analysed.hasScope_of_opens h.opens.scope, nofun, fun _ hx => hx⟩
  obtain ⟨out, roles, st', hout, hlow, hpc⟩ := Lower.stmts_lowers hp ss h.source h.resolved hc
    (fun x hx => List.mem_cons_of_mem _ (List.mem_cons_of_mem _ hx))
    (hf.mono (Nat.le_add_right mark.id 2) fun _ hx => hx) (by simp)
  refine ⟨_, ?_, st'.hoisted, out, roles, hlow,
    (hpc.widen (Nat.le_succ _) (Nat.le_refl m)).hosts_function hp h.opens hf rfl hlow, rfl⟩
  have hcode : Lower.withHoisted ⟨a, .ofAnalysis a⟩ _ ⟨(Naming.ofAnalysis a).supply, []⟩ = _ :=
    Lower.withHoisted_eq hout
  rw [FunctionDef.lower]
  dsimp only
  change (StateT.run (Lower.withHoisted ⟨a, .ofAnalysis a⟩
    (Lower.stmts ⟨a, .ofAnalysis a⟩ .outermost ss)) _ >>= _) = _
  rw [StateT.run, hcode]
  rfl

end FlatScope
