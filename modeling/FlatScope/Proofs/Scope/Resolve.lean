import FlatScope.Proofs.Scope.Steps
import FlatScope.Proofs.Source

/-!
# The resolution of names is right

What `FunctionDef.resolve` returns is consistent, and the names of the function are resolved in it
as the rules of the language demand (`FunctionDef.resolve_resolved`). The proof follows the code:
every piece achieves that its names are resolved, given that the `var`s in it and the `let`s and
`const`s among its statements are declared already.
-/

namespace FlatScope

open Scoping Node

namespace Resolve

variable {globals : List Name} {S : Prop}

/-- The names that statements declare in the scopes around them. -/
def Own (ss : List (Stmt Mark)) (i : NodeId) : Prop :=
  i ∈ varIds (Stmt.varsOfList ss) ∨ i ∈ Lexical.ids (ss.filterMap Stmt.lexical?)

/-- The names that a statement declares in the scopes around it. -/
def OwnOf (s : Stmt Mark) (i : NodeId) : Prop :=
  i ∈ varIds s.vars ∨ i ∈ Lexical.ids s.lexical?.toList

theorem OwnOf.mem {s : Stmt Mark} {i : NodeId} (h : OwnOf s i) : i ∈ Node.ids s.nodes := by
  rcases h with h | h
  · exact mem_of_varIds s.vars_mem h
  · obtain ⟨l, hl, rfl⟩ := List.mem_map.1 h
    exact Stmt.lexical?_mem (Option.mem_toList.1 hl)

theorem Own.mem {ss : List (Stmt Mark)} {i : NodeId} (h : Own ss i) :
    i ∈ Node.ids (Stmt.nodesOfList ss) := by
  rcases h with h | h
  · exact mem_of_varIds (Stmt.varsOfList_mem ss) h
  · obtain ⟨l, hl, rfl⟩ := List.mem_map.1 h
    exact Stmt.lexicals_mem hl

theorem own_cons {s : Stmt Mark} {ss : List (Stmt Mark)} {i : NodeId} :
    Own (s :: ss) i ↔ OwnOf s i ∨ Own ss i := by
  have hlex :
      (s :: ss).filterMap Stmt.lexical? = s.lexical?.toList ++ ss.filterMap Stmt.lexical? := by
    rw [List.filterMap_cons]
    cases s.lexical? <;> rfl
  rw [Own, OwnOf, Own, hlex, Stmt.varsOfList, varIds, Lexical.ids, List.map_append, List.map_append,
    List.mem_append, List.mem_append]
  exact ⟨fun h => by rcases h with (h | h) | (h | h) <;> simp [varIds, Lexical.ids, h],
    fun h => by rcases h with (h | h) | (h | h) <;> simp [varIds, Lexical.ids] at h <;> simp [h]⟩

theorem declaresLexicals_cons {a : Scoping} {sc : ScopeId} {s : Stmt Mark} {ss : List (Stmt Mark)}
    (h : a.DeclaresLexicals sc ((s :: ss).filterMap Stmt.lexical?)) :
    a.DeclaresLexicals sc s.lexical?.toList ∧
      a.DeclaresLexicals sc (ss.filterMap Stmt.lexical?) := by
  have hlex :
      (s :: ss).filterMap Stmt.lexical? = s.lexical?.toList ++ ss.filterMap Stmt.lexical? := by
    rw [List.filterMap_cons]
    cases s.lexical? <;> rfl
  rw [hlex] at h
  exact ⟨fun l hl => h l (List.mem_append_left _ hl), fun l hl => h l (List.mem_append_right _ hl)⟩

/-! ## Declarations -/

/-- A declaration among statements declares what its name means. -/
theorem declares_ok {a : Scoping} {fs sc : ScopeId} {k : Mark} {x : Name} {d : DeclKind}
    {v : Option (Expr Mark)} (ha : a.Consistent) (hin : a.InFunction fs sc)
    (hv : a.DeclaresVars fs (Stmt.declaration k x d v).vars)
    (hx : a.DeclaresLexicals sc (Stmt.declaration k x d v).lexical?.toList)
    (hpath : d = .var → a.bindingBelowFunction? sc x = none) : a.Declares fs sc k.id x d := by
  cases d with
  | var => exact .of_vars ha hv hin (by simp [Stmt.vars]) (hpath rfl)
  | letVar => exact .of_lexicals (l := ⟨k, x, .letVar⟩) ha hx (by simp [Stmt.lexical?,
      DeclKind.isBlockScoped]) rfl
  | const => exact .of_lexicals (l := ⟨k, x, .const⟩) ha hx (by simp [Stmt.lexical?,
      DeclKind.isBlockScoped]) rfl

/-- Resolves a part, if there is one. -/
def clause {α : Type} (f : α → Resolve Unit) : Option α → Resolve Unit
  | none => pure ()
  | some x => f x

/-- What a declaration is refused for. -/
def checkDeclaration (sc : ScopeId) (m : Mark) (x : Name) (d : DeclKind)
    (v : Option (Expr Mark)) : Resolve Unit :=
  match d, v with
  | .var, _ => checkVarPath sc x m.span
  | .const, none => reject (.missingInitializer x) m.span
  | _, _ => pure ()

theorem stmt_declaration (sc : ScopeId) (inLoop : Bool) (m : Mark) (x : Name) (d : DeclKind)
    (v : Option (Expr Mark)) : stmt globals sc inLoop (.declaration m x d v) = (do
      checkDeclaration sc m x d v
      clause (expr globals sc) v) := by
  cases d <;> cases v <;> simp [stmt, checkDeclaration, clause]

theorem checkDeclaration_ok {sc : ScopeId} {m : Mark} {x : Name} {d : DeclKind}
    {v : Option (Expr Mark)} {a b : Scoping} {u : Unit}
    (h : checkDeclaration sc m x d v a = .ok (u, b)) :
    a = b ∧ (d = .var → a.bindingBelowFunction? sc x = none) ∧ (v = none → d ≠ .const) := by
  cases d with
  | var => exact ⟨(checkVarPath_ok h).1, fun _ => (checkVarPath_ok h).2, nofun⟩
  | letVar => exact ⟨(pure_ok h).2, nofun, nofun⟩
  | const =>
    cases v with
    | none => exact absurd h reject_ne
    | some e => exact ⟨(pure_ok h).2, nofun, nofun⟩

/-! ## Headers -/

/-- Opens the scope of a loop, if its header declares a `let` or `const`. -/
def openHeader (loop : Mark) (h : Header Mark) (sc : ScopeId) : Resolve (Option ScopeId) :=
  match headerLexical? h with
  | none => pure none
  | some l => do
    openLoop loop.id l.name l.kind l.mark sc
    return some loop.id

theorem header_counting (sc : ScopeId) (inLoop : Bool) (loop m : Mark) (i : Option (Stmt Mark))
    (c : Option (Expr Mark)) (u : Option (Stmt Mark)) :
    header globals sc inLoop loop (.counting m i c u) = (do
      let own ← openHeader loop (.counting m i c u) sc
      clause (stmt globals (own.getD sc) inLoop) i
      clause (expr globals (own.getD sc)) c
      clause (stmt globals (own.getD sc) inLoop) u
      return own) := by
  rw [header, openHeader]
  cases headerLexical? (.counting m i c u) <;> cases i <;> cases c <;> cases u <;>
    simp only [clause, bind_assoc, pure_bind]

/-- What the resolution of the header of the loop `loop` achieves, whose nodes have the numbers
    below `m`. The scope of the loop has the number of the loop itself, all else is about the nodes
    of the header. -/
structure HeaderDone (globals : List Name) (a b : Scoping) (fs sc : ScopeId) (loop m : Nat)
    (h : Header Mark) : Prop where
  grows : Grows (Between loop m) a b
  consistent : b.Consistent
  loops : Adds (fun l => Between (loop + 1) m l.loop) a.loops b.loops
  opens : b.OpensLoop loop h sc
  inFunction : b.InFunction fs (h.scopeIn loop sc)
  lasts : ∀ c, Grows (fun i => ¬ Between (loop + 1) m i) b c → c.Consistent →
    c.ResolvedHeader globals fs sc loop h

/-- The clauses of a header are resolved after the scope of the loop is opened. -/
theorem HeaderDone.of_achieves {a c b : Scoping} {fs sc : ScopeId} {loop m : Nat} {h : Header Mark}
    (hac : Grows (Between loop m) a c) (hloops : c.loops = a.loops) (hopens : c.OpensLoop loop h sc)
    (hin : c.InFunction fs (h.scopeIn loop sc))
    (hcb : Achieves (loop + 1) m c b fun d => d.ResolvedHeader globals fs sc loop h) :
    HeaderDone globals a b fs sc loop m h where
  grows := hac.trans (hcb.grows.mono fun _ hi => ⟨Nat.le_of_succ_le hi.1, hi.2⟩)
  consistent := hcb.consistent
  loops := by
    rw [← hloops]
    exact hcb.grows.loops.mono fun _ hl => hl.1
  opens := hopens.grows hcb.grows
  inFunction := hin.grows hcb.grows
  lasts := hcb.lasts

/-- What the resolution of a block achieves whose nodes have the numbers below `m`. The scope of the
    block has the number of the block itself, all else is about the nodes below it. -/
structure BlockDone (globals : List Name) (a b : Scoping) (fs sc : ScopeId) (m : Nat)
    (inLoop : Bool) (body : Block Mark) : Prop where
  grows : Grows (Between body.mark.id m) a b
  consistent : b.Consistent
  loops : Adds (fun l => Between (body.mark.id + 1) m l.loop ∧
    ∀ i, l.body = some i → Between (body.mark.id + 1) m i) a.loops b.loops
  opens : b.OpensBlock body sc
  lasts : ∀ c, Grows (fun i => ¬ Between (body.mark.id + 1) m i) b c →
    Adds (fun d => d.1 ≠ body.mark.id) b.blockScopes c.blockScopes → c.Consistent →
    c.ResolvedBlock globals fs sc inLoop body

/-- The statements of a block are resolved after its scope is opened. -/
theorem BlockDone.of_achieves {a c b : Scoping} {fs sc : ScopeId} {m : Nat} {inLoop : Bool}
    {k : Mark} {ss : List (Stmt Mark)} (hac : Grows (Between k.id m) a c)
    (hloops : c.loops = a.loops) (hopens : c.OpensBlock (.mk k ss) sc)
    (hcb : Achieves (k.id + 1) m c b fun d =>
      d.ResolvedStmts globals fs ((Block.mk k ss).scopeIn sc) inLoop ss) :
    BlockDone globals a b fs sc m inLoop (.mk k ss) := by
  have hopens' : b.OpensBlock (.mk k ss) sc :=
    hopens.grows hcb.grows (hcb.grows.blockScopes.mono fun e he hek =>
      Nat.not_succ_le_self k.id (hek ▸ he.1))
  refine ⟨hac.trans (hcb.grows.mono fun _ hi => ⟨Nat.le_of_succ_le hi.1, hi.2⟩), hcb.consistent,
    hloops ▸ hcb.grows.loops, hopens', fun d hbd hnew hd => ?_⟩
  rw [ResolvedBlock]
  exact ⟨hopens'.grows hbd hnew, hcb.lasts d hbd hd⟩

/-- A block that is not the body of a loop. -/
theorem BlockDone.achieves {a b : Scoping} {fs sc : ScopeId} {n m : Nat} {inLoop : Bool}
    {body : Block Mark} {own : NodeId → Prop} (h : BlockDone globals a b fs sc m inLoop body)
    (hn : Consecutive n body.nodes m) (ha : a.Clear n m own) :
    Achieves n m a b fun c => c.NoLoopBody body ∧ c.ResolvedBlock globals fs sc inLoop body := by
  obtain ⟨k, ss⟩ := body
  obtain ⟨hk, hlt, -⟩ := hn.of_cons
  obtain rfl : n = k.id := hk
  have hself : Between k.id m k.id := ⟨Nat.le_refl _, hlt⟩
  refine ⟨h.grows, h.consistent, fun c hbc hc => ⟨fun l hl hlb => ?_, ?_⟩⟩
  · rcases hbc.loops.mem hl with hl | hl
    · rcases h.loops.mem hl with hl | hl
      · exact ha.bodies l hl _ hlb hself
      · exact Nat.not_succ_le_self _ (hl.2 _ hlb).1
    · exact hl.2 _ hlb hself
  · exact h.lasts c (hbc.mono fun i hi hi' => hi ⟨Nat.le_of_succ_le hi'.1, hi'.2⟩)
      (hbc.blockScopes.mono fun e he hek => he (hek ▸ hself)) hc

/-! ## Loops -/

section Loop

variable {k : Mark} {hd : Header Mark} {body : Block Mark} {a a₁ a₂ : Scoping} {fs sc : ScopeId}
  {m p : Nat} {own : NodeId → Prop}

theorem OwnOf.of_loop {i : NodeId} (h : OwnOf (.loop k hd body) i) :
    i ∈ varIds hd.vars ∨ i ∈ varIds body.vars := by
  rcases h with h | h
  · simpa [Stmt.vars, varIds] using h
  · cases h

/-- The scope in which the clauses of a header and the body of the loop are resolved. -/
theorem getD_header (inner : Option ScopeId)
    (h : inner = (headerLexical? hd).map fun _ => k.id) : inner.getD sc = hd.scopeIn k.id sc := by
  rw [h, Header.scopeIn]
  cases headerLexical? hd <;> rfl

theorem ready_loopHeader (ha : a.Ready fs sc k.id m (OwnOf (.loop k hd body)))
    (hb : Consecutive p body.nodes m) : a.Ready fs sc k.id p fun i => i ∈ varIds hd.vars :=
  ha.left hb.le fun _ hi ho => ho.of_loop.resolve_right fun ho =>
    Nat.not_lt.2 (hb.mem.1 (mem_of_varIds body.vars_mem ho)).1 hi.2

theorem ready_loopBody (ha : a.Ready fs sc k.id m (OwnOf (.loop k hd body)))
    (hh : Consecutive (k.id + 1) hd.nodes p) (D : HeaderDone globals a a₁ fs sc k.id p hd) :
    a₁.Ready fs (hd.scopeIn k.id sc) p m fun i => i ∈ varIds body.vars where
  consistent := D.consistent
  stands := by
    refine ⟨D.inFunction, ?_⟩
    rw [Header.scopeIn]
    split
    · exact hh.le
    · exact Nat.lt_trans ha.stands.lt hh.le
  clear := by
    refine (ha.clear.mono (Nat.le_of_succ_le hh.le) (Nat.le_refl _) fun i hi ho =>
      ho.of_loop.resolve_left fun ho => ?_).grows D.grows fun i hi hi' => Nat.not_lt.2 hi'.1 hi.2
    exact Nat.not_lt.2 hi.1 (hh.mem.1 (mem_of_varIds hd.vars_mem ho)).2

/-- What is noted about a loop when its header and its body are resolved. -/
def loopScopes (loop : NodeId) (hd : Header Mark) (body : Block Mark) (sc : ScopeId) : LoopScopes :=
  ⟨loop, (headerLexical? hd).map fun _ => loop,
    if body.lexicals.isEmpty then none else some body.mark.id, sc⟩

/-- Noting the scopes of a loop says something about the loop and about its body only. -/
theorem grows_addLoop (b : Scoping) :
    Grows (fun i => i = k.id ∨ i = body.mark.id) b (b.addLoop (loopScopes k.id hd body sc)) := by
  refine ⟨rfl, .refl _, .refl _, .refl _, .refl _, .refl _, .one ⟨.inl rfl, fun i hi => .inr ?_⟩,
    .refl _⟩
  rw [loopScopes] at hi
  dsimp only at hi
  split at hi
  · cases hi
  · exact (Option.some.inj hi).symm

theorem consistent_addLoop (hlt : body.mark.id < m) (ha : a.Clear k.id m own)
    (hle : k.id < body.mark.id) (D : HeaderDone globals a a₁ fs sc k.id body.mark.id hd)
    (E : BlockDone globals a₁ a₂ fs (hd.scopeIn k.id sc) m true body) :
    (a₂.addLoop (loopScopes k.id hd body sc)).Consistent := by
  refine E.consistent.addLoop (fun i hi => ?_) fun i hi => ?_
  · obtain ⟨x, hx, rfl⟩ := Option.map_eq_some_iff.1 hi
    obtain ⟨s, hs, hsk, -⟩ := (D.opens x hx).1
    obtain ⟨hmem, hid⟩ := mem_of_scope? (E.grows.scope? hs)
    exact ⟨rfl, s, hmem, hid, hsk⟩
  · rw [loopScopes] at hi
    dsimp only at hi
    split at hi
    · cases hi
    · rename_i hne
      obtain ⟨s, hs, hsk, -⟩ := (E.opens.scope (by simpa using hne)).2
      obtain ⟨hmem, hid⟩ := mem_of_scope? hs
      cases hi
      refine ⟨⟨s, hmem, hid, hsk⟩, fun l hl hlb => ?_⟩
      -- the body is that of no other loop
      rcases E.loops.mem hl with hl | hl
      · rcases D.grows.loops.mem hl with hl | hl
        · exact ha.bodies l hl _ hlb ⟨Nat.le_of_lt hle, hlt⟩
        · exact Nat.lt_irrefl _ (hl.2 _ hlb).2
      · exact Nat.not_succ_le_self _ (hl.2 _ hlb).1

/-- The loop is found after its scopes are noted. -/
theorem hasLoop_addLoop (hlt : k.id < m) (ha : a.Clear k.id m own)
    (hle : k.id < body.mark.id) (D : HeaderDone globals a a₁ fs sc k.id body.mark.id hd)
    (E : BlockDone globals a₁ a₂ fs (hd.scopeIn k.id sc) m true body) :
    (a₂.addLoop (loopScopes k.id hd body sc)).loop? k.id = some (loopScopes k.id hd body sc) := by
  have hnone : a₂.loops.find? (fun l => l.loop = k.id) = none := by
    rw [List.find?_eq_none]
    intro l hl he
    rw [decide_eq_true_eq] at he
    rcases E.loops.mem hl with hl | hl
    · rcases D.loops.mem hl with hl | hl
      · exact ha.loops l hl (by rw [he]; exact ⟨Nat.le_refl _, hlt⟩)
      · rw [he] at hl
        exact Nat.not_succ_le_self _ hl.1
    · have hbelow := hl.1.1
      rw [he] at hbelow
      exact Nat.not_lt.2 hbelow (Nat.lt_succ_of_lt hle)
  rw [loop?, addLoop, List.find?_append, hnone]
  simp [loopScopes]

/-- A loop whose header and body are resolved. -/
theorem loop_ok {inLoop : Bool} (hlt : body.mark.id < m) (ha : a.Clear k.id m own)
    (hle : k.id < body.mark.id) (D : HeaderDone globals a a₁ fs sc k.id body.mark.id hd)
    (E : BlockDone globals a₁ a₂ fs (hd.scopeIn k.id sc) m true body) :
    Achieves k.id m a (a₂.addLoop (loopScopes k.id hd body sc)) fun c =>
      c.ResolvedStmt globals fs sc inLoop (.loop k hd body) := by
  have hnote : Grows (fun i => i = k.id ∨ i = body.mark.id) a₂
      (a₂.addLoop (loopScopes k.id hd body sc)) := grows_addLoop a₂
  have hleft : ∀ i, Between k.id body.mark.id i → Between k.id m i := fun i hi =>
    ⟨hi.1, Nat.lt_trans hi.2 hlt⟩
  have hright : ∀ i, Between body.mark.id m i → Between k.id m i := fun i hi =>
    ⟨Nat.le_trans (Nat.le_of_lt hle) hi.1, hi.2⟩
  have hself : ∀ i, i = k.id ∨ i = body.mark.id → Between k.id m i := by
    rintro i (rfl | rfl)
    · exact ⟨Nat.le_refl _, Nat.lt_trans hle hlt⟩
    · exact ⟨Nat.le_of_lt hle, hlt⟩
  refine ⟨((D.grows.mono hleft).trans (E.grows.mono hright)).trans (hnote.mono hself),
    consistent_addLoop hlt ha hle D E, fun d hbd hd' => ?_⟩
  rw [ResolvedStmt]
  refine ⟨?_, ?_, ?_, ?_⟩
  · rw [HasLoop, hbd.loop? (hasLoop_addLoop (Nat.lt_trans hle hlt) ha hle D E)]
    rfl
  · exact D.opens.grows (((E.grows.mono fun _ _ => trivial).trans
      (hnote.mono fun _ _ => trivial)).trans (hbd.mono fun _ _ => trivial))
  · -- what follows the header is not about its clauses
    refine D.lasts d (((E.grows.mono fun i hi hi' => ?_).trans
      (hnote.mono fun i hi hi' => ?_)).trans (hbd.mono fun i hi hi' => ?_)) hd'
    · exact Nat.not_lt.2 hi.1 hi'.2
    · rcases hi with rfl | rfl
      · exact Nat.not_succ_le_self _ hi'.1
      · exact Nat.lt_irrefl _ hi'.2
    · exact hi (hleft i ⟨Nat.le_of_succ_le hi'.1, hi'.2⟩)
  · -- nor is what follows the body about its statements
    refine E.lasts d ((hnote.mono fun i hi hi' => ?_).trans (hbd.mono fun i hi hi' => ?_))
      (hbd.blockScopes.mono fun e he hek => he (hself _ (.inr hek))) hd'
    · rcases hi with rfl | rfl
      · exact Nat.not_lt.2 hi'.1 (Nat.lt_succ_of_lt hle)
      · exact Nat.not_succ_le_self _ hi'.1
    · exact hi (hright i ⟨Nat.le_of_succ_le hi'.1, hi'.2⟩)

end Loop

/-! ## Branches -/

section Branch

variable {k : Mark} {e : Expr Mark} {t : Block Mark} {o : Option (Block Mark)} {a b : Scoping}
  {fs sc : ScopeId} {n m p q : Nat} {φ : Scoping → Prop}

theorem OwnOf.of_branch {i : NodeId} (h : OwnOf (.branch k e t o) i) :
    i ∈ varIds t.vars ∨ i ∈ varIds (o.elim [] Block.vars) := by
  rcases h with h | h
  · cases o <;> simpa [Stmt.vars, varIds] using h
  · cases h

theorem elim_vars_mem {v : Name × Mark} (h : v ∈ o.elim [] Block.vars) :
    v.2.id ∈ Node.ids (o.elim [] Block.nodes) := by
  cases o with
  | none => cases h
  | some f => exact f.vars_mem h

theorem ready_condition (ha : a.Ready fs sc n m (OwnOf (.branch k e t o)))
    (ht : Consecutive p t.nodes q) (hf : Consecutive q (o.elim [] Block.nodes) m) :
    a.Ready fs sc (n + 1) p None := by
  refine (ha.tail (q := OwnOf (.branch k e t o)) fun _ _ => id).left
    (Nat.le_trans ht.le hf.le) fun i hi ho => ?_
  rcases ho.of_branch with ho | ho
  · exact (Nat.not_lt.2 (ht.mem.1 (mem_of_varIds t.vars_mem ho)).1 hi.2).elim
  · exact (Nat.not_lt.2 (Nat.le_trans ht.le (hf.mem.1 (mem_of_varIds elim_vars_mem ho)).1)
      hi.2).elim

theorem ready_then (ha : a.Ready fs sc n m (OwnOf (.branch k e t o)))
    (A : Achieves (n + 1) p a b φ) (hp : n + 1 ≤ p) (hf : Consecutive q (o.elim [] Block.nodes) m) :
    b.Ready fs sc p q fun i => i ∈ varIds t.vars := by
  refine ((ha.tail (q := OwnOf (.branch k e t o)) fun _ _ => id).right A hp
    (q := OwnOf (.branch k e t o)) fun _ _ => id).left hf.le fun i hi ho => ?_
  exact ho.of_branch.resolve_right fun ho =>
    Nat.not_lt.2 (hf.mem.1 (mem_of_varIds elim_vars_mem ho)).1 hi.2

theorem ready_else (ha : a.Ready fs sc n m (OwnOf (.branch k e t o)))
    (A : Achieves (n + 1) q a b φ) (hp : n + 1 ≤ p) (ht : Consecutive p t.nodes q) :
    b.Ready fs sc q m fun i => i ∈ varIds (o.elim [] Block.vars) := by
  refine (ha.tail (q := OwnOf (.branch k e t o)) fun _ _ => id).right A (Nat.le_trans hp ht.le)
    fun i hi ho => ?_
  exact ho.of_branch.resolve_left fun ho =>
    Nat.not_lt.2 hi.1 (ht.mem.1 (mem_of_varIds t.vars_mem ho)).2

end Branch

/-! ## Headers -/

/-- The first clause of a `for` is never left early. -/
theorem resolvedStmt_init {s : Stmt Mark} (hs : s.isInit) {a : Scoping} {fs sc : ScopeId}
    {inLoop : Bool} (h : a.ResolvedStmt globals fs sc inLoop s) :
    a.ResolvedStmt globals fs sc false s := by
  cases s with
  | declaration m n k v => cases v <;> simpa only [ResolvedStmt] using h
  | assignment m t v => cases t <;> simp only [ResolvedStmt] at h ⊢ <;> exact h
  | expression m e => simpa only [ResolvedStmt] using h
  | _ => cases hs

/-- The last clause of a `for` declares nothing. -/
theorem not_ownOf_update {s : Stmt Mark} (hs : s.isUpdate) {i : NodeId} : ¬ OwnOf s i := by
  cases s with
  | assignment => simp [OwnOf, Stmt.vars, Stmt.lexical?, varIds, Lexical.ids]
  | expression => simp [OwnOf, Stmt.vars, Stmt.lexical?, varIds, Lexical.ids]
  | _ => cases hs

theorem isInit_of_isUpdate {s : Stmt Mark} (hs : s.isUpdate) : s.isInit := by
  cases s <;> first | rfl | cases hs

/-- The declaration in a header is one of its nodes, and no `var`. -/
theorem headerLexical?_mem {h : Header Mark} {l : Lexical Mark} (hl : headerLexical? h = some l) :
    l.mark.id ∈ Node.ids h.nodes ∧ h.vars = [] := by
  cases h with
  | whileTrue => cases hl
  | unknown => cases hl
  | counting m i c u =>
    cases i with
    | none => cases hl
    | some s =>
      rw [Header.nodes_counting, ids_cons, ids_append]
      exact ⟨List.mem_cons_of_mem _ (List.mem_append_left _ (Stmt.lexical?_mem hl)), by
        rw [Header.vars, Stmt.vars_of_lexical? hl]⟩
  | forOf m x k e =>
    cases k with
    | none => cases hl
    | some k =>
      cases k <;> simp [headerLexical?, DeclKind.isBlockScoped] at hl <;> subst hl <;>
        simp [Header.nodes, Header.vars, Node.mark, Header.mark]

/-- What is known after the scope of a loop is opened, if its header declares anything. -/
theorem openHeader_ok {loop : Mark} {h : Header Mark} {a b : Scoping} {fs sc : ScopeId} {m : Nat}
    {own : Option ScopeId} (ha : a.Ready fs sc loop.id m fun i => i ∈ varIds h.vars)
    (hn : Consecutive (loop.id + 1) h.nodes m) (hopen : openHeader loop h sc a = .ok (own, b)) :
    own = (headerLexical? h).map (fun _ => loop.id) ∧ Grows (Between loop.id m) a b ∧
      b.loops = a.loops ∧ b.OpensLoop loop.id h sc ∧
      b.Ready fs (h.scopeIn loop.id sc) (loop.id + 1) m (fun i => i ∈ varIds h.vars ∨
        i ∈ Lexical.ids (headerLexical? h).toList) ∧
      b.DeclaresLexicals (h.scopeIn loop.id sc) (headerLexical? h).toList := by
  have hlt := hn.le
  unfold openHeader at hopen
  cases hl : headerLexical? h with
  | none =>
    rw [hl] at hopen
    obtain ⟨rfl, rfl⟩ := pure_ok hopen
    have hin : h.scopeIn loop.id sc = sc := by simp [Header.scopeIn, hl]
    rw [hin]
    exact ⟨rfl, .refl a, rfl, fun l hl' => by simp [hl] at hl', ha.tail fun _ _ => .inl,
      fun _ hmem => absurd hmem List.not_mem_nil⟩
  | some l =>
    rw [hl] at hopen
    obtain ⟨_, b', h₁, h₂⟩ := bind_ok hopen
    obtain ⟨rfl, rfl⟩ := pure_ok h₂
    have hin : h.scopeIn loop.id sc = loop.id := by simp [Header.scopeIn, hl]
    obtain ⟨hmem, hvars⟩ := headerLexical?_mem hl
    have hrange := hn.mem.1 hmem
    have hself : Between loop.id m loop.id := ⟨Nat.le_refl _, hlt⟩
    obtain ⟨keys, ho, hopens, hdecl⟩ := openLoop_ok ha.consistent ha.stands
      (fun s hs he => ha.clear.scopes s hs (by rw [he]; exact hself))
      (fun d hd he => by
        have := ha.clear.declarations d hd (by rw [he]; exact ⟨by omega, hrange.2⟩)
        rw [hvars] at this
        cases this) h₁
    have hgrow : Grows (Between loop.id m) a b' :=
      ho.growing hself (hdecl.mono fun d hd => by rw [hd]; exact ⟨by omega, hrange.2⟩)
    obtain ⟨t, ht, htk, htp, -⟩ := ho.scope?
    rw [hin]
    refine ⟨rfl, hgrow, ho.loops, hopens h hl, ⟨ho.consistent,
      ⟨.inner ht (by rw [htk]; decide) htp (ha.stands.inFunction.grows hgrow), Nat.lt_succ_self _⟩,
      ?_⟩, hl ▸ (hopens h hl).lexicals⟩
    · exact ho.clear (ha.clear.mono (Nat.le_succ _) (Nat.le_refl _) fun _ _ => .inl)
        (fun hi => Nat.not_succ_le_self _ hi.1)
        (hdecl.mono fun d hd => .inr (by simp [Lexical.ids, hd]))

/-- Resolving the header of a loop over a sequence that declares a `let` or `const`, after the
    sequence. -/
theorem forOf_ok {loop k : Mark} {x : Name} {d : DeclKind} {e : Expr Mark} {a a₁ b : Scoping}
    {fs sc : ScopeId} {m : Nat} {u : Unit} (hd : d.isBlockScoped = true)
    (ha : a.Ready fs sc loop.id m fun i => i ∈ varIds (Header.forOf k x (some d) e).vars)
    (hk : @Eq Nat (loop.id + 1) k.id) (hle : loop.id + 2 ≤ m)
    (A : Achieves (loop.id + 2) m a a₁ fun c => c.ResolvedExpr globals sc e)
    (h : openLoop loop.id x d k sc a₁ = .ok (u, b)) :
    HeaderDone globals a b fs sc loop.id m (.forOf k x (some d) e) := by
  have hvars : (Header.forOf k x (some d) e).vars = [] := by
    cases d with
    | var => cases hd
    | _ => rfl
  have hheader : headerLexical? (Header.forOf k x (some d) e) = some ⟨k, x, d⟩ := by
    simp [headerLexical?, hd]
  have hin : (Header.forOf k x (some d) e).scopeIn loop.id sc = loop.id := by
    simp [Header.scopeIn, hheader]
  have hclear := (ha.clear.mono (k := loop.id) (l := loop.id + 2) (q := fun _ => False)
    (Nat.le_refl _) hle fun i _ hi => by rw [hvars] at hi; cases hi).grows A.grows
    fun i hi hi' => Nat.not_lt.2 hi.1 hi'.2
  have hself : Between loop.id (loop.id + 2) loop.id := ⟨Nat.le_refl _, by omega⟩
  obtain ⟨keys, ho, hopens, hdecl⟩ := openLoop_ok A.consistent
    (ha.stands.grows A.grows (Nat.le_refl _))
    (fun s hs he => hclear.scopes s hs (by rw [he]; exact hself))
    (fun d hd he => hclear.declarations d hd (by rw [he, ← hk]; exact ⟨by omega, by omega⟩)) h
  have hgrow : Grows (Between loop.id (loop.id + 2)) a₁ b :=
    ho.growing hself (hdecl.mono fun d hd => by rw [hd, ← hk]; exact ⟨by omega, by omega⟩)
  have hinF := ha.stands.inFunction.grows (A.grows)
  have hlex := hheader ▸ (hopens _ hheader).lexicals
  obtain ⟨t, ht, htk, htp, -⟩ := ho.scope?
  refine ⟨(A.grows.mono fun i hi => ⟨Nat.le_trans (Nat.le_add_right _ 2) hi.1, hi.2⟩).trans
    (hgrow.mono fun i hi => ⟨hi.1, Nat.lt_of_lt_of_le hi.2 hle⟩), ho.consistent, ?_, ?_, ?_, ?_⟩
  · rw [ho.loops]
    exact A.grows.loops.mono fun l hl => ⟨Nat.le_of_succ_le hl.1.1, hl.1.2⟩
  · exact hopens _ hheader
  · rw [hin]
    exact .inner ht (by rw [htk]; decide) htp (hinF.grows hgrow)
  · intro c hbc hc
    have hopened : Grows (fun i => ¬ Between (loop.id + 2) m i) a₁ b :=
      hgrow.mono fun i hi hi' => Nat.not_lt.2 hi'.1 hi.2
    have hlater : Grows (fun i => ¬ Between (loop.id + 2) m i) b c :=
      hbc.mono fun i hi hi' => hi ⟨Nat.le_of_succ_le hi'.1, hi'.2⟩
    have hexpr := A.lasts c (hopened.trans hlater) hc
    have hdecl : c.Declares fs loop.id k.id x d :=
      .of_lexicals (l := ⟨k, x, d⟩) hc (hlex.grows hbc) (List.mem_singleton.2 rfl) hd
    cases d with
    | var => cases hd
    | letVar => simpa only [ResolvedHeader] using ⟨hexpr, hdecl⟩
    | const => simpa only [ResolvedHeader] using ⟨hexpr, hdecl⟩

/-- No declarations in the scopes around. -/
abbrev None : NodeId → Prop := fun _ => False

mutual

theorem expr_ok : ∀ (e : Expr Mark) {a b : Scoping} {fs sc : ScopeId} {n m : Nat} {u : Unit},
    e.Shaped S → Consecutive n e.nodes m → a.Ready fs sc n m None →
    expr globals sc e a = .ok (u, b) → Achieves n m a b fun c => c.ResolvedExpr globals sc e
  | .literal .., a, b, fs, sc, n, m, u, _, _, ha, h => by
    obtain ⟨-, rfl⟩ := pure_ok (x := ()) (by simpa only [expr] using h)
    exact .nothing ha.consistent fun c => by simp only [ResolvedExpr]
  | .name k x, a, b, fs, sc, n, m, u, _, hn, ha, h => by
    obtain ⟨hk, hlt, -⟩ := hn.of_cons
    change n = k.id at hk
    subst hk
    rw [expr] at h
    have := reference_ok ha.consistent ha.known
      (fun r hr he => ha.clear.references r hr (by rw [he]; exact ⟨Nat.le_refl _, hlt⟩)) h
    exact (this.widen (Nat.le_refl _) hlt).imp fun c hr => by simpa only [ResolvedExpr] using hr
  | .unary _ _ e, a, b, fs, sc, n, m, u, hsrc, hn, ha, h => by
    obtain ⟨-, -, hn⟩ := hn.of_cons
    rw [expr] at h
    exact ((expr_ok e hsrc hn (ha.tail fun _ _ => id) h).widen (Nat.le_succ n) (Nat.le_refl _)).imp
      fun c hr => by simpa only [ResolvedExpr] using hr
  | .binary _ _ l r, a, b, fs, sc, n, m, u, hsrc, hn, ha, h => by
    obtain ⟨-, -, hn⟩ := hn.of_cons
    obtain ⟨k, hl, hr⟩ := hn.of_append
    rw [expr] at h
    obtain ⟨_, a₁, h₁, h₂⟩ := bind_ok h
    have A := expr_ok l hsrc.1 hl ((ha.tail fun _ _ => id).left hr.le fun _ _ => id) h₁
    have B := expr_ok r hsrc.2 hr ((ha.tail fun _ _ => id).right A hl.le fun _ _ => id) h₂
    exact ((A.seq B hl.le hr.le).widen (Nat.le_succ n) (Nat.le_refl _)).imp
      fun c hc => by simpa only [ResolvedExpr] using hc
  | .call _ f args, a, b, fs, sc, n, m, u, hsrc, hn, ha, h => by
    obtain ⟨-, -, hn⟩ := hn.of_cons
    obtain ⟨k, hl, hr⟩ := hn.of_append
    rw [expr] at h
    obtain ⟨_, a₁, h₁, h₂⟩ := bind_ok h
    have A := expr_ok f hsrc.1 hl ((ha.tail fun _ _ => id).left hr.le fun _ _ => id) h₁
    have B := exprs_ok args hsrc.2 hr ((ha.tail fun _ _ => id).right A hl.le fun _ _ => id) h₂
    exact ((A.seq B hl.le hr.le).widen (Nat.le_succ n) (Nat.le_refl _)).imp
      fun c hc => by simpa only [ResolvedExpr] using hc
  | .array _ es, a, b, fs, sc, n, m, u, hsrc, hn, ha, h => by
    obtain ⟨-, -, hn⟩ := hn.of_cons
    rw [expr] at h
    exact ((exprs_ok es hsrc hn (ha.tail fun _ _ => id) h).widen (Nat.le_succ n)
      (Nat.le_refl _)).imp
      fun c hr => by simpa only [ResolvedExpr] using hr
  | .index _ l r, a, b, fs, sc, n, m, u, hsrc, hn, ha, h => by
    obtain ⟨-, -, hn⟩ := hn.of_cons
    obtain ⟨k, hl, hr⟩ := hn.of_append
    rw [expr] at h
    obtain ⟨_, a₁, h₁, h₂⟩ := bind_ok h
    have A := expr_ok l hsrc.1 hl ((ha.tail fun _ _ => id).left hr.le fun _ _ => id) h₁
    have B := expr_ok r hsrc.2 hr ((ha.tail fun _ _ => id).right A hl.le fun _ _ => id) h₂
    exact ((A.seq B hl.le hr.le).widen (Nat.le_succ n) (Nat.le_refl _)).imp
      fun c hc => by simpa only [ResolvedExpr] using hc
  | .function k ps (.mk j ss), a, b, fs, sc, n, m, u, hsrc, hn, ha, h => by
    obtain ⟨hk, hlt, hn⟩ := hn.of_cons
    change n = k.id at hk
    subst hk
    obtain ⟨-, -, hss⟩ := hn.of_cons
    rw [expr] at h
    obtain ⟨_, a₁, h₁, h₂⟩ := bind_ok h
    obtain ⟨s, hs⟩ := ha.known
    obtain ⟨hsm, hsid⟩ := mem_of_scope? hs
    obtain ⟨hgrow, hcons, hopens, hclear⟩ := openFunction_ok ha.consistent hn ha.clear
      (by rintro p ⟨⟩; exact ⟨ha.stands.lt, s, hsm, hsid⟩) h₁
    obtain ⟨t, ht, htk, -⟩ := hopens.scope
    have B := stmts_ok (f := k.id) (s := k.id) ss hsrc hss
      ⟨hcons, ⟨.root ht htk, Nat.lt_succ_of_lt (Nat.lt_succ_self _)⟩, hclear⟩ hopens.vars
      hopens.lexicals h₂
    refine (B.after hgrow (Nat.le_add_right _ 2) (fun d hd hdc => hopens.grows hd hcons hdc)).imp
      fun c hc => ?_
    simpa only [ResolvedExpr] using hc
  | .signal _ _ none, a, b, fs, sc, n, m, u, _, _, ha, h => by
    obtain ⟨-, rfl⟩ := pure_ok (x := ()) (by simpa only [expr] using h)
    exact .nothing ha.consistent fun c => by simp only [ResolvedExpr]
  | .signal _ _ (some e), a, b, fs, sc, n, m, u, hsrc, hn, ha, h
  | .signalIs _ e _, a, b, fs, sc, n, m, u, hsrc, hn, ha, h
  | .signalValue _ e, a, b, fs, sc, n, m, u, hsrc, hn, ha, h => by
    obtain ⟨-, -, hn⟩ := hn.of_cons
    rw [expr] at h
    exact ((expr_ok e hsrc.2 hn (ha.tail fun _ _ => id) h).widen (Nat.le_succ n)
      (Nat.le_refl _)).imp fun c hr => by simpa only [ResolvedExpr] using hr
  | .unknown .., _, _, _, _, _, _, _, hsrc, _, _, _ => hsrc.elim

theorem exprs_ok : ∀ (es : List (Expr Mark)) {a b : Scoping} {fs sc : ScopeId} {n m : Nat}
    {u : Unit}, Expr.ShapedList S es → Consecutive n (Expr.nodesOfList es) m →
    a.Ready fs sc n m None → exprs globals sc es a = .ok (u, b) →
    Achieves n m a b fun c => c.ResolvedExprs globals sc es
  | [], a, b, fs, sc, n, m, u, _, _, ha, h => by
    obtain ⟨-, rfl⟩ := pure_ok (x := ()) (by simpa only [exprs] using h)
    exact .nothing ha.consistent fun c => by simp only [ResolvedExprs]
  | e :: es, a, b, fs, sc, n, m, u, hsrc, hn, ha, h => by
    obtain ⟨k, hl, hr⟩ := hn.of_append
    rw [exprs] at h
    obtain ⟨_, a₁, h₁, h₂⟩ := bind_ok h
    have A := expr_ok e hsrc.1 hl (ha.left hr.le fun _ _ => id) h₁
    have B := exprs_ok es hsrc.2 hr (ha.right A hl.le fun _ _ => id) h₂
    exact (A.seq B hl.le hr.le).imp fun c hc => by simpa only [ResolvedExprs] using hc

theorem stmts_ok : ∀ (ss : List (Stmt Mark)) {a b : Scoping} {f s : ScopeId} {n m : Nat}
    {inLoop : Bool} {u : Unit}, Stmt.ShapedList S ss → Consecutive n (Stmt.nodesOfList ss) m →
    a.Ready f s n m (Own ss) → a.DeclaresVars f (Stmt.varsOfList ss) →
    a.DeclaresLexicals s (ss.filterMap Stmt.lexical?) →
    stmts globals s inLoop ss a = .ok (u, b) →
    Achieves n m a b fun c => c.ResolvedStmts globals f s inLoop ss
  | [], a, b, fs, sc, n, m, inLoop, u, _, _, ha, _, _, h => by
    obtain ⟨-, rfl⟩ := pure_ok (x := ()) (by simpa only [stmts] using h)
    exact .nothing ha.consistent fun c => by simp only [ResolvedStmts]
  | s :: ss, a, b, fs, sc, n, m, inLoop, u, hsrc, hn, ha, hv, hx, h => by
    obtain ⟨k, hl, hr⟩ := hn.of_append
    rw [stmts] at h
    obtain ⟨_, a₁, h₁, h₂⟩ := bind_ok h
    obtain ⟨hxs, hxss⟩ := declaresLexicals_cons hx
    have A := stmt_ok s hsrc.1 hl
      (ha.left hr.le fun i hi hown => (own_cons.1 hown).resolve_right fun h =>
        Nat.not_lt.2 (hr.mem.1 h.mem).1 hi.2)
      (fun v hv' => hv v (List.mem_append_left _ hv')) hxs h₁
    have B := stmts_ok ss hsrc.2 hr
      (ha.right A hl.le fun i hi hown => (own_cons.1 hown).resolve_left fun h =>
        Nat.not_lt.2 hi.1 (hl.mem.1 h.mem).2)
      (DeclaresVars.grows (fun v hv' => hv v (List.mem_append_right _ hv')) A.grows)
      (hxss.grows A.grows) h₂
    exact (A.seq B hl.le hr.le).imp fun c hc => by simpa only [ResolvedStmts] using hc

theorem block_done : ∀ (body : Block Mark) {a b : Scoping} {fs sc : ScopeId} {n m : Nat}
    {inLoop : Bool} {own : Option ScopeId}, body.Shaped S → Consecutive n body.nodes m →
    a.Ready fs sc n m (fun i => i ∈ varIds body.vars) → a.DeclaresVars fs body.vars →
    block globals sc inLoop body a = .ok (own, b) →
    own = (if body.lexicals.isEmpty then none else some body.mark.id) ∧
      BlockDone globals a b fs sc m inLoop body
  | .mk k ss, a, b, fs, sc, n, m, inLoop, own, hsrc, hn, ha, hv, h => by
    obtain ⟨hk, -, hss⟩ := hn.of_cons
    obtain rfl : n = k.id := hk
    rw [block] at h
    obtain ⟨own, a₁, h₁, h⟩ := bind_ok h
    obtain ⟨_, a₂, h₂, h₃⟩ := bind_ok h
    obtain ⟨rfl, rfl⟩ := pure_ok h₃
    obtain ⟨hown, hgrow, hcons, hopens, hloops, hstands, hlex, hclear⟩ :=
      openBlock_ok ha.consistent hn ha.clear ha.stands h₁
    have hin : own.getD sc = (Block.mk k ss).scopeIn sc := by
      rw [hown, Block.scopeIn]
      split <;> rfl
    rw [hin] at h₂
    exact ⟨hown, .of_achieves hgrow hloops hopens
      (stmts_ok ss hsrc hss ⟨hcons, hstands, hclear⟩ (hv.grows hgrow) hlex h₂)⟩

theorem stmt_ok : ∀ (s : Stmt Mark) {a b : Scoping} {fs sc : ScopeId} {n m : Nat}
    {inLoop : Bool} {u : Unit}, s.Shaped S → Consecutive n s.nodes m →
    a.Ready fs sc n m (OwnOf s) → a.DeclaresVars fs s.vars →
    a.DeclaresLexicals sc s.lexical?.toList →
    stmt globals sc inLoop s a = .ok (u, b) →
    Achieves n m a b fun c => c.ResolvedStmt globals fs sc inLoop s
  | .declaration k x d none, a, b, fs, sc, n, m, inLoop, u, _, hn, ha, hv, hx, h => by
    obtain ⟨hk, hlt, -⟩ := hn.of_cons
    rw [stmt_declaration] at h
    obtain ⟨_, a₁, h₁, h₂⟩ := bind_ok h
    obtain ⟨rfl, hpath, hne⟩ := checkDeclaration_ok h₁
    obtain ⟨-, rfl⟩ := pure_ok h₂
    refine ⟨.refl a, ha.consistent, fun c hac hc => ?_⟩
    rw [ResolvedStmt]
    exact ⟨(declares_ok ha.consistent ha.stands.inFunction hv hx hpath).grows hac ha.consistent hc
      ha.known, hne rfl⟩
  | .declaration k x d (some e), a, b, fs, sc, n, m, inLoop, u, hsrc, hn, ha, hv, hx, h => by
    obtain ⟨hk, hlt, hn⟩ := hn.of_cons
    change n = k.id at hk
    rw [stmt_declaration] at h
    obtain ⟨_, a₁, h₁, h₂⟩ := bind_ok h
    obtain ⟨rfl, hpath, -⟩ := checkDeclaration_ok h₁
    have hd := declares_ok ha.consistent ha.stands.inFunction hv hx hpath
    have A := expr_ok e hsrc hn (ha.tail fun i hi hown => ?_) h₂
    · refine (A.after (.refl a) (Nat.le_succ n) fun c hac hc =>
        hd.grows hac ha.consistent hc ha.known).imp fun c hc => ?_
      simpa only [ResolvedStmt] using hc
    · obtain rfl : i = k.id := by
        rcases hown with hown | hown
        · cases d <;> simp_all [varIds, Stmt.vars]
        · cases d <;> simp_all [Lexical.ids, Stmt.lexical?, DeclKind.isBlockScoped]
      have := hi.1
      omega
  | .assignment k (.name j x) v, a, b, fs, sc, n, m, inLoop, u, hsrc, hn, ha, hv, hx, h => by
    obtain ⟨-, -, hn⟩ := hn.of_cons
    obtain ⟨p, ht, hr⟩ := hn.of_append
    obtain ⟨hj, hlt, -⟩ := ht.of_cons
    change n + 1 = j.id at hj
    rw [stmt] at h
    obtain ⟨_, a₁, h₁, h₂⟩ := bind_ok h
    have hready := ha.tail (q := None) fun i _ hown => by
      rcases hown with hown | hown <;> cases hown
    have A := (reference_ok ha.consistent ha.known
      (fun r hr' he => ha.clear.references r hr' (by
        have := hr.le
        rw [he]
        exact ⟨by omega, by omega⟩)) h₁).widen (p := n + 1) (q := p) (by omega) (by omega)
    have B := expr_ok v hsrc.2 hr (hready.right A ht.le fun _ _ => id) h₂
    exact ((A.seq B ht.le hr.le).widen (Nat.le_succ n) (Nat.le_refl _)).imp
      fun c hc => by simpa only [ResolvedStmt] using hc
  | .assignment k (.index j x y) v, a, b, fs, sc, n, m, inLoop, u, hsrc, hn, ha, hv, hx, h => by
    obtain ⟨-, -, hn⟩ := hn.of_cons
    obtain ⟨p, ht, hr⟩ := hn.of_append
    obtain ⟨-, -, ht'⟩ := ht.of_cons
    obtain ⟨q, hx, hy⟩ := ht'.of_append
    rw [stmt] at h
    obtain ⟨_, a₁, h₁, h⟩ := bind_ok h
    obtain ⟨_, a₂, h₂, h₃⟩ := bind_ok h
    have hready := ha.tail (q := None) fun i _ hown => by
      rcases hown with hown | hown <;> cases hown
    have hready' := (hready.left hr.le (q := None) fun _ _ => id).tail (q := None) fun _ _ => id
    have A := expr_ok x hsrc.1.1 hx (hready'.left hy.le fun _ _ => id) h₁
    have B := expr_ok y hsrc.1.2 hy (hready'.right A hx.le fun _ _ => id) h₂
    have AB := (A.seq B hx.le hy.le).widen (p := n + 1) (Nat.le_succ _) (Nat.le_refl _)
    have C := expr_ok v hsrc.2 hr (hready.right AB ht.le fun _ _ => id) h₃
    refine ((AB.seq C ht.le hr.le).widen (Nat.le_succ n) (Nat.le_refl _)).imp fun c hc => ?_
    rw [ResolvedStmt]
    exact ⟨hc.1.1, hc.1.2, hc.2⟩
  | .assignment k (.literal ..) v, a, b, fs, sc, n, m, inLoop, u, hsrc, hn, ha, hv, hx, h
  | .assignment k (.unary ..) v, a, b, fs, sc, n, m, inLoop, u, hsrc, hn, ha, hv, hx, h
  | .assignment k (.binary ..) v, a, b, fs, sc, n, m, inLoop, u, hsrc, hn, ha, hv, hx, h
  | .assignment k (.call ..) v, a, b, fs, sc, n, m, inLoop, u, hsrc, hn, ha, hv, hx, h
  | .assignment k (.array ..) v, a, b, fs, sc, n, m, inLoop, u, hsrc, hn, ha, hv, hx, h
  | .assignment k (.function ..) v, a, b, fs, sc, n, m, inLoop, u, hsrc, hn, ha, hv, hx, h
  | .assignment k (.signal ..) v, a, b, fs, sc, n, m, inLoop, u, hsrc, hn, ha, hv, hx, h
  | .assignment k (.signalIs ..) v, a, b, fs, sc, n, m, inLoop, u, hsrc, hn, ha, hv, hx, h
  | .assignment k (.signalValue ..) v, a, b, fs, sc, n, m, inLoop, u, hsrc, hn, ha, hv, hx, h
  | .assignment k (.unknown ..) v, a, b, fs, sc, n, m, inLoop, u, hsrc, hn, ha, hv, hx, h => by
    simp only [stmt] at h
    obtain ⟨_, a₁, h₁, h₂⟩ := bind_ok h
    exact absurd h₁ reject_ne
  | .expression _ e, a, b, fs, sc, n, m, inLoop, u, hsrc, hn, ha, hv, hx, h => by
    obtain ⟨-, -, hn⟩ := hn.of_cons
    rw [stmt] at h
    have A := expr_ok e hsrc hn (ha.tail fun i _ hown => by
      rcases hown with hown | hown <;> cases hown) h
    exact (A.widen (Nat.le_succ n) (Nat.le_refl _)).imp fun c hc => by
      simpa only [ResolvedStmt] using hc
  | .block body, a, b, fs, sc, n, m, inLoop, u, hsrc, hn, ha, hv, hx, h => by
    rw [stmt] at h
    obtain ⟨_, a₁, h₁, h₂⟩ := bind_ok h
    obtain ⟨-, rfl⟩ := pure_ok h₂
    have hready := ha.left (q := fun i => i ∈ varIds body.vars) (Nat.le_refl _) fun i _ hown => by
      rcases hown with hown | hown
      · simpa only [Stmt.vars] using hown
      · cases hown
    have A := (block_done body hsrc hn hready (by simpa only [Stmt.vars] using hv) h₁).2.achieves
      hn hready.clear
    exact A.imp fun c hc => by simpa only [ResolvedStmt] using hc
  | .branch _ c t none, a, b, fs, sc, n, m, inLoop, u, hsrc, hn, ha, hv, hx, h => by
    obtain ⟨-, -, hn⟩ := hn.of_cons
    obtain ⟨p, hc, ht⟩ := hn.of_append
    rw [List.append_nil] at ht
    rw [stmt] at h
    obtain ⟨_, a₁, h₁, h⟩ := bind_ok h
    obtain ⟨_, a₂, h₂, h⟩ := bind_ok h
    obtain ⟨-, rfl⟩ := pure_ok h
    have A := expr_ok c hsrc.1 hc (ready_condition ha ht (.nil m)) h₁
    have hthen := ready_then ha A hc.le (.nil m)
    have hvars : a.DeclaresVars fs t.vars := by simpa [Stmt.vars] using hv
    have B := (block_done t hsrc.2 ht hthen (hvars.grows A.grows) h₂).2.achieves ht hthen.clear
    exact ((A.seq B hc.le ht.le).widen (Nat.le_succ n) (Nat.le_refl _)).imp fun c hc => by
      simpa only [ResolvedStmt] using hc
  | .branch _ c t (some e), a, b, fs, sc, n, m, inLoop, u, hsrc, hn, ha, hv, hx, h => by
    obtain ⟨-, -, hn⟩ := hn.of_cons
    obtain ⟨p, hc, hte⟩ := hn.of_append
    obtain ⟨q, ht, he⟩ := hte.of_append
    rw [stmt] at h
    obtain ⟨_, a₁, h₁, h⟩ := bind_ok h
    obtain ⟨_, a₂, h₂, h⟩ := bind_ok h
    obtain ⟨_, a₃, h₃, h⟩ := bind_ok h
    obtain ⟨-, rfl⟩ := pure_ok h
    rw [Stmt.vars] at hv
    obtain ⟨hvt, hve⟩ := List.forall_mem_append.1 hv
    have A := expr_ok c hsrc.1 hc (ready_condition ha ht he) h₁
    have hthen := ready_then ha A hc.le he
    have B := (block_done t hsrc.2.1 ht hthen (DeclaresVars.grows hvt A.grows) h₂).2.achieves ht
      hthen.clear
    have AB := A.seq B hc.le ht.le
    have helse := ready_else ha AB hc.le ht
    have C := (block_done e hsrc.2.2 he helse (DeclaresVars.grows hve AB.grows) h₃).2.achieves he
      helse.clear
    refine ((AB.seq C (Nat.le_trans hc.le ht.le) he.le).widen (Nat.le_succ n) (Nat.le_refl _)).imp
      fun c hc => ?_
    rw [ResolvedStmt]
    exact ⟨hc.1.1, hc.1.2.1, hc.1.2.2, hc.2.1, hc.2.2⟩
  | .loop k hd body, a, b, fs, sc, n, m, inLoop, u, hsrc, hn, ha, hv, hx, h => by
    obtain ⟨hk, -, hn⟩ := hn.of_cons
    obtain rfl : n = k.id := hk
    obtain ⟨p, hh, hb⟩ := hn.of_append
    rw [stmt] at h
    obtain ⟨inner, a₁, h₁, h⟩ := bind_ok h
    obtain ⟨own, a₂, h₂, h⟩ := bind_ok h
    obtain rfl := modify_ok h
    rw [Stmt.vars] at hv
    obtain ⟨hvh, hvb⟩ := List.forall_mem_append.1 hv
    obtain ⟨hinner, D⟩ := header_ok hd hsrc.1 hh (ready_loopHeader ha hb) hvh h₁
    rw [getD_header inner hinner] at h₂
    obtain ⟨hown, E⟩ := block_done body hsrc.2 hb (ready_loopBody ha hh D)
      (DeclaresVars.grows hvb D.grows) h₂
    obtain ⟨hp, hlt⟩ : p = body.mark.id ∧ p < m := by
      obtain ⟨j, ss⟩ := body
      obtain ⟨hj, hlt, -⟩ := hb.of_cons
      exact ⟨hj, hlt⟩
    subst hp
    rw [hinner, hown]
    exact loop_ok hlt ha.clear hh.le D E
  | .ret _ none, a, b, fs, sc, n, m, inLoop, u, hsrc, hn, ha, hv, hx, h => by
    rw [stmt] at h
    obtain ⟨-, rfl⟩ := pure_ok h
    exact .nothing ha.consistent fun c => by simp only [ResolvedStmt]
  | .ret _ (some e), a, b, fs, sc, n, m, inLoop, u, hsrc, hn, ha, hv, hx, h => by
    obtain ⟨-, -, hn⟩ := hn.of_cons
    rw [stmt] at h
    have A := expr_ok e hsrc hn (ha.tail fun i _ hown => by
      rcases hown with hown | hown <;> cases hown) h
    exact (A.widen (Nat.le_succ n) (Nat.le_refl _)).imp fun c hc => by
      simpa only [ResolvedStmt] using hc
  | .brk k, a, b, fs, sc, n, m, inLoop, u, hsrc, hn, ha, hv, hx, h
  | .cont k, a, b, fs, sc, n, m, inLoop, u, hsrc, hn, ha, hv, hx, h => by
    rw [stmt, checkJump] at h
    split at h
    case isTrue hin =>
      obtain ⟨-, rfl⟩ := pure_ok h
      exact .nothing ha.consistent fun c => by simpa only [ResolvedStmt] using hin
    case isFalse => exact absurd h reject_ne
  | .unknown .., _, _, _, _, _, _, _, _, hsrc, _, _, _, _, _ => hsrc.elim

theorem header_ok : ∀ (h : Header Mark) {loop : Mark} {a b : Scoping} {fs sc : ScopeId} {m : Nat}
    {inLoop : Bool} {own : Option ScopeId}, h.Shaped S → Consecutive (loop.id + 1) h.nodes m →
    (a.Ready fs sc loop.id m fun i => i ∈ varIds h.vars) → a.DeclaresVars fs h.vars →
    header globals sc inLoop loop h a = .ok (own, b) →
    own = (headerLexical? h).map (fun _ => loop.id) ∧
      HeaderDone globals a b fs sc loop.id m h
  | .whileTrue k c, loop, a, b, fs, sc, m, inLoop, own, hsrc, hn, ha, hv, h => by
    obtain ⟨-, -, hn⟩ := hn.of_cons
    rw [header] at h
    obtain ⟨_, b', h₁, h₂⟩ := bind_ok h
    obtain ⟨rfl, rfl⟩ := pure_ok h₂
    have hready := (ha.tail (q := fun _ => False) fun i _ hi => by cases hi).tail
      (q := None) fun _ _ => id
    have A := expr_ok c hsrc hn hready h₁
    refine ⟨rfl, .of_achieves (.refl a) rfl nofun ha.stands.inFunction
      ((A.widen (Nat.le_succ _) (Nat.le_refl _)).imp fun d hd => ?_)⟩
    simpa only [ResolvedHeader] using hd
  | .counting k i c u, loop, a, b, fs, sc, m, inLoop, own, hsrc, hn, ha, hv, h => by
    obtain ⟨hsi, hsc', hsu⟩ := Header.shaped_counting.1 hsrc
    rw [header_counting] at h
    obtain ⟨own', a₀, h₀, h⟩ := bind_ok h
    obtain ⟨_, a₁, h₁, h⟩ := bind_ok h
    obtain ⟨_, a₂, h₂, h⟩ := bind_ok h
    obtain ⟨_, a₃, h₃, h⟩ := bind_ok h
    obtain ⟨rfl, rfl⟩ := pure_ok h
    obtain ⟨hown, hgrow, hloops, hopens, hready, hlex⟩ := openHeader_ok ha hn h₀
    rw [getD_header own' hown] at h₁ h₂ h₃
    rw [Header.nodes_counting] at hn
    obtain ⟨-, -, hn⟩ := hn.of_cons
    obtain ⟨p, hi, hcu⟩ := hn.of_append
    obtain ⟨q, hc, hu⟩ := hcu.of_append
    have hready' := hready.tail (q := i.elim None OwnOf) fun j _ hj => by
      cases i with
      | none => rcases hj with hj | hj <;> cases hj
      | some s => exact hj
    have A : Achieves (loop.id + 1 + 1) p a₀ a₁ fun d => ∀ s, i = some s →
        d.ResolvedStmt globals fs ((Header.counting k i c u).scopeIn loop.id sc) false s := by
      cases i with
      | none =>
        obtain ⟨-, rfl⟩ := pure_ok h₁
        exact .nothing hready.consistent fun _ => nofun
      | some s =>
        refine (stmt_ok s (hsi s rfl).2 hi (hready'.left hcu.le fun _ _ => id) (hv.grows hgrow) hlex
          h₁).imp fun d hd => ?_
        rintro _ ⟨⟩
        exact resolvedStmt_init (hsi s rfl).1 hd
    have hready₁ := hready'.right (q := None) A hi.le fun j hj ho => by
      cases i with
      | none => exact ho
      | some s => exact absurd (hi.mem.1 ho.mem).2 (Nat.not_lt.2 hj.1)
    have B : Achieves p q a₁ a₂ fun d => ∀ e, c = some e →
        d.ResolvedExpr globals ((Header.counting k i c u).scopeIn loop.id sc) e := by
      cases c with
      | none =>
        obtain ⟨-, rfl⟩ := pure_ok h₂
        exact .nothing A.consistent fun _ => nofun
      | some e =>
        refine (expr_ok e (hsc' e rfl) hc (hready₁.left hu.le fun _ _ => id) h₂).imp fun d hd => ?_
        rintro _ ⟨⟩
        exact hd
    have hready₂ := hready₁.right B hc.le fun _ _ => id
    have C : Achieves q m a₂ a₃ fun d => ∀ s, u = some s →
        d.ResolvedStmt globals fs ((Header.counting k i c u).scopeIn loop.id sc) false s := by
      cases u with
      | none =>
        obtain ⟨-, rfl⟩ := pure_ok h₃
        exact .nothing B.consistent fun _ => nofun
      | some s =>
        have hnone : ∀ j, ¬ OwnOf s j := fun j => not_ownOf_update (hsu s rfl).1
        have hvars : s.vars = [] := List.eq_nil_iff_forall_not_mem.2 fun v hv' =>
          hnone v.2.id (.inl (List.mem_map_of_mem hv'))
        have hlexs : s.lexical?.toList = [] := List.eq_nil_iff_forall_not_mem.2 fun l hl =>
          hnone l.mark.id (.inr (List.mem_map_of_mem hl))
        refine (stmt_ok s (hsu s rfl).2 hu (hready₂.left (Nat.le_refl _) fun _ _ => False.elim)
          (by rw [hvars]; exact nofun) (by rw [hlexs]; exact nofun) h₃).imp fun d hd => ?_
        rintro _ ⟨⟩
        exact resolvedStmt_init (isInit_of_isUpdate (hsu s rfl).1) hd
    have ABC := A.seq (B.seq C hc.le hu.le) hi.le hcu.le
    refine ⟨hown, .of_achieves hgrow hloops hopens hready.stands.inFunction
      ((ABC.widen (Nat.le_succ _) (Nat.le_refl _)).imp fun d hd => ?_)⟩
    exact resolvedHeader_counting.2 hd
  | .forOf k x none e, loop, a, b, fs, sc, m, inLoop, own, hsrc, hn, ha, hv, h => by
    obtain ⟨hk, -, hn⟩ := hn.of_cons
    change @Eq Nat (loop.id + 1) k.id at hk
    have hle := hn.le
    rw [header] at h
    obtain ⟨_, a₁, h₁, h⟩ := bind_ok h
    obtain ⟨_, a₂, h₂, h⟩ := bind_ok h
    obtain ⟨rfl, rfl⟩ := pure_ok h
    have hready := ha.tail (q := None) fun i _ hi => by cases hi
    have A := expr_ok e hsrc hn (hready.tail fun _ _ => id) h₁
    have hclear := (hready.clear.mono (k := loop.id + 1) (l := loop.id + 2) (q := None)
      (Nat.le_refl _) hle fun _ _ => id).grows A.grows fun i hi hi' => Nat.not_lt.2 hi.1 hi'.2
    have B := (reference_ok A.consistent ⟨_, A.grows.scope? ha.known.choose_spec⟩
      (fun r hr he => hclear.references r hr (by rw [he, ← hk]; exact ⟨Nat.le_refl _, by omega⟩))
      h₂).widen (p := loop.id + 1) (q := loop.id + 2) (by omega) (by omega)
    refine ⟨rfl, .of_achieves (.refl a) rfl nofun ha.stands.inFunction
      ((A.seqBack B (by omega) hle).imp fun d hd => ?_)⟩
    simpa only [ResolvedHeader] using hd
  | .forOf k x (some .var) e, loop, a, b, fs, sc, m, inLoop, own, hsrc, hn, ha, hv, h => by
    obtain ⟨hk, -, hn⟩ := hn.of_cons
    change @Eq Nat (loop.id + 1) k.id at hk
    have hle := hn.le
    rw [header] at h
    obtain ⟨_, a₁, h₁, h⟩ := bind_ok h
    obtain ⟨_, a₂, h₂, h⟩ := bind_ok h
    obtain ⟨_, a₃, h₃, h⟩ := bind_ok h
    obtain ⟨rfl, rfl⟩ := pure_ok h
    obtain ⟨rfl, hpath⟩ := checkVarPath_ok h₂
    have hready := (ha.tail (q := fun i => i = k.id) fun i _ hi => by
      simpa [varIds, Header.vars] using hi)
    have A := expr_ok e hsrc hn (hready.tail fun i hi he => by
      have := hi.1
      rw [he] at this
      omega) h₁
    have hclear := (hready.clear.mono (k := loop.id + 1) (l := loop.id + 2)
      (Nat.le_refl _) hle fun _ _ => id).grows A.grows fun i hi hi' => Nat.not_lt.2 hi.1 hi'.2
    have hknown : ∃ s, a₁.scope? sc = some s := ⟨_, A.grows.scope? ha.known.choose_spec⟩
    have B := (reference_ok A.consistent hknown
      (fun r hr he => hclear.references r hr (by rw [he, ← hk]; exact ⟨Nat.le_refl _, by omega⟩))
      h₃).widen (p := loop.id + 1) (q := loop.id + 2) (by omega) (by omega)
    have hd : a₁.Declares fs sc k.id x .var := .of_vars A.consistent (hv.grows A.grows)
      (ha.stands.inFunction.grows A.grows) (by simp [Header.vars]) hpath
    have B' := B.after (.refl a₁) (Nat.le_refl _) fun d hbd hdc =>
      hd.grows hbd A.consistent hdc hknown
    refine ⟨rfl, .of_achieves (.refl a) rfl nofun ha.stands.inFunction
      ((A.seqBack B' (by omega) hle).imp fun d hd => ?_)⟩
    simpa only [ResolvedHeader] using hd
  | .forOf k x (some .letVar) e, loop, a, b, fs, sc, m, inLoop, own, hsrc, hn, ha, hv, h => by
    obtain ⟨hk, -, hn⟩ := hn.of_cons
    change @Eq Nat (loop.id + 1) k.id at hk
    rw [header] at h
    obtain ⟨_, a₁, h₁, h⟩ := bind_ok h
    obtain ⟨_, a₂, h₂, h⟩ := bind_ok h
    obtain ⟨rfl, rfl⟩ := pure_ok h
    have hready := ha.tail (q := None) fun i _ hi => by cases hi
    exact ⟨rfl, forOf_ok rfl ha hk hn.le
      (expr_ok e hsrc hn (hready.tail fun _ _ => id) h₁) h₂⟩
  | .forOf k x (some .const) e, loop, a, b, fs, sc, m, inLoop, own, hsrc, hn, ha, hv, h => by
    obtain ⟨hk, -, hn⟩ := hn.of_cons
    change @Eq Nat (loop.id + 1) k.id at hk
    rw [header] at h
    obtain ⟨_, a₁, h₁, h⟩ := bind_ok h
    obtain ⟨_, a₂, h₂, h⟩ := bind_ok h
    obtain ⟨rfl, rfl⟩ := pure_ok h
    have hready := ha.tail (q := None) fun i _ hi => by cases hi
    exact ⟨rfl, forOf_ok rfl ha hk hn.le
      (expr_ok e hsrc hn (hready.tail fun _ _ => id) h₁) h₂⟩
  | .unknown .., _, _, _, _, _, _, _, _, hsrc, _, _, _, _ => hsrc.elim

end

end Resolve

/-- To resolve a function is to open its scope and to resolve its statements. -/
theorem FunctionDef.resolve_steps {fn : FunctionDef Mark} {globals : List Name} {a : Scoping}
    (h : fn.resolve globals = .ok a) : ∃ a₁,
      Resolve.openFunction fn.mark fn.params fn.body none (.empty fn.mark.id) = .ok ((), a₁) ∧
      Resolve.stmts globals fn.mark.id false fn.body.statements a₁ = .ok ((), a) := by
  unfold FunctionDef.resolve at h
  cases hr : (do
    Resolve.openFunction fn.mark fn.params fn.body none
    Resolve.stmts globals fn.mark.id false fn.body.statements : Resolve Unit)
      (.empty fn.mark.id) with
  | error e =>
    simp only [StateT.run] at h
    rw [hr] at h
    cases h
  | ok r =>
    simp only [StateT.run] at h
    rw [hr] at h
    cases h
    obtain ⟨_, a₁, h₁, h₂⟩ := Resolve.bind_ok hr
    exact ⟨a₁, h₁, h₂⟩

/-- What the resolution of a function returns is consistent, and the names of the function are
    resolved in it. -/
theorem FunctionDef.resolve_resolved {fn : FunctionDef Mark} {globals : List Name} {a : Scoping}
    {m : Nat} {S : Prop} (hsrc : fn.Shaped S) (hn : Consecutive fn.mark.id fn.nodes m)
    (h : fn.resolve globals = .ok a) :
    a.Consistent ∧ a.OpensFunction fn.mark.id fn.params fn.body none ∧
      a.ResolvedStmts globals fn.mark.id fn.mark.id false fn.body.statements := by
  obtain ⟨a₁, h₁, h₂⟩ := FunctionDef.resolve_steps h
  obtain ⟨mark, name, params, k, ss⟩ := fn
  obtain ⟨-, -, hbody⟩ := hn.of_cons
  obtain ⟨-, -, hss⟩ := hbody.of_cons
  have hclear : (Scoping.empty mark.id).Clear mark.id m fun _ => False := by
    constructor <;> simp [Scoping.empty]
  obtain ⟨hgrow, hcons, hopens, hclear⟩ := Resolve.openFunction_ok (consistent_empty _) hbody hclear
    (by simp) h₁
  obtain ⟨t, ht, htk, -⟩ := hopens.scope
  have B := Resolve.stmts_ok (f := mark.id) (s := mark.id) ss hsrc hss
    ⟨hcons, ⟨.root ht htk, Nat.lt_succ_of_lt (Nat.lt_succ_self _)⟩, hclear⟩ hopens.vars
    hopens.lexicals h₂
  exact ⟨B.consistent, hopens.grows B.grows hcons B.consistent,
    B.lasts a (.refl a) B.consistent⟩

end FlatScope
