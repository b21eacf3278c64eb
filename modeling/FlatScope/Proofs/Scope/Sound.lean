import FlatScope.Proofs.Scope.Agreement
import FlatScope.Scope.Usage

/-!
# Resolved code is well-scoped

Where the names in a piece of code are resolved, and nothing is assigned to a constant, the code
keeps to the rules in every surroundings that agree with its scope
(`Scoping.ResolvedStmts.wellScoped` and its companions). The proof is by recursion over the code:
the surroundings of its parts agree with the scopes that are opened for them.
-/

namespace FlatScope

namespace Scoping

/-- Nothing is assigned to a constant. -/
def KeepsConstants (a : Scoping) : Prop := ∀ r ∈ a.references, a.violated? r = none

variable {a : Scoping} {globals : List Name} {fs sc : ScopeId} {c : Surroundings}

/-! ## Names -/

/-- A name with a reference is known where it stands. -/
theorem Refers.knows {m : NodeId} {n : Name} {w : Bool} (h : a.Refers globals sc m n w)
    (hc : a.Agrees fs sc c) : c.Knows globals n := by
  obtain ⟨r, -, -, -, -, -, hglobal⟩ := h
  by_cases hn : a.lookup? sc n = none
  · exact .inr (hglobal hn).1
  · exact .inl (hc.mem_names.2 hn)

/-- Analysis that kept the constants let an assignment pass only where it may stand. -/
theorem Refers.mayAssign {m : NodeId} {n : Name} (h : a.Refers globals sc m n true)
    (hc : a.Agrees fs sc c) (ha : a.Consistent) (hk : a.KeepsConstants) : c.MayAssign n := by
  intro hn
  obtain ⟨r, hr, -, -, hw, hb, -⟩ := h
  rw [← hc.means n] at hn
  obtain ⟨d, hd, hconst⟩ := Option.map_eq_some_iff.1 hn
  have hviolated := hk r (List.mem_of_find?_eq_some hr)
  rw [violated?, if_pos hw, hb, hd, Option.map_some, Option.bind_some,
    ha.binding?_of_mem (ha.of_lookup? hd).1, Option.filter_some_eq_none] at hviolated
  simp [hconst] at hviolated

/-- No block or header between a `var` and its function declares the name of the `var`. -/
theorem Declares.not_inner {m : NodeId} {n : Name} (h : a.Declares fs sc m n .var)
    (hc : a.Agrees fs sc c) (ha : a.Consistent) : n ∉ c.inner := by
  intro hn
  obtain ⟨d, hd⟩ := (hc.below n).1 hn
  obtain ⟨hlook, hne⟩ := hc.inFunction.of_below ha hd
  obtain ⟨b, -, hb, hscope, -⟩ := h
  obtain rfl : b = d := Option.some.inj (hb.symm.trans hlook)
  exact hne hscope

/-- The scope of a block has each of its lexical names once. -/
theorem OpensBlock.distinct {b : Block Mark} (h : a.OpensBlock b sc) (ha : a.Consistent) :
    (b.lexicals.map (·.name)).Nodup := by
  by_cases hl : b.lexicals = []
  · rw [hl]
    exact .nil
  · obtain ⟨s, hs, -, -, hnames⟩ := (h.scope hl).2
    exact hnames ▸ ha.distinct s (mem_of_scope? hs).1

/-- In a function, the scopes agree with the surroundings that its parameters and its body give. -/
theorem OpensFunction.agrees_inner {id : ScopeId} {ps : List Name} {b : Block Mark}
    (h : a.OpensFunction id ps b (some sc)) (hc : a.Agrees fs sc c) (ha : a.Consistent) :
    a.Agrees id id (c.function ps b) :=
  h.agrees ha hc.means

/-! ## Code -/

mutual

/-- A resolved expression is well scoped in the surroundings that its scope agrees with. -/
theorem ResolvedExpr.wellScoped (ha : a.Consistent) (hk : a.KeepsConstants) :
    ∀ {e : Expr Mark} {fs sc : ScopeId} {c : Surroundings},
    a.ResolvedExpr globals sc e → a.Agrees fs sc c → e.WellScoped globals c
  | .literal .., _, _, _, _, _ | .signal _ _ none, _, _, _, _, _ => by simp only [Expr.WellScoped]
  | .name .., fs, sc, c, h, hc => by
    rw [ResolvedExpr] at h
    rw [Expr.WellScoped]
    exact h.knows hc
  | .unary _ _ e, fs, sc, c, h, hc | .signal _ _ (some e), fs, sc, c, h, hc
  | .signalIs _ e _, fs, sc, c, h, hc | .signalValue _ e, fs, sc, c, h, hc => by
    rw [ResolvedExpr] at h
    rw [Expr.WellScoped]
    exact ResolvedExpr.wellScoped ha hk h hc
  | .binary _ _ l r, fs, sc, c, h, hc | .index _ l r, fs, sc, c, h, hc => by
    rw [ResolvedExpr] at h
    rw [Expr.WellScoped]
    exact ⟨ResolvedExpr.wellScoped ha hk h.1 hc, ResolvedExpr.wellScoped ha hk h.2 hc⟩
  | .call _ f args, fs, sc, c, h, hc => by
    rw [ResolvedExpr] at h
    rw [Expr.WellScoped]
    exact ⟨ResolvedExpr.wellScoped ha hk h.1 hc, ResolvedExprs.wellScoped ha hk h.2 hc⟩
  | .array _ es, fs, sc, c, h, hc => by
    rw [ResolvedExpr] at h
    rw [Expr.WellScoped]
    exact ResolvedExprs.wellScoped ha hk h hc
  | .function _ ps (.mk m ss), fs, sc, c, h, hc => by
    rw [ResolvedExpr] at h
    rw [Expr.WellScoped]
    exact ⟨h.1.distinctNames ha, ResolvedStmts.wellScoped ha hk h.2 (h.1.agrees_inner hc ha)
      fun hf => absurd hf Bool.false_ne_true⟩
  | .unknown .., _, _, _, h, _ => by
    rw [ResolvedExpr] at h
    exact h.elim

theorem ResolvedExprs.wellScoped (ha : a.Consistent) (hk : a.KeepsConstants) :
    ∀ {es : List (Expr Mark)} {fs sc : ScopeId} {c : Surroundings},
    a.ResolvedExprs globals sc es → a.Agrees fs sc c → Expr.AreWellScoped globals c es
  | [], _, _, _, _, _ => by simp only [Expr.AreWellScoped]
  | e :: es, fs, sc, c, h, hc => by
    rw [ResolvedExprs] at h
    rw [Expr.AreWellScoped]
    exact ⟨ResolvedExpr.wellScoped ha hk h.1 hc, ResolvedExprs.wellScoped ha hk h.2 hc⟩

/-- A resolved block is well scoped, in a loop if it was resolved in one. -/
theorem ResolvedBlock.wellScoped (ha : a.Consistent) (hk : a.KeepsConstants) :
    ∀ {b : Block Mark} {fs sc : ScopeId} {inLoop : Bool} {c : Surroundings},
    a.ResolvedBlock globals fs sc inLoop b → a.Agrees fs sc c →
    (inLoop → c.inLoop) → b.WellScoped globals c
  | .mk m ss, fs, sc, inLoop, c, h, hc, hin => by
    rw [ResolvedBlock] at h
    rw [Block.WellScoped]
    exact ⟨h.1.distinct ha, ResolvedStmts.wellScoped ha hk h.2 (hc.block ha h.1) hin⟩

theorem ResolvedStmts.wellScoped (ha : a.Consistent) (hk : a.KeepsConstants) :
    ∀ {ss : List (Stmt Mark)} {fs sc : ScopeId} {inLoop : Bool} {c : Surroundings},
    a.ResolvedStmts globals fs sc inLoop ss → a.Agrees fs sc c →
    (inLoop → c.inLoop) → Stmt.AreWellScoped globals c ss
  | [], _, _, _, _, _, _, _ => by simp only [Stmt.AreWellScoped]
  | s :: ss, fs, sc, inLoop, c, h, hc, hin => by
    rw [ResolvedStmts] at h
    rw [Stmt.AreWellScoped]
    exact ⟨ResolvedStmt.wellScoped ha hk h.1 hc hin, ResolvedStmts.wellScoped ha hk h.2 hc hin⟩

/-- A resolved statement is well scoped, in a loop if it was resolved in one. -/
theorem ResolvedStmt.wellScoped (ha : a.Consistent) (hk : a.KeepsConstants) :
    ∀ {s : Stmt Mark} {fs sc : ScopeId} {inLoop : Bool} {c : Surroundings},
    a.ResolvedStmt globals fs sc inLoop s → a.Agrees fs sc c →
    (inLoop → c.inLoop) → s.WellScoped globals c
  | .declaration _ n k none, fs, sc, inLoop, c, h, hc, hin => by
    rw [ResolvedStmt] at h
    rw [Stmt.WellScoped]
    exact ⟨fun hvar => (hvar ▸ h.1).not_inner hc ha, h.2⟩
  | .declaration _ n k (some e), fs, sc, inLoop, c, h, hc, hin => by
    rw [ResolvedStmt] at h
    rw [Stmt.WellScoped]
    exact ⟨fun hvar => (hvar ▸ h.1).not_inner hc ha, ResolvedExpr.wellScoped ha hk h.2 hc⟩
  | .assignment _ t v, fs, sc, inLoop, c, h, hc, hin => by
    cases t with
    | name m n =>
      rw [ResolvedStmt] at h
      rw [Stmt.WellScoped]
      exact ⟨h.1.knows hc, h.1.mayAssign hc ha hk, ResolvedExpr.wellScoped ha hk h.2 hc⟩
    | index m b i =>
      rw [ResolvedStmt] at h
      rw [Stmt.WellScoped]
      exact ⟨ResolvedExpr.wellScoped ha hk h.1 hc, ResolvedExpr.wellScoped ha hk h.2.1 hc,
        ResolvedExpr.wellScoped ha hk h.2.2 hc⟩
    | _ => simp only [ResolvedStmt] at h
  | .expression _ e, fs, sc, inLoop, c, h, hc, hin
  | .ret _ (some e), fs, sc, inLoop, c, h, hc, hin => by
    rw [ResolvedStmt] at h
    rw [Stmt.WellScoped]
    exact ResolvedExpr.wellScoped ha hk h hc
  | .block b, fs, sc, inLoop, c, h, hc, hin => by
    rw [ResolvedStmt] at h
    rw [Stmt.WellScoped]
    exact ResolvedBlock.wellScoped ha hk h.2 hc hin
  | .branch _ e t none, fs, sc, inLoop, c, h, hc, hin => by
    rw [ResolvedStmt] at h
    rw [Stmt.WellScoped]
    exact ⟨ResolvedExpr.wellScoped ha hk h.1 hc, ResolvedBlock.wellScoped ha hk h.2.2 hc hin⟩
  | .branch _ e t (some f), fs, sc, inLoop, c, h, hc, hin => by
    rw [ResolvedStmt] at h
    rw [Stmt.WellScoped]
    exact ⟨ResolvedExpr.wellScoped ha hk h.1 hc, ResolvedBlock.wellScoped ha hk h.2.2.1 hc hin,
      ResolvedBlock.wellScoped ha hk h.2.2.2.2 hc hin⟩
  | .loop m hd b, fs, sc, inLoop, c, h, hc, hin => by
    rw [ResolvedStmt] at h
    rw [Stmt.WellScoped]
    exact ⟨ResolvedHeader.wellScoped ha hk h.2.2.1 h.2.1 hc,
      ResolvedBlock.wellScoped ha hk h.2.2.2 (hc.header ha h.2.1).loopBody fun _ => rfl⟩
  | .ret _ none, _, _, _, _, _, _, _ => by simp only [Stmt.WellScoped]
  | .brk _, fs, sc, inLoop, c, h, hc, hin | .cont _, fs, sc, inLoop, c, h, hc, hin => by
    rw [ResolvedStmt] at h
    rw [Stmt.WellScoped]
    exact hin h
  | .unknown .., _, _, _, _, h, _, _ => by
    rw [ResolvedStmt] at h
    exact h.elim

/-- A resolved header is well scoped in the scope that the loop opened for it. -/
theorem ResolvedHeader.wellScoped (ha : a.Consistent) (hk : a.KeepsConstants) :
    ∀ {h : Header Mark} {fs sc : ScopeId} {loop : NodeId} {c : Surroundings},
    a.ResolvedHeader globals fs sc loop h → a.OpensLoop loop h sc →
    a.Agrees fs sc c → h.WellScoped globals c
  | .whileTrue _ e, fs, sc, loop, c, h, _, hc => by
    rw [ResolvedHeader] at h
    rw [Header.WellScoped]
    exact ResolvedExpr.wellScoped ha hk h hc
  | .counting m i e u, fs, sc, loop, c, h, ho, hc => by
    obtain ⟨hi, he, hu⟩ := resolvedHeader_counting.1 h
    have hc' := hc.header ha ho
    rw [Header.wellScoped_counting]
    refine ⟨?_, ?_, ?_⟩
    · match i with
      | none => exact nofun
      | some s =>
        rintro _ ⟨⟩
        exact ResolvedStmt.wellScoped ha hk (hi s rfl) hc' fun hf => absurd hf Bool.false_ne_true
    · match e with
      | none => exact nofun
      | some x =>
        rintro _ ⟨⟩
        exact ResolvedExpr.wellScoped ha hk (he x rfl) hc'
    · match u with
      | none => exact nofun
      | some s =>
        rintro _ ⟨⟩
        exact ResolvedStmt.wellScoped ha hk (hu s rfl) hc' fun hf => absurd hf Bool.false_ne_true
  | .forOf _ n none e, fs, sc, loop, c, h, _, hc => by
    rw [ResolvedHeader] at h
    rw [Header.WellScoped]
    exact ⟨ResolvedExpr.wellScoped ha hk h.1 hc, h.2.knows hc, h.2.mayAssign hc ha hk⟩
  | .forOf _ n (some .var) e, fs, sc, loop, c, h, _, hc => by
    rw [ResolvedHeader] at h
    rw [Header.WellScoped]
    exact ⟨ResolvedExpr.wellScoped ha hk h.1 hc, fun _ => h.2.1.not_inner hc ha⟩
  | .forOf _ n (some .letVar) e, fs, sc, loop, c, h, _, hc
  | .forOf _ n (some .const) e, fs, sc, loop, c, h, _, hc => by
    simp only [ResolvedHeader] at h
    rw [Header.WellScoped]
    exact ⟨ResolvedExpr.wellScoped ha hk h.1 hc, fun hvar => by cases hvar⟩
  | .unknown .., _, _, _, _, h, _, _ => by
    rw [ResolvedHeader] at h
    exact h.elim

end

end Scoping

end FlatScope
