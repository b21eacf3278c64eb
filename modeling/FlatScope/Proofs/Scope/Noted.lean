import FlatScope.Proofs.Numbering
import FlatScope.Proofs.Scope.Resolved

/-!
# What is noted about a node

The stages behind the resolution ask for what it found out about a node: about a loop, a declaration
or a name. Wherever the names of some code are resolved, all this is noted about every node in it
(`Scoping.ResolvedStmts.noted`).
-/

namespace FlatScope

open Node

/-- What the resolution has noted about a node. -/
def Scoping.Noted (a : Scoping) : Node Mark → Prop
  | .stmt (.loop m h b) => ∃ sc, a.HasLoop m.id h b sc ∧ a.OpensLoop m.id h sc
  | .stmt (.declaration m n k _) | .header (.forOf m n (some k) _) =>
    ∃ fs sc, a.Declares fs sc m.id n k
  | .expr (.name m n) => ∃ globals sc w, a.Refers globals sc m.id n w
  | .stmt (.assignment _ (.name m n) _) | .header (.forOf m n none _) =>
    ∃ globals sc, a.Refers globals sc m.id n true
  | _ => True

namespace Scoping

variable {a : Scoping} {globals : List Name}

mutual

/-- Everything in a resolved expression is noted, the bodies of its functions included. -/
theorem ResolvedExpr.noted : ∀ {e : Expr Mark} {sc : ScopeId}, a.ResolvedExpr globals sc e →
    ∀ x ∈ e.nodes, a.Noted x
  | .literal .., sc, _, x, hx => by
    obtain rfl := List.mem_singleton.1 hx
    trivial
  | .name .., sc, h, x, hx => by
    obtain rfl := List.mem_singleton.1 hx
    rw [ResolvedExpr] at h
    exact ⟨globals, sc, _, h⟩
  | .unary _ _ e, sc, h, x, hx | .signalIs _ e _, sc, h, x, hx
  | .signalValue _ e, sc, h, x, hx => by
    rw [ResolvedExpr] at h
    rcases List.mem_cons.1 hx with rfl | hx
    · trivial
    · exact ResolvedExpr.noted h x hx
  | .binary _ _ l r, sc, h, x, hx | .index _ l r, sc, h, x, hx => by
    rw [ResolvedExpr] at h
    rcases List.mem_cons.1 hx with rfl | hx
    · trivial
    · rcases List.mem_append.1 hx with hx | hx
      · exact ResolvedExpr.noted h.1 x hx
      · exact ResolvedExpr.noted h.2 x hx
  | .call _ f args, sc, h, x, hx => by
    rw [ResolvedExpr] at h
    rcases List.mem_cons.1 hx with rfl | hx
    · trivial
    · rcases List.mem_append.1 hx with hx | hx
      · exact ResolvedExpr.noted h.1 x hx
      · exact ResolvedExprs.noted h.2 x hx
  | .array _ es, sc, h, x, hx => by
    rw [ResolvedExpr] at h
    rcases List.mem_cons.1 hx with rfl | hx
    · trivial
    · exact ResolvedExprs.noted h x hx
  | .function _ _ (.mk _ ss), sc, h, x, hx => by
    rw [ResolvedExpr] at h
    rcases List.mem_cons.1 hx with rfl | hx
    · trivial
    · rcases List.mem_cons.1 hx with rfl | hx
      · trivial
      · exact ResolvedStmts.noted h.2 x hx
  | .signal _ _ none, sc, _, x, hx => by
    obtain rfl := List.mem_singleton.1 hx
    trivial
  | .signal _ _ (some e), sc, h, x, hx => by
    rw [ResolvedExpr] at h
    rcases List.mem_cons.1 hx with rfl | hx
    · trivial
    · exact ResolvedExpr.noted h x hx
  | .unknown .., sc, h, _, _ => by
    rw [ResolvedExpr] at h
    exact h.elim

theorem ResolvedExprs.noted : ∀ {es : List (Expr Mark)} {sc : ScopeId},
    a.ResolvedExprs globals sc es → ∀ x ∈ Expr.nodesOfList es, a.Noted x
  | [], _, _, _, hx => by cases hx
  | e :: es, sc, h, x, hx => by
    rw [ResolvedExprs] at h
    rcases List.mem_append.1 hx with hx | hx
    · exact ResolvedExpr.noted h.1 x hx
    · exact ResolvedExprs.noted h.2 x hx

/-- Everything in a resolved block is noted. -/
theorem ResolvedBlock.noted : ∀ {b : Block Mark} {fs sc : ScopeId} {inLoop : Bool},
    a.ResolvedBlock globals fs sc inLoop b → ∀ x ∈ b.nodes, a.Noted x
  | .mk _ ss, fs, sc, inLoop, h, x, hx => by
    rw [ResolvedBlock] at h
    rcases List.mem_cons.1 hx with rfl | hx
    · trivial
    · exact ResolvedStmts.noted h.2 x hx

theorem ResolvedStmts.noted : ∀ {ss : List (Stmt Mark)} {fs sc : ScopeId} {inLoop : Bool},
    a.ResolvedStmts globals fs sc inLoop ss → ∀ x ∈ Stmt.nodesOfList ss, a.Noted x
  | [], _, _, _, _, _, hx => by cases hx
  | s :: ss, fs, sc, inLoop, h, x, hx => by
    rw [ResolvedStmts] at h
    rcases List.mem_append.1 hx with hx | hx
    · exact ResolvedStmt.noted h.1 x hx
    · exact ResolvedStmts.noted h.2 x hx

/-- Everything in a resolved statement is noted: its names, its declarations and its loops. -/
theorem ResolvedStmt.noted : ∀ {s : Stmt Mark} {fs sc : ScopeId} {inLoop : Bool},
    a.ResolvedStmt globals fs sc inLoop s → ∀ x ∈ s.nodes, a.Noted x
  | .declaration _ _ _ none, fs, sc, inLoop, h, x, hx => by
    rw [ResolvedStmt] at h
    obtain rfl := List.mem_singleton.1 hx
    exact ⟨fs, sc, h.1⟩
  | .declaration _ _ _ (some e), fs, sc, inLoop, h, x, hx => by
    rw [ResolvedStmt] at h
    rcases List.mem_cons.1 hx with rfl | hx
    · exact ⟨fs, sc, h.1⟩
    · exact ResolvedExpr.noted h.2 x hx
  | .assignment _ t v, fs, sc, inLoop, h, x, hx => by
    cases t with
    | name m n =>
      rw [ResolvedStmt] at h
      rcases List.mem_cons.1 hx with rfl | hx
      · exact ⟨globals, sc, h.1⟩
      · rcases List.mem_append.1 hx with hx | hx
        · obtain rfl := List.mem_singleton.1 hx
          exact ⟨globals, sc, _, h.1⟩
        · exact ResolvedExpr.noted h.2 x hx
    | index m b i =>
      rw [ResolvedStmt] at h
      rcases List.mem_cons.1 hx with rfl | hx
      · trivial
      · rcases List.mem_append.1 hx with hx | hx
        · rcases List.mem_cons.1 hx with rfl | hx
          · trivial
          · rcases List.mem_append.1 hx with hx | hx
            · exact ResolvedExpr.noted h.1 x hx
            · exact ResolvedExpr.noted h.2.1 x hx
        · exact ResolvedExpr.noted h.2.2 x hx
    | _ =>
      simp only [ResolvedStmt] at h
  | .expression _ e, fs, sc, inLoop, h, x, hx => by
    rw [ResolvedStmt] at h
    rcases List.mem_cons.1 hx with rfl | hx
    · trivial
    · exact ResolvedExpr.noted h x hx
  | .block b, fs, sc, inLoop, h, x, hx => by
    rw [ResolvedStmt] at h
    exact ResolvedBlock.noted h.2 x hx
  | .branch _ c t none, fs, sc, inLoop, h, x, hx => by
    rw [ResolvedStmt] at h
    rcases List.mem_cons.1 hx with rfl | hx
    · trivial
    · rcases List.mem_append.1 hx with hx | hx
      · exact ResolvedExpr.noted h.1 x hx
      · exact ResolvedBlock.noted h.2.2 x (by simpa using hx)
  | .branch _ c t (some e), fs, sc, inLoop, h, x, hx => by
    rw [ResolvedStmt] at h
    rcases List.mem_cons.1 hx with rfl | hx
    · trivial
    · rcases List.mem_append.1 hx with hx | hx
      · exact ResolvedExpr.noted h.1 x hx
      · rcases List.mem_append.1 hx with hx | hx
        · exact ResolvedBlock.noted h.2.2.1 x hx
        · exact ResolvedBlock.noted h.2.2.2.2 x hx
  | .loop _ hd b, fs, sc, inLoop, h, x, hx => by
    rw [ResolvedStmt] at h
    rcases List.mem_cons.1 hx with rfl | hx
    · exact ⟨sc, h.1, h.2.1⟩
    · rcases List.mem_append.1 hx with hx | hx
      · exact ResolvedHeader.noted h.2.2.1 x hx
      · exact ResolvedBlock.noted h.2.2.2 x hx
  | .ret _ none, fs, sc, inLoop, _, x, hx | .brk _, fs, sc, inLoop, _, x, hx
  | .cont _, fs, sc, inLoop, _, x, hx => by
    obtain rfl := List.mem_singleton.1 hx
    trivial
  | .ret _ (some e), fs, sc, inLoop, h, x, hx => by
    rw [ResolvedStmt] at h
    rcases List.mem_cons.1 hx with rfl | hx
    · trivial
    · exact ResolvedExpr.noted h x hx
  | .unknown .., _, _, _, h, _, _ => by
    rw [ResolvedStmt] at h
    exact h.elim

/-- Everything in a resolved loop header is noted. -/
theorem ResolvedHeader.noted : ∀ {h : Header Mark} {fs sc : ScopeId} {loop : NodeId},
    a.ResolvedHeader globals fs sc loop h → ∀ x ∈ h.nodes, a.Noted x
  | .whileTrue _ c, fs, sc, loop, h, x, hx => by
    rw [ResolvedHeader] at h
    rcases List.mem_cons.1 hx with rfl | hx
    · trivial
    · exact ResolvedExpr.noted h x hx
  | .counting m i c u, fs, sc, loop, h, x, hx => by
    obtain ⟨hi, hc, hu⟩ := resolvedHeader_counting.1 h
    rw [Header.nodes_counting] at hx
    rcases List.mem_cons.1 hx with rfl | hx
    · trivial
    rcases List.mem_append.1 hx with hx | hx
    · match i with
      | none => cases hx
      | some s => exact ResolvedStmt.noted (hi s rfl) x hx
    rcases List.mem_append.1 hx with hx | hx
    · match c with
      | none => cases hx
      | some e => exact ResolvedExpr.noted (hc e rfl) x hx
    · match u with
      | none => cases hx
      | some s => exact ResolvedStmt.noted (hu s rfl) x hx
  | .forOf m n none e, fs, sc, loop, h, x, hx => by
    rw [ResolvedHeader] at h
    rcases List.mem_cons.1 hx with rfl | hx
    · exact ⟨globals, sc, h.2⟩
    · exact ResolvedExpr.noted h.1 x hx
  | .forOf m n (some .var) e, fs, sc, loop, h, x, hx => by
    rw [ResolvedHeader] at h
    rcases List.mem_cons.1 hx with rfl | hx
    · exact ⟨fs, sc, h.2.1⟩
    · exact ResolvedExpr.noted h.1 x hx
  | .forOf m n (some .letVar) e, fs, sc, loop, h, x, hx
  | .forOf m n (some .const) e, fs, sc, loop, h, x, hx => by
    simp only [ResolvedHeader] at h
    rcases List.mem_cons.1 hx with rfl | hx
    · exact ⟨fs, loop, h.2⟩
    · exact ResolvedExpr.noted h.1 x hx
  | .unknown .., _, _, _, h, _, _ => by
    rw [ResolvedHeader] at h
    exact h.elim

end

end Scoping

end FlatScope
