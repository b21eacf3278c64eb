import FlatScope.Proofs.Lowering.Exits
import FlatScope.Proofs.Lowering.Flat
import FlatScope.Proofs.Run.Covered

/-!
# Lowered code copies before it is left

Code that is lowered into a wrapper which writes one parameter back covers every way out of the
wrapper (`Block.Covers`), from whatever block, loop or wrapper within it: an early exit is lowered
to the copy and the `return` of its signal, the statements behind the call of a wrapper hand its
signals on in the same way, and the code of the wrapper ends with the copy (`wrapperCode_covers`).
-/

namespace FlatScope

/-- Code is lowered into a wrapper that writes the parameter `q` back to `d`. -/
structure Region.WritesBack (r : Region) (d q : Name) : Prop where
  inWrapper : r.inWrapper = true
  writeBacks : r.writeBacks = [(d, q)]

variable {d q : Name} {copied : Prop}

/-! ## Code that is no image of source code -/

/-- A statement without a `return` of its own. -/
theorem covered_one {s : Stmt Span} (h : s.Covered d q False) : Stmt.AreCovered d q copied [s] :=
  Stmt.areCovered_of_forall (List.forall_mem_singleton.2 h)

/-- A `return` behind the copy. -/
theorem covered_exit {v : Option (Expr Span)} (hv : Expr.HandsOn v) (m : Span) :
    Stmt.AreCovered d q copied (writeBackStmts [(d, q)] ++ [.ret m v]) :=
  ⟨trivial, ⟨⟨_, _, _, rfl⟩, hv⟩, trivial⟩

/-- What a call within a wrapper does about a signal. -/
theorem covered_action {site : CallSite} (hs : site.inWrapper = true) (sig : Name) (m : Span)
    (e : Exit) : Stmt.AreCovered d q copied (actionStmts sig [(d, q)] m e (site.action e)) := by
  have hjump : Stmt.AreCovered d q copied (actionStmts sig [(d, q)] m e .jump) := by
    refine covered_one ?_
    split <;> trivial
  have hpropagate : Stmt.AreCovered d q copied (actionStmts sig [(d, q)] m e .propagate) :=
    covered_exit (v := some (.name m sig)) trivial m
  cases e with
  | ret =>
    rw [CallSite.action, if_pos hs]
    exact hpropagate
  | brk | cont =>
    rw [CallSite.action]
    split
    · exact hjump
    · exact hpropagate

/-- What stands behind the call of a wrapper within a wrapper. -/
theorem covered_handlers {site : CallSite} (hs : site.inWrapper = true) (sig : Name)
    (exits : List Exit) (m : Span) :
    Stmt.AreCovered d q copied (site.handlers sig exits [(d, q)] m) := by
  rw [CallSite.handlers]
  split
  · exact covered_one (s := propagateAll sig [(d, q)] m)
      (covered_exit (v := some (.name m sig)) trivial m)
  · refine Stmt.areCovered_of_forall fun s hs' => ?_
    obtain ⟨⟨e, action⟩, he, rfl⟩ := List.mem_map.1 hs'
    obtain ⟨e', -, he⟩ := List.mem_map.1 he
    obtain ⟨rfl, rfl⟩ := Prod.mk.inj he
    exact covered_action hs sig m e'

namespace Region.WritesBack

variable {r : Region} {m : Span}

theorem loopBody (h : r.WritesBack d q) : r.loopBody.WritesBack d q := ⟨h.inWrapper, h.writeBacks⟩

theorem loopHeader (h : r.WritesBack d q) (drivers : List (BindingId × Name)) :
    (r.loopHeader drivers).WritesBack d q := ⟨h.inWrapper, h.writeBacks⟩

/-- The call of a wrapper. -/
theorem calls (h : r.WritesBack d q) {exits : List Exit} {inLoop : Bool} {call : Expr Span}
    {out : List (Stmt Span)} {roles : Roles}
    (hc : r.Calls exits ⟨r.inWrapper, inLoop⟩ m call out roles) :
    Stmt.AreCovered d q copied out := by
  rw [Region.Calls] at hc
  split at hc
  · rw [hc.1]
    exact covered_one trivial
  · obtain ⟨sig, hc, -⟩ := hc
    obtain ⟨-, rfl⟩ := signalCall_ok hc
    rw [h.writeBacks]
    exact ⟨trivial, covered_handlers h.inWrapper sig exits m⟩

/-- An early exit of the wrapper. -/
theorem leave (h : r.WritesBack d q) {e : Exit} {v : Option (Expr Span)}
    (hv : v = none ∨ e = .ret) (plain : Stmt Span) :
    Stmt.AreCovered d q copied (Lower.leave r e v m plain) := by
  rw [Lower.leave, if_pos h.inWrapper, h.writeBacks]
  refine covered_exit ?_ m
  rcases hv with rfl | rfl
  · trivial
  · cases v <;> trivial

end Region.WritesBack

/-! ## Lowered code -/

namespace LoweringPlan

variable {p : LoweringPlan}

mutual

theorem LowersStmts.covered : ∀ {ss : List (Stmt Mark)} {r : Region} {sc : ScopeId}
    {out : List (Stmt Span)} {roles : Roles} {copied : Prop}, r.WritesBack d q →
    p.LowersStmts r sc ss out roles → Stmt.AreCovered d q copied out
  | [], r, sc, out, roles, copied, _, h => by
    rw [h.1]
    trivial
  | s :: ss, r, sc, out, roles, copied, hr, h => by
    obtain ⟨o, os, ρ, ρs, ho, hos, rfl, -⟩ := h
    exact (LowersStmt.covered hr ho).append (LowersStmts.covered hr hos)

theorem LowersBlock.covered : ∀ {b : Block Mark} {r : Region} {sc : ScopeId} {b' : Block Span}
    {roles : Roles}, r.WritesBack d q → p.LowersBlock r sc b b' roles → b'.Covered d q
  | .mk m ss, r, sc, b', roles, hr, h => by
    cases hw : p.analysis.wrapper? m.id with
    | none =>
      obtain ⟨out, hss, rfl⟩ := (lowersBlock_plain hw).1 h
      exact LowersStmts.covered hr hss
    | some w =>
      obtain ⟨out, inner, call, -, -, hc, rfl⟩ := (lowersBlock_wrapped hw).1 h
      exact hr.calls hc

theorem LowersStmt.covered : ∀ {s : Stmt Mark} {r : Region} {sc : ScopeId} {out : List (Stmt Span)}
    {roles : Roles} {copied : Prop}, r.WritesBack d q → p.LowersStmt r sc s out roles →
    Stmt.AreCovered d q copied out
  | .declaration m n k none, r, sc, out, roles, copied, _, h => by
    obtain ⟨b, -, h⟩ := h
    rcases h.cases with ⟨_, _, _, rfl, -⟩ | ⟨-, rfl⟩ | ⟨_, _, _, _, hv, -⟩
    · exact covered_one trivial
    · trivial
    · cases hv
  | .declaration m n k (some e), r, sc, out, roles, copied, _, h => by
    obtain ⟨b, e', -, -, h⟩ := h
    rcases h.cases with ⟨_, _, _, rfl, -⟩ | ⟨hv, -⟩ | ⟨_, _, _, _, -, rfl⟩
    · exact covered_one trivial
    · cases hv
    · exact covered_one trivial
  | .assignment m t v, r, sc, out, roles, copied, _, h => by
    obtain ⟨t', v', -, -, rfl, -⟩ := h
    exact covered_one trivial
  | .expression m e, r, sc, out, roles, copied, _, h => by
    obtain ⟨e', -, rfl, -⟩ := h
    exact covered_one trivial
  | .block b, r, sc, out, roles, copied, hr, h => by
    obtain ⟨⟨k, ss⟩, hb, rfl⟩ := h
    have hcov := LowersBlock.covered (b := b) hr hb
    split
    · exact Stmt.AreCovered.weaken hcov
    · exact covered_one hcov
  | .branch m e t none, r, sc, out, roles, copied, hr, h => by
    obtain ⟨e', t', -, ht, rfl⟩ := h
    exact covered_one (LowersBlock.covered (b := t) hr ht)
  | .branch m e t (some f), r, sc, out, roles, copied, hr, h => by
    obtain ⟨e', t', f', ρt, ρf, -, ht, hf, rfl, -⟩ := h
    exact covered_one ⟨LowersBlock.covered hr ht, LowersBlock.covered hr hf⟩
  | .loop m hd (.mk b ss), r, sc, out, roles, copied, hr, h => by
    cases hw : (p.loopPlan m.id).wrapper with
    | none =>
      obtain ⟨h', body, ρh, ρb, hh, hb, rfl, -⟩ := (lowersStmt_plainLoop hw).1 h
      have hbody : Stmt.AreCovered d q False body := LowersStmts.covered hr.loopBody hb
      exact covered_one ⟨LowersHeader.covered hr hh, hbody⟩
    | some w =>
      obtain ⟨drivers, h', body, ρh, ρb, -, hh, -, -, -, hcalls⟩ := (lowersStmt_wrappedLoop hw).1 h
      have hloop : ∀ {call}, Stmt.AreCovered d q False call →
          (Stmt.loop m.span h' (.mk m.span call)).Covered d q False := fun hcall =>
        ⟨LowersHeader.covered (hr.loopHeader drivers) hh, hcall⟩
      rw [CallsLoop] at hcalls
      split at hcalls
      · obtain ⟨name, call, ρc, hc, rfl, -⟩ := hcalls
        exact ⟨trivial, covered_one (hloop (hr.calls hc))⟩
      · obtain ⟨call, ρc, hc, rfl, -⟩ := hcalls
        exact covered_one (hloop (hr.calls hc))
  | .ret m none, r, sc, out, roles, copied, hr, h => by
    rw [h.1]
    exact hr.leave (.inl rfl) _
  | .ret m (some e), r, sc, out, roles, copied, hr, h => by
    obtain ⟨e', -, rfl, -⟩ := h
    exact hr.leave (.inr rfl) _
  | .brk m, r, sc, out, roles, copied, hr, h | .cont m, r, sc, out, roles, copied, hr, h => by
    rw [h.2]
    split
    · exact covered_one trivial
    · exact hr.leave (.inl rfl) _
  | .unknown .., _, _, _, _, _, _, h => by
    simp only [LowersStmt] at h

theorem LowersHeader.covered : ∀ {h : Header Mark} {r : Region} {sc : ScopeId} {h' : Header Span}
    {roles : Roles}, r.WritesBack d q → p.LowersHeader r sc h h' roles → h'.Covered d q
  | .whileTrue .., r, sc, h', roles, _, h => by
    obtain ⟨c', -, rfl, -⟩ := h
    trivial
  | .counting m i c u, r, sc, h', roles, hr, h => by
    obtain ⟨i', c', u', ρi, ρu, hi, -, hu, rfl, -⟩ := lowersHeader_counting.1 h
    refine Header.covered_counting.2 ⟨fun o ho => ?_, fun o ho => ?_⟩ <;> subst ho
    · cases i with
      | none => cases (hi.1 rfl).1
      | some s => exact (LowersStmt.covered hr (hi.2 s rfl)).1
    · cases u with
      | none => cases (hu.1 rfl).1
      | some s => exact (LowersStmt.covered hr (hu.2 s rfl)).1
  | .forOf m n k e, r, sc, h', roles, _, h => by
    obtain ⟨e', n', k', -, -, rfl⟩ := h
    trivial
  | .unknown .., _, _, _, _, _, h => by
    simp only [LowersHeader] at h

end

end LoweringPlan

/-- The code of a wrapper that writes a parameter back covers every way out. -/
theorem wrapperCode_covers {ss : List (Stmt Span)} (h : Stmt.AreCovered d q False ss) (w : Wrapper)
    (m : Span) : (Block.mk m (Lower.wrapperCode w [(d, q)] ss)).Covers d q where
  returns := h.append (by
    split
    · exact covered_one trivial
    · exact covered_exit (v := some (.signal .unknown none none)) trivial .unknown)
  ends := by
    refine ⟨ss, _, ⟨.unknown, .unknown, .unknown, rfl⟩, ?_⟩
    rw [Block.statements, Lower.wrapperCode]
    split
    · exact .inl rfl
    · exact .inr ⟨_, _, rfl⟩

end FlatScope
