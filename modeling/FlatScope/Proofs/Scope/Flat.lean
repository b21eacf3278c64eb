import FlatScope.Proofs.Flat
import FlatScope.Proofs.Scope.Resolve
import FlatScope.Proofs.Scope.WellScoped

/-!
# Resolving flat code

The resolution of flat code opens the scopes of functions and no others
(`FunctionDef.resolve_flat`), and it ends only if the code holds no unknown nodes. `StaysFlat` says
so of a step of the resolution, and what holds of its result; the steps are put together as the
resolution puts them together.
-/

namespace FlatScope

namespace Scoping

/-- Every scope is that of a function. -/
structure Flat (a : Scoping) : Prop where
  functions : ∀ s ∈ a.scopes, s.kind = .function
  blocks : a.blockScopes = []
  loops : ∀ l ∈ a.loops, l.header = none ∧ l.body = none

/-- At the beginning there is no scope. -/
theorem flat_empty (root : ScopeId) : (empty root).Flat where
  functions := by simp [empty]
  blocks := rfl
  loops := by simp [empty]

variable {a : Scoping}

/-- A new binding opens no scope. -/
theorem Flat.addBinding (h : a.Flat) (sc : ScopeId) (n : Name) (o : Origin) (span : Span) :
    (a.addBinding sc n o span).Flat where
  functions s hs := by
    obtain ⟨t, ht, rfl⟩ := List.mem_map.1 hs
    split
    · exact h.functions t ht
    · exact h.functions t ht
  blocks := h.blocks
  loops := h.loops

/-- To note a declaration opens no scope. -/
theorem Flat.addDeclaration (h : a.Flat) (node : Option NodeId) (i : BindingId) :
    (a.addDeclaration node i).Flat := by
  cases node with
  | none => exact h
  | some k => exact ⟨h.functions, h.blocks, h.loops⟩

/-- The scope of a function is allowed. -/
theorem Flat.addFunction (h : a.Flat) (id : ScopeId) (parent : Option ScopeId) :
    (a.addScope id .function parent).Flat where
  functions s hs := by
    rcases List.mem_append.1 hs with hs | hs
    · exact h.functions s hs
    · rw [List.mem_singleton.1 hs]
  blocks := h.blocks
  loops := h.loops

/-- A loop without scopes may be noted. -/
theorem Flat.addLoop (h : a.Flat) (loop : NodeId) (sc : ScopeId) :
    (a.addLoop ⟨loop, none, none, sc⟩).Flat where
  functions := h.functions
  blocks := h.blocks
  loops l hl := by
    rcases List.mem_append.1 hl with hl | hl
    · exact h.loops l hl
    · rw [List.mem_singleton.1 hl]
      exact ⟨rfl, rfl⟩

end Scoping

namespace Resolve

variable {α β : Type}

/-- Where the step ends that starts from scopes of functions, it leaves only such, and `φ` holds of
    its result. -/
structure StaysFlat (x : Resolve α) (φ : α → Prop) : Prop where
  run : ∀ {a b : Scoping} {y : α}, a.Flat → x a = .ok (y, b) → b.Flat ∧ φ y

namespace StaysFlat

variable {x : Resolve α} {f : α → Resolve β} {φ φ' : α → Prop} {ψ : β → Prop}

/-- One step after the other. -/
theorem bind (hx : StaysFlat x φ) (hf : ∀ y, φ y → StaysFlat (f y) ψ) :
    StaysFlat (x >>= f) ψ := by
  refine ⟨fun ha h => ?_⟩
  obtain ⟨y, c, hy, hz⟩ := bind_ok h
  obtain ⟨hc, hφ⟩ := hx.run ha hy
  exact (hf y hφ).run hc hz

/-- A result without a step. -/
theorem pure {y : α} (hy : φ y) : StaysFlat (pure y) φ := by
  refine ⟨fun ha h => ?_⟩
  obtain ⟨rfl, rfl⟩ := pure_ok h
  exact ⟨ha, hy⟩

/-- What is rejected has no result. -/
theorem reject (cause : Cause) (span : Span) : StaysFlat (reject cause span) φ :=
  ⟨fun _ h => absurd h reject_ne⟩

/-- The same step, with a weaker claim about its result. -/
theorem imp (hx : StaysFlat x φ) (h : ∀ y, φ y → φ' y) : StaysFlat x φ' :=
  ⟨fun ha hy => ⟨(hx.run ha hy).1, h _ (hx.run ha hy).2⟩⟩

/-- A change that keeps to the scopes of functions. -/
theorem modify {g : Scoping → Scoping} (hg : ∀ a, a.Flat → (g a).Flat) :
    StaysFlat (modify g : Resolve Unit) fun _ => True := by
  refine ⟨fun {a b u} ha h => ?_⟩
  rw [← modify_ok h]
  exact ⟨hg a ha, trivial⟩

/-- The same step for each element of a list. -/
theorem forM {ι : Type} {g : ι → Resolve Unit} (hg : ∀ i, StaysFlat (g i) fun _ => True) :
    ∀ is : List ι, StaysFlat (is.forM g) fun _ => True
  | [] => .pure trivial
  | i :: is => (hg i).bind fun _ _ => forM hg is

end StaysFlat

/-! ## Names -/

/-- A declaration opens no scope. -/
theorem declare_flat (sc : ScopeId) (n : Name) (o : Origin) (span : Span) (node : Option NodeId) :
    StaysFlat (declare sc n o span node) fun _ => True := by
  refine ⟨fun {a b u} ha h => ?_⟩
  obtain ⟨_, _, hget, h⟩ := bind_ok h
  cases hget
  cases hown : a.ownBinding? sc n with
  | some d =>
    simp only [hown] at h
    split at h
    · cases h
      exact ⟨ha.addDeclaration .., trivial⟩
    · exact absurd h reject_ne
  | none =>
    simp only [hown] at h
    cases h
    exact ⟨(ha.addBinding ..).addDeclaration .., trivial⟩

/-- A use of a name opens no scope. -/
theorem reference_flat (globals : List Name) (sc : ScopeId) (n : Name) (m : Mark) (w : Bool) :
    StaysFlat (reference globals sc n m w) fun _ => True := by
  refine ⟨fun {a b u} ha h => ?_⟩
  obtain ⟨_, _, hget, h⟩ := bind_ok h
  cases hget
  dsimp only at h
  split at h
  · exact absurd h reject_ne
  · cases h
    exact ⟨⟨ha.functions, ha.blocks, ha.loops⟩, trivial⟩

/-- Looking up the path of a `var` changes nothing. -/
theorem checkVarPath_flat (sc : ScopeId) (n : Name) (span : Span) :
    StaysFlat (checkVarPath sc n span) fun _ => True := by
  refine ⟨fun {a b u} ha h => ?_⟩
  obtain ⟨rfl, -⟩ := checkVarPath_ok h
  exact ⟨ha, trivial⟩

/-- Checking a jump changes nothing. -/
theorem checkJump_flat (inLoop : Bool) (e : Exit) (span : Span) :
    StaysFlat (checkJump inLoop e span) fun _ => True := by
  cases inLoop with
  | true => exact .pure trivial
  | false => exact .reject ..

/-- A function opens the scope of a function. -/
theorem openFunction_flat (m : Mark) (ps : List Name) (b : Block Mark) (parent : Option ScopeId) :
    StaysFlat (openFunction m ps b parent) fun _ => True :=
  (StaysFlat.modify fun _ ha => ha.addFunction ..).bind fun _ _ =>
    (StaysFlat.forM (fun _ => declare_flat ..) _).bind fun _ _ =>
      (StaysFlat.forM (fun _ => declare_flat ..) _).bind fun _ _ =>
        StaysFlat.forM (fun _ => declare_flat ..) _

/-- A flat block opens no scope. -/
theorem openBlock_flat {b : Block Mark} (h : b.IsFlat) (sc : ScopeId) :
    StaysFlat (openBlock b sc) (· = none) := by
  rw [openBlock, h.lexicals]
  exact .pure rfl

/-- A flat header declares nothing of its own. -/
theorem headerLexical?_flat {h : Header Mark} (hh : h.IsFlat) : headerLexical? h = none := by
  cases h with
  | counting m i c u =>
    cases i with
    | none => rfl
    | some s => exact (((Header.isFlat_counting.1 hh).1 s rfl).2).lexical?
  | forOf m n k e =>
    rw [Header.IsFlat] at hh
    rcases hh.1 with rfl | rfl <;> rfl
  | _ => rfl

/-! ## Code -/

variable (globals : List Name)

mutual

/-- Resolving a flat expression opens the scopes of functions only. -/
theorem expr_flat : ∀ (e : Expr Mark) (sc : ScopeId), e.IsFlat →
    StaysFlat (expr globals sc e) fun _ => e.Shaped True
  | .literal .., sc, _ | .signal _ _ none, sc, _ => by
    rw [expr]
    exact .pure trivial
  | .name .., sc, _ => by
    rw [expr]
    exact reference_flat ..
  | .unary _ _ e, sc, h => by
    rw [Expr.IsFlat] at h
    rw [expr]
    exact expr_flat e sc h
  | .signal _ _ (some e), sc, h | .signalIs _ e _, sc, h | .signalValue _ e, sc, h => by
    rw [Expr.IsFlat] at h
    rw [expr]
    exact (expr_flat e sc h).imp fun _ he => ⟨trivial, he⟩
  | .binary _ _ l r, sc, h | .index _ l r, sc, h => by
    rw [Expr.IsFlat] at h
    rw [expr]
    exact (expr_flat l sc h.1).bind fun _ hl => (expr_flat r sc h.2).imp fun _ hr => ⟨hl, hr⟩
  | .call _ f args, sc, h => by
    rw [Expr.IsFlat] at h
    rw [expr]
    exact (expr_flat f sc h.1).bind fun _ hf => (exprs_flat args sc h.2).imp fun _ ha => ⟨hf, ha⟩
  | .array _ es, sc, h => by
    rw [Expr.IsFlat] at h
    rw [expr]
    exact exprs_flat es sc h
  | .function m ps (.mk b ss), sc, h => by
    rw [Expr.IsFlat] at h
    rw [expr]
    exact (openFunction_flat ..).bind fun _ _ => stmts_flat ss m.id false h
  | .unknown .., sc, _ => by
    rw [expr]
    exact .reject ..

/-- Resolving flat expressions opens the scopes of functions only. -/
theorem exprs_flat : ∀ (es : List (Expr Mark)) (sc : ScopeId), Expr.AreFlat es →
    StaysFlat (exprs globals sc es) fun _ => Expr.ShapedList True es
  | [], sc, _ => by
    rw [exprs]
    exact .pure trivial
  | e :: es, sc, h => by
    rw [Expr.AreFlat] at h
    rw [exprs]
    exact (expr_flat e sc h.1).bind fun _ he => (exprs_flat es sc h.2).imp fun _ hes => ⟨he, hes⟩

/-- Resolving a flat block opens the scopes of functions only, and the block has none of its own. -/
theorem block_flat : ∀ (b : Block Mark) (sc : ScopeId) (inLoop : Bool), b.IsFlat →
    StaysFlat (block globals sc inLoop b) fun own => own = none ∧ b.Shaped True
  | .mk m ss, sc, inLoop, h => by
    have hb := h
    rw [Block.IsFlat] at h
    rw [block]
    exact (openBlock_flat hb sc).bind fun own hown =>
      (stmts_flat ss _ inLoop h).bind fun _ hss => .pure ⟨hown, hss⟩

/-- Resolving flat statements opens the scopes of functions only. -/
theorem stmts_flat : ∀ (ss : List (Stmt Mark)) (sc : ScopeId) (inLoop : Bool), Stmt.AreFlat ss →
    StaysFlat (stmts globals sc inLoop ss) fun _ => Stmt.ShapedList True ss
  | [], sc, inLoop, _ => by
    rw [stmts]
    exact .pure trivial
  | s :: ss, sc, inLoop, h => by
    rw [Stmt.AreFlat] at h
    rw [stmts]
    exact (stmt_flat s sc inLoop h.1).bind fun _ hs =>
      (stmts_flat ss sc inLoop h.2).imp fun _ hss => ⟨hs, hss⟩

/-- Resolving a flat statement opens the scopes of functions only. -/
theorem stmt_flat : ∀ (s : Stmt Mark) (sc : ScopeId) (inLoop : Bool), s.IsFlat →
    StaysFlat (stmt globals sc inLoop s) fun _ => s.Shaped True
  | .declaration m n k none, sc, inLoop, h => by
    obtain rfl : k = .var := by simpa only [Stmt.IsFlat] using h
    rw [stmt_declaration]
    exact (checkVarPath_flat ..).bind fun _ _ => .pure trivial
  | .declaration m n k (some e), sc, inLoop, h => by
    rw [Stmt.IsFlat] at h
    obtain ⟨rfl, he⟩ := h
    rw [stmt_declaration]
    exact (checkVarPath_flat ..).bind fun _ _ => expr_flat e sc he
  | .assignment m t v, sc, inLoop, h => by
    rw [Stmt.IsFlat] at h
    cases t with
    | name b n =>
      rw [stmt]
      exact (reference_flat ..).bind fun _ _ => (expr_flat v sc h.2).imp fun _ hv => ⟨trivial, hv⟩
    | index k b i =>
      obtain ⟨⟨hb, hi⟩, hv⟩ := h
      rw [stmt]
      exact (expr_flat b sc hb).bind fun _ hb => (expr_flat i sc hi).bind fun _ hi =>
        (expr_flat v sc hv).imp fun _ hv => ⟨⟨hb, hi⟩, hv⟩
    | _ =>
      simp only [stmt]
      exact (StaysFlat.reject (φ := fun _ => False) ..).bind fun _ hf => hf.elim
  | .expression _ e, sc, inLoop, h => by
    rw [Stmt.IsFlat] at h
    rw [stmt]
    exact expr_flat e sc h
  | .block b, sc, inLoop, h => by
    rw [Stmt.IsFlat] at h
    rw [stmt]
    exact (block_flat b sc inLoop h).bind fun _ hb => .pure hb.2
  | .branch _ c t none, sc, inLoop, h => by
    rw [Stmt.IsFlat] at h
    rw [stmt]
    exact (expr_flat c sc h.1).bind fun _ hc => (block_flat t sc inLoop h.2).bind fun _ ht =>
      .pure ⟨hc, ht.2⟩
  | .branch _ c t (some e), sc, inLoop, h => by
    rw [Stmt.IsFlat] at h
    rw [stmt]
    exact (expr_flat c sc h.1).bind fun _ hc => (block_flat t sc inLoop h.2.1).bind fun _ ht =>
      (block_flat e sc inLoop h.2.2).bind fun _ he => .pure ⟨hc, ht.2, he.2⟩
  | .loop m hd b, sc, inLoop, h => by
    rw [Stmt.IsFlat] at h
    rw [stmt]
    refine (header_flat hd sc inLoop m h.1).bind fun inner hh =>
      (block_flat b _ true h.2).bind fun body hb => ?_
    obtain ⟨rfl, hhd⟩ := hh
    obtain ⟨rfl, hb⟩ := hb
    exact (StaysFlat.modify fun _ ha => ha.addLoop ..).imp fun _ _ => ⟨hhd, hb⟩
  | .ret _ none, sc, inLoop, _ => by
    rw [stmt]
    exact .pure trivial
  | .ret _ (some e), sc, inLoop, h => by
    rw [Stmt.IsFlat] at h
    rw [stmt]
    exact expr_flat e sc h
  | .brk _, sc, inLoop, _ | .cont _, sc, inLoop, _ => by
    rw [stmt]
    exact checkJump_flat ..
  | .unknown .., sc, inLoop, _ => by
    rw [stmt]
    exact .reject ..

/-- Resolving a flat header opens the scopes of functions only, and the loop has none of its own. -/
theorem header_flat : ∀ (h : Header Mark) (sc : ScopeId) (inLoop : Bool) (loop : Mark), h.IsFlat →
    StaysFlat (header globals sc inLoop loop h) fun own => own = none ∧ h.Shaped True
  | .whileTrue _ c, sc, inLoop, loop, h => by
    rw [Header.IsFlat] at h
    rw [header]
    exact (expr_flat c sc h).bind fun _ hc => .pure ⟨rfl, hc⟩
  | .counting m i c u, sc, inLoop, loop, h => by
    obtain ⟨hi, hc, hu⟩ := Header.isFlat_counting.1 h
    rw [header_counting, openHeader, headerLexical?_flat h, pure_bind]
    have hinit : StaysFlat (clause (stmt globals sc inLoop) i) fun _ =>
        ∀ s, i = some s → s.isInit ∧ s.Shaped True := by
      cases i with
      | none => exact .pure (by simp)
      | some s =>
        exact (stmt_flat s sc inLoop (hi s rfl).2).imp fun _ hs => by simpa using ⟨(hi s rfl).1, hs⟩
    have hcond : StaysFlat (clause (expr globals sc) c) fun _ =>
        ∀ e, c = some e → e.Shaped True := by
      cases c with
      | none => exact .pure (by simp)
      | some e => exact (expr_flat e sc (hc e rfl)).imp fun _ he => by simpa using he
    have hupdate : StaysFlat (clause (stmt globals sc inLoop) u) fun _ =>
        ∀ s, u = some s → s.isUpdate ∧ s.Shaped True := by
      cases u with
      | none => exact .pure (by simp)
      | some s =>
        exact (stmt_flat s sc inLoop (hu s rfl).2).imp fun _ hs => by simpa using ⟨(hu s rfl).1, hs⟩
    exact hinit.bind fun _ hi => hcond.bind fun _ hc => hupdate.bind fun _ hu =>
      .pure ⟨rfl, Header.shaped_counting.2 ⟨hi, hc, hu⟩⟩
  | .forOf m n k e, sc, inLoop, loop, h => by
    rw [Header.IsFlat] at h
    rcases h with ⟨rfl | rfl, he⟩
    · rw [header]
      exact (expr_flat e sc he).bind fun _ he => (reference_flat ..).bind fun _ _ => .pure ⟨rfl, he⟩
    · rw [header]
      exact (expr_flat e sc he).bind fun _ he => (checkVarPath_flat ..).bind fun _ _ =>
        (reference_flat ..).bind fun _ _ => .pure ⟨rfl, he⟩
  | .unknown .., sc, inLoop, loop, _ => by
    rw [header]
    exact .reject ..

end

end Resolve

/-- A flat function whose names are resolved has only scopes of functions, and no unknown nodes. -/
theorem FunctionDef.resolve_flat {fn : FunctionDef Mark} {globals : List Name} {a : Scoping}
    (hflat : fn.IsFlat) (h : fn.resolve globals = .ok a) : a.Flat ∧ fn.Shaped True := by
  obtain ⟨a₁, h₁, h₂⟩ := FunctionDef.resolve_steps h
  obtain ⟨mark, name, params, m, ss⟩ := fn
  obtain ⟨ha₁, -⟩ := (Resolve.openFunction_flat ..).run (Scoping.flat_empty _) h₁
  exact (Resolve.stmts_flat globals ss mark.id false hflat).run ha₁ h₂

/-! ## Well-scoped flat code

The rules on names leave no room for unknown nodes either, so flat code that keeps to them is of the
shape that lowered trees have. -/

section WellScoped

variable {α : Type} {globals : List Name}

mutual

/-- A flat expression that is well-scoped holds no unknown node. -/
theorem Expr.IsFlat.shaped : ∀ {e : Expr α} {c : Surroundings}, e.IsFlat → e.WellScoped globals c →
    e.Shaped True
  | .literal .., _, _, _ | .name .., _, _, _ | .signal _ _ none, _, _, _ => trivial
  | .unary _ _ e, _, h, hw => by
    rw [Expr.IsFlat] at h
    rw [Expr.WellScoped] at hw
    exact Expr.IsFlat.shaped (e := e) h hw
  | .signal _ _ (some e), _, h, hw | .signalIs _ e _, _, h, hw | .signalValue _ e, _, h, hw => by
    rw [Expr.IsFlat] at h
    rw [Expr.WellScoped] at hw
    exact ⟨trivial, Expr.IsFlat.shaped (e := e) h hw⟩
  | .binary _ _ l r, _, h, hw | .index _ l r, _, h, hw => by
    rw [Expr.IsFlat] at h
    rw [Expr.WellScoped] at hw
    exact ⟨Expr.IsFlat.shaped (e := l) h.1 hw.1, Expr.IsFlat.shaped (e := r) h.2 hw.2⟩
  | .call _ f _, _, h, hw => by
    rw [Expr.IsFlat] at h
    rw [Expr.WellScoped] at hw
    exact ⟨Expr.IsFlat.shaped (e := f) h.1 hw.1, Expr.AreFlat.shaped h.2 hw.2⟩
  | .array _ es, _, h, hw => by
    rw [Expr.IsFlat] at h
    rw [Expr.WellScoped] at hw
    exact Expr.AreFlat.shaped h hw
  | .function _ _ (.mk _ ss), _, h, hw => by
    rw [Expr.IsFlat] at h
    rw [Expr.WellScoped] at hw
    exact Stmt.AreFlat.shaped h hw.2
  | .unknown .., _, _, hw => by
    rw [Expr.WellScoped] at hw
    exact hw.elim

/-- Flat expressions that are well-scoped hold no unknown node. -/
theorem Expr.AreFlat.shaped : ∀ {es : List (Expr α)} {c : Surroundings}, Expr.AreFlat es →
    Expr.AreWellScoped globals c es → Expr.ShapedList True es
  | [], _, _, _ => trivial
  | e :: es, _, h, hw => by
    rw [Expr.AreFlat] at h
    rw [Expr.AreWellScoped] at hw
    exact ⟨Expr.IsFlat.shaped (e := e) h.1 hw.1, Expr.AreFlat.shaped h.2 hw.2⟩

/-- A flat block that is well-scoped holds no unknown node. -/
theorem Block.IsFlat.shaped : ∀ {b : Block α} {c : Surroundings}, b.IsFlat →
    b.WellScoped globals c → b.Shaped True
  | .mk _ ss, _, h, hw => by
    rw [Block.IsFlat] at h
    rw [Block.WellScoped] at hw
    exact Stmt.AreFlat.shaped h hw.2

/-- A flat statement that is well-scoped holds no unknown node. -/
theorem Stmt.IsFlat.shaped : ∀ {s : Stmt α} {c : Surroundings}, s.IsFlat → s.WellScoped globals c →
    s.Shaped True
  | .declaration _ _ _ none, _, _, _ | .ret _ none, _, _, _ | .brk _, _, _, _
  | .cont _, _, _, _ => trivial
  | .declaration _ _ _ (some e), _, h, hw => by
    rw [Stmt.IsFlat] at h
    rw [Stmt.WellScoped] at hw
    exact Expr.IsFlat.shaped (e := e) h.2 hw.2
  | .assignment _ t v, _, h, hw => by
    rw [Stmt.IsFlat] at h
    cases t with
    | name =>
      rw [Stmt.WellScoped] at hw
      exact ⟨trivial, Expr.IsFlat.shaped (e := v) h.2 hw.2.2⟩
    | index k b i =>
      obtain ⟨⟨hb, hi⟩, hv⟩ := h
      rw [Stmt.WellScoped] at hw
      exact ⟨⟨Expr.IsFlat.shaped (e := b) hb hw.1, Expr.IsFlat.shaped (e := i) hi hw.2.1⟩,
        Expr.IsFlat.shaped (e := v) hv hw.2.2⟩
    | _ =>
      simp only [Stmt.WellScoped] at hw
  | .expression _ e, _, h, hw | .ret _ (some e), _, h, hw => by
    rw [Stmt.IsFlat] at h
    rw [Stmt.WellScoped] at hw
    exact Expr.IsFlat.shaped (e := e) h hw
  | .block b, _, h, hw => by
    rw [Stmt.IsFlat] at h
    rw [Stmt.WellScoped] at hw
    exact Block.IsFlat.shaped (b := b) h hw
  | .branch _ e t none, _, h, hw => by
    rw [Stmt.IsFlat] at h
    rw [Stmt.WellScoped] at hw
    exact ⟨Expr.IsFlat.shaped (e := e) h.1 hw.1, Block.IsFlat.shaped (b := t) h.2 hw.2⟩
  | .branch _ e t (some f), _, h, hw => by
    rw [Stmt.IsFlat] at h
    rw [Stmt.WellScoped] at hw
    exact ⟨Expr.IsFlat.shaped (e := e) h.1 hw.1, Block.IsFlat.shaped (b := t) h.2.1 hw.2.1,
      Block.IsFlat.shaped (b := f) h.2.2 hw.2.2⟩
  | .loop _ hd b, _, h, hw => by
    rw [Stmt.IsFlat] at h
    rw [Stmt.WellScoped] at hw
    exact ⟨Header.IsFlat.shaped (h := hd) h.1 hw.1, Block.IsFlat.shaped (b := b) h.2 hw.2⟩
  | .unknown .., _, _, hw => by
    rw [Stmt.WellScoped] at hw
    exact hw.elim

/-- Flat statements that are well-scoped hold no unknown node. -/
theorem Stmt.AreFlat.shaped : ∀ {ss : List (Stmt α)} {c : Surroundings}, Stmt.AreFlat ss →
    Stmt.AreWellScoped globals c ss → Stmt.ShapedList True ss
  | [], _, _, _ => trivial
  | s :: ss, _, h, hw => by
    rw [Stmt.AreFlat] at h
    rw [Stmt.AreWellScoped] at hw
    exact ⟨Stmt.IsFlat.shaped (s := s) h.1 hw.1, Stmt.AreFlat.shaped h.2 hw.2⟩

/-- A flat header that is well-scoped holds no unknown node. -/
theorem Header.IsFlat.shaped : ∀ {h : Header α} {c : Surroundings}, h.IsFlat →
    h.WellScoped globals c → h.Shaped True
  | .whileTrue _ e, _, h, hw => by
    rw [Header.IsFlat] at h
    rw [Header.WellScoped] at hw
    exact Expr.IsFlat.shaped (e := e) h hw
  | .counting _ i e u, _, h, hw => by
    obtain ⟨hi, he, hu⟩ := Header.isFlat_counting.1 h
    obtain ⟨hwi, hwe, hwu⟩ := Header.wellScoped_counting.1 hw
    refine Header.shaped_counting.2 ⟨?_, ?_, ?_⟩
    · cases i with
      | none => simp
      | some s =>
        rintro _ ⟨⟩
        exact ⟨(hi s rfl).1, Stmt.IsFlat.shaped (hi s rfl).2 (hwi s rfl)⟩
    · cases e with
      | none => simp
      | some e =>
        rintro _ ⟨⟩
        exact Expr.IsFlat.shaped (he e rfl) (hwe e rfl)
    · cases u with
      | none => simp
      | some s =>
        rintro _ ⟨⟩
        exact ⟨(hu s rfl).1, Stmt.IsFlat.shaped (hu s rfl).2 (hwu s rfl)⟩
  | .forOf _ _ none e, _, h, hw | .forOf _ _ (some _) e, _, h, hw => by
    rw [Header.IsFlat] at h
    rw [Header.WellScoped] at hw
    exact Expr.IsFlat.shaped (e := e) h.2 hw.1
  | .unknown .., _, _, hw => by
    rw [Header.WellScoped] at hw
    exact hw.elim

end

/-- A flat function whose names keep to the rules holds no unknown nodes. -/
theorem FunctionDef.IsFlat.shaped {fn : FunctionDef α} (h : fn.IsFlat)
    (hw : fn.WellScoped globals) : fn.Shaped True := by
  obtain ⟨mark, name, params, m, ss⟩ := fn
  exact Stmt.AreFlat.shaped h hw.2

end WellScoped

end FlatScope
