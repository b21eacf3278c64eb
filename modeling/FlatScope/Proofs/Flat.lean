import FlatScope.Proofs.Numbering
import FlatScope.Proofs.Source
import FlatScope.Syntax.Declared

/-!
# Flat code

Code is *flat* if `var` is the only kind of declaration in it, also in the headers of its loops, and
the clauses of its `for`s are what the grammar allows there (`Stmt.IsFlat`). It may hold signals. So
no block and no loop of flat code has names of its own: every scope is that of a function.
-/

namespace FlatScope

variable {α β : Type}

mutual

/-- An expression whose functions are flat. -/
def Expr.IsFlat : Expr α → Prop
  | .literal .. | .name .. | .signal _ _ none | .unknown .. => True
  | .unary _ _ e | .signal _ _ (some e) | .signalIs _ e _ | .signalValue _ e => e.IsFlat
  | .binary _ _ l r => l.IsFlat ∧ r.IsFlat
  | .call _ f args => f.IsFlat ∧ Expr.AreFlat args
  | .array _ es => Expr.AreFlat es
  | .index _ b i => b.IsFlat ∧ i.IsFlat
  | .function _ _ (.mk _ ss) => Stmt.AreFlat ss

/-- All of a list of expressions are flat. -/
def Expr.AreFlat : List (Expr α) → Prop
  | [] => True
  | e :: es => e.IsFlat ∧ Expr.AreFlat es

/-- All statements of a block are flat. -/
def Block.IsFlat : Block α → Prop
  | .mk _ ss => Stmt.AreFlat ss

/-- A statement that declares only `var`s. -/
def Stmt.IsFlat : Stmt α → Prop
  | .declaration _ _ k none => k = .var
  | .declaration _ _ k (some e) => k = .var ∧ e.IsFlat
  | .assignment _ t v => t.IsFlat ∧ v.IsFlat
  | .expression _ e | .ret _ (some e) => e.IsFlat
  | .block b => b.IsFlat
  | .branch _ c t none => c.IsFlat ∧ t.IsFlat
  | .branch _ c t (some e) => c.IsFlat ∧ t.IsFlat ∧ e.IsFlat
  | .loop _ h b => h.IsFlat ∧ b.IsFlat
  | .ret _ none | .brk _ | .cont _ | .unknown .. => True

/-- All of a list of statements are flat. -/
def Stmt.AreFlat : List (Stmt α) → Prop
  | [] => True
  | s :: ss => s.IsFlat ∧ Stmt.AreFlat ss

/-- A header that declares a `var` or nothing. -/
def Header.IsFlat : Header α → Prop
  | .whileTrue _ c => c.IsFlat
  | .counting _ i c u =>
    (match i with
      | none => True
      | some s => s.isInit ∧ s.IsFlat) ∧
    (match c with
      | none => True
      | some e => e.IsFlat) ∧
    (match u with
      | none => True
      | some s => s.isUpdate ∧ s.IsFlat)
  | .forOf _ _ k e => (k = none ∨ k = some .var) ∧ e.IsFlat
  | .unknown .. => True

end

/-- A function that declares only `var`s. -/
def FunctionDef.IsFlat (fn : FunctionDef α) : Prop := fn.body.IsFlat

/-- A program whose functions and statements declare only `var`s. -/
def Program.IsFlat (p : Program α) : Prop :=
  (∀ fn ∈ p.functions, fn.IsFlat) ∧ Stmt.AreFlat p.statements

/-- The header of a `for` is flat if its clauses are. -/
theorem Header.isFlat_counting {a : α} {i : Option (Stmt α)} {c : Option (Expr α)}
    {u : Option (Stmt α)} : (Header.counting a i c u).IsFlat ↔
      (∀ s, i = some s → s.isInit ∧ s.IsFlat) ∧ (∀ e, c = some e → e.IsFlat) ∧
      (∀ s, u = some s → s.isUpdate ∧ s.IsFlat) := by
  cases i <;> cases c <;> cases u <;> simp [Header.IsFlat]

theorem Stmt.areFlat_append {ss ts : List (Stmt α)} :
    Stmt.AreFlat (ss ++ ts) ↔ Stmt.AreFlat ss ∧ Stmt.AreFlat ts := by
  induction ss with
  | nil => simp [Stmt.AreFlat]
  | cons s ss ih => simp only [List.cons_append, Stmt.AreFlat, ih, and_assoc]

theorem Stmt.areFlat_iff {ss : List (Stmt α)} : Stmt.AreFlat ss ↔ ∀ s ∈ ss, s.IsFlat := by
  induction ss with
  | nil => simp [Stmt.AreFlat]
  | cons s ss ih => simp only [Stmt.AreFlat, ih, List.forall_mem_cons]

/-! ## Names of its own -/

/-- A flat statement declares no `let` or `const`. -/
theorem Stmt.IsFlat.lexical? {s : Stmt α} (h : s.IsFlat) : s.lexical? = none := by
  cases s with
  | declaration m n k v =>
    cases v with
    | none =>
      rw [Stmt.IsFlat] at h
      rw [h]
      rfl
    | some e =>
      rw [Stmt.IsFlat] at h
      rw [h.1]
      rfl
  | _ => rfl

/-- Flat statements declare no lexical name. -/
theorem Stmt.AreFlat.lexicals : ∀ {ss : List (Stmt α)}, Stmt.AreFlat ss →
    ss.filterMap Stmt.lexical? = []
  | [], _ => rfl
  | s :: ss, h => by
    rw [Stmt.AreFlat] at h
    rw [List.filterMap_cons, h.1.lexical?, h.2.lexicals]

/-- A flat block has no names of its own. -/
theorem Block.IsFlat.lexicals {b : Block α} (h : b.IsFlat) : b.lexicals = [] := by
  obtain ⟨m, ss⟩ := b
  rw [Block.IsFlat] at h
  exact h.lexicals

/-! ## Marks do not matter -/

section Map

variable (f : α → β)

mutual

/-- Whether an expression is flat does not depend on its marks. -/
theorem Expr.isFlat_map : ∀ e : Expr α, (e.map f).IsFlat ↔ e.IsFlat
  | .literal .. | .name .. | .unknown .. | .signal _ _ none => Iff.rfl
  | .unary _ _ e | .signal _ _ (some e) | .signalIs _ e _ | .signalValue _ e => by
    simp only [Expr.map, Expr.IsFlat, e.isFlat_map]
  | .binary _ _ l r | .index _ l r => by
    simp only [Expr.map, Expr.IsFlat, l.isFlat_map, r.isFlat_map]
  | .call _ g args => by simp only [Expr.map, Expr.IsFlat, g.isFlat_map, Expr.areFlat_map args]
  | .array _ es => by simp only [Expr.map, Expr.IsFlat, Expr.areFlat_map es]
  | .function _ _ (.mk _ ss) => by
    simp only [Expr.map, Block.map, Expr.IsFlat, Stmt.areFlat_map ss]

theorem Expr.areFlat_map : ∀ es : List (Expr α),
    Expr.AreFlat (Expr.mapList f es) ↔ Expr.AreFlat es
  | [] => Iff.rfl
  | e :: es => by simp only [Expr.mapList, Expr.AreFlat, e.isFlat_map, Expr.areFlat_map es]

/-- Whether a block is flat does not depend on its marks. -/
theorem Block.isFlat_map : ∀ b : Block α, (b.map f).IsFlat ↔ b.IsFlat
  | .mk _ ss => by simp only [Block.map, Block.IsFlat, Stmt.areFlat_map ss]

/-- Whether a statement is flat does not depend on its marks. -/
theorem Stmt.isFlat_map : ∀ s : Stmt α, (s.map f).IsFlat ↔ s.IsFlat
  | .declaration _ _ _ none | .ret _ none | .brk _ | .cont _ | .unknown .. => Iff.rfl
  | .declaration _ _ _ (some e) | .expression _ e | .ret _ (some e) => by
    simp only [Stmt.map, Stmt.IsFlat, e.isFlat_map]
  | .assignment _ t v => by simp only [Stmt.map, Stmt.IsFlat, t.isFlat_map, v.isFlat_map]
  | .block b => by simp only [Stmt.map, Stmt.IsFlat, b.isFlat_map]
  | .branch _ c t none => by simp only [Stmt.map, Stmt.IsFlat, c.isFlat_map, t.isFlat_map]
  | .branch _ c t (some e) => by
    simp only [Stmt.map, Stmt.IsFlat, c.isFlat_map, t.isFlat_map, e.isFlat_map]
  | .loop _ h b => by simp only [Stmt.map, Stmt.IsFlat, h.isFlat_map, b.isFlat_map]

theorem Stmt.areFlat_map : ∀ ss : List (Stmt α),
    Stmt.AreFlat (Stmt.mapList f ss) ↔ Stmt.AreFlat ss
  | [] => Iff.rfl
  | s :: ss => by simp only [Stmt.mapList, Stmt.AreFlat, s.isFlat_map, Stmt.areFlat_map ss]

theorem Stmt.isFlat_mapClause : ∀ (o : Option (Stmt α)) {s : Stmt α}, o = some s →
    ((s.map f).IsFlat ↔ s.IsFlat)
  | some s, _, rfl => s.isFlat_map

theorem Expr.isFlat_mapClause : ∀ (o : Option (Expr α)) {e : Expr α}, o = some e →
    ((e.map f).IsFlat ↔ e.IsFlat)
  | some e, _, rfl => e.isFlat_map

/-- Whether a header is flat does not depend on its marks. -/
theorem Header.isFlat_map : ∀ h : Header α, (h.map f).IsFlat ↔ h.IsFlat
  | .whileTrue _ c => by simp only [Header.map, Header.IsFlat, c.isFlat_map]
  | .counting _ i c u => by
    rw [Header.map_counting, Header.isFlat_counting, Header.isFlat_counting]
    refine and_congr (forall_clause_map fun s hs => ?_)
      (and_congr (forall_clause_map fun e he => ?_) (forall_clause_map fun s hs => ?_))
    · rw [s.isInit_map, Stmt.isFlat_mapClause i hs]
    · exact Expr.isFlat_mapClause c he
    · rw [s.isUpdate_map, Stmt.isFlat_mapClause u hs]
  | .forOf _ _ _ e => by simp only [Header.map, Header.IsFlat, e.isFlat_map]
  | .unknown .. => Iff.rfl

end

end Map

/-- The numbered function is flat if the function is. -/
theorem FunctionDef.isFlat_number (fn : FunctionDef Span) : fn.number.IsFlat ↔ fn.IsFlat := by
  have h := Block.isFlat_map Mark.span fn.number.body
  rw [show fn.number.body.map Mark.span = fn.body from congrArg (·.body) fn.number_map] at h
  exact h.symm

end FlatScope
