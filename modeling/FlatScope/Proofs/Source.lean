import FlatScope.Syntax.Map

/-!
# Trees as they are read

The lowering works on trees that nobody lowered before: they hold no signals and no nodes of
unknown classes, and the clauses of a `for` are what the grammar allows there (`Stmt.IsSource`). Of
the first clause that is a declaration, an assignment or an expression, of the last one an
assignment or an expression. Trees that were lowered are of the same shape (`Stmt.Shaped`), but hold
signals.
-/

namespace FlatScope

variable {α : Type}

/-- What may stand as the first clause of a `for`. -/
def Stmt.isInit : Stmt α → Bool
  | .declaration .. | .assignment .. | .expression .. => true
  | _ => false

/-- What may stand as the last clause of a `for`. -/
def Stmt.isUpdate : Stmt α → Bool
  | .assignment .. | .expression .. => true
  | _ => false

section Shape

variable (signals : Prop)

mutual

/-- An expression without unknown nodes, that holds signals only if `signals` says so. -/
def Expr.Shaped : Expr α → Prop
  | .literal .. | .name .. => True
  | .unary _ _ e => e.Shaped
  | .binary _ _ l r => l.Shaped ∧ r.Shaped
  | .call _ f args => f.Shaped ∧ Expr.ShapedList args
  | .array _ es => Expr.ShapedList es
  | .index _ b i => b.Shaped ∧ i.Shaped
  | .function _ _ b => b.Shaped
  | .signal _ _ none => signals
  | .signal _ _ (some e) | .signalIs _ e _ | .signalValue _ e => signals ∧ e.Shaped
  | .unknown .. => False

def Expr.ShapedList : List (Expr α) → Prop
  | [] => True
  | e :: es => e.Shaped ∧ Expr.ShapedList es

def Block.Shaped : Block α → Prop
  | .mk _ ss => Stmt.ShapedList ss

/-- A statement without unknown nodes, that holds signals only if `signals` says so. -/
def Stmt.Shaped : Stmt α → Prop
  | .declaration _ _ _ none | .ret _ none | .brk _ | .cont _ => True
  | .declaration _ _ _ (some e) | .expression _ e | .ret _ (some e) => e.Shaped
  | .assignment _ t v => t.Shaped ∧ v.Shaped
  | .block b => b.Shaped
  | .branch _ c t none => c.Shaped ∧ t.Shaped
  | .branch _ c t (some e) => c.Shaped ∧ t.Shaped ∧ e.Shaped
  | .loop _ h b => h.Shaped ∧ b.Shaped
  | .unknown .. => False

def Stmt.ShapedList : List (Stmt α) → Prop
  | [] => True
  | s :: ss => s.Shaped ∧ Stmt.ShapedList ss

/-- A header whose clauses are as the grammar allows. -/
def Header.Shaped : Header α → Prop
  | .whileTrue _ c => c.Shaped
  | .counting _ i c u =>
    (match i with
      | none => True
      | some s => s.isInit ∧ s.Shaped) ∧
    (match c with
      | none => True
      | some e => e.Shaped) ∧
    (match u with
      | none => True
      | some s => s.isUpdate ∧ s.Shaped)
  | .forOf _ _ _ e => e.Shaped
  | .unknown .. => False

end

/-- A function whose code is of this shape. -/
def FunctionDef.Shaped (fn : FunctionDef α) : Prop := fn.body.Shaped signals

end Shape

/-- An expression without signals and unknown nodes. -/
abbrev Expr.IsSource (e : Expr α) : Prop := e.Shaped False

abbrev Expr.AreSource (es : List (Expr α)) : Prop := Expr.ShapedList False es

abbrev Block.IsSource (b : Block α) : Prop := b.Shaped False

/-- A statement without signals and unknown nodes. -/
abbrev Stmt.IsSource (s : Stmt α) : Prop := s.Shaped False

abbrev Stmt.AreSource (ss : List (Stmt α)) : Prop := Stmt.ShapedList False ss

/-- A header without signals and unknown nodes. -/
abbrev Header.IsSource (h : Header α) : Prop := h.Shaped False

/-- The header of a `for` is as the grammar allows if its clauses are. -/
theorem Header.shaped_counting {signals : Prop} {a : α} {i : Option (Stmt α)}
    {c : Option (Expr α)} {u : Option (Stmt α)} : (Header.counting a i c u).Shaped signals ↔
      (∀ s, i = some s → s.isInit ∧ s.Shaped signals) ∧ (∀ e, c = some e → e.Shaped signals) ∧
      (∀ s, u = some s → s.isUpdate ∧ s.Shaped signals) := by
  cases i <;> cases c <;> cases u <;> simp [Header.Shaped]

/-! ## Other marks -/

section Map

variable {β : Type} {signals : Prop} (f : α → β)

theorem Header.map_counting (a : α) (i : Option (Stmt α)) (c : Option (Expr α))
    (u : Option (Stmt α)) : (Header.counting a i c u).map f =
      .counting (f a) (i.map (Stmt.map f)) (c.map (Expr.map f)) (u.map (Stmt.map f)) := by
  cases i <;> cases c <;> cases u <;> rfl

/-- What holds of a clause with other marks, if it is written. -/
theorem forall_clause_map {σ τ : Type} {g : σ → τ} {o : Option σ} {P : τ → Prop} {Q : σ → Prop}
    (h : ∀ x, o = some x → (P (g x) ↔ Q x)) :
    (∀ y, o.map g = some y → P y) ↔ ∀ x, o = some x → Q x := by
  simp only [Option.map_eq_some_iff, forall_exists_index, and_imp, forall_apply_eq_imp_iff₂]
  exact forall₂_congr h

@[simp] theorem Stmt.isInit_map (s : Stmt α) : (s.map f).isInit = s.isInit := by cases s <;> rfl

@[simp] theorem Stmt.isUpdate_map (s : Stmt α) : (s.map f).isUpdate = s.isUpdate := by
  cases s <;> rfl

mutual

/-- The shape of an expression does not depend on its marks. -/
@[simp] theorem Expr.shaped_map : ∀ e : Expr α, (e.map f).Shaped signals ↔ e.Shaped signals
  | .literal .. | .name .. | .unknown .. => Iff.rfl
  | .unary _ _ e => by simp only [Expr.map, Expr.Shaped, e.shaped_map]
  | .binary _ _ l r => by simp only [Expr.map, Expr.Shaped, l.shaped_map, r.shaped_map]
  | .call _ g args => by
    simp only [Expr.map, Expr.Shaped, g.shaped_map, Expr.shapedList_map args]
  | .array _ es => by simp only [Expr.map, Expr.Shaped, Expr.shapedList_map es]
  | .index _ b i => by simp only [Expr.map, Expr.Shaped, b.shaped_map, i.shaped_map]
  | .function _ _ b => by simp only [Expr.map, Expr.Shaped, b.shaped_map]
  | .signal _ _ none => Iff.rfl
  | .signal _ _ (some e) => by simp only [Expr.map, Expr.Shaped, e.shaped_map]
  | .signalIs _ e _ => by simp only [Expr.map, Expr.Shaped, e.shaped_map]
  | .signalValue _ e => by simp only [Expr.map, Expr.Shaped, e.shaped_map]

theorem Expr.shapedList_map : ∀ es : List (Expr α),
    Expr.ShapedList signals (Expr.mapList f es) ↔ Expr.ShapedList signals es
  | [] => Iff.rfl
  | e :: es => by
    simp only [Expr.mapList, Expr.ShapedList, e.shaped_map, Expr.shapedList_map es]

@[simp] theorem Block.shaped_map : ∀ b : Block α, (b.map f).Shaped signals ↔ b.Shaped signals
  | .mk _ ss => by simp only [Block.map, Block.Shaped, Stmt.shapedList_map ss]

@[simp] theorem Stmt.shaped_map : ∀ s : Stmt α, (s.map f).Shaped signals ↔ s.Shaped signals
  | .declaration _ _ _ none | .ret _ none | .brk _ | .cont _ | .unknown .. => Iff.rfl
  | .declaration _ _ _ (some e) => by simp only [Stmt.map, Stmt.Shaped, e.shaped_map]
  | .assignment _ t v => by simp only [Stmt.map, Stmt.Shaped, t.shaped_map, v.shaped_map]
  | .expression _ e => by simp only [Stmt.map, Stmt.Shaped, e.shaped_map]
  | .ret _ (some e) => by simp only [Stmt.map, Stmt.Shaped, e.shaped_map]
  | .block b => by simp only [Stmt.map, Stmt.Shaped, b.shaped_map]
  | .branch _ c t none => by simp only [Stmt.map, Stmt.Shaped, c.shaped_map, t.shaped_map]
  | .branch _ c t (some e) => by
    simp only [Stmt.map, Stmt.Shaped, c.shaped_map, t.shaped_map, e.shaped_map]
  | .loop _ h b => by simp only [Stmt.map, Stmt.Shaped, h.shaped_map, b.shaped_map]

theorem Stmt.shapedList_map : ∀ ss : List (Stmt α),
    Stmt.ShapedList signals (Stmt.mapList f ss) ↔ Stmt.ShapedList signals ss
  | [] => Iff.rfl
  | s :: ss => by
    simp only [Stmt.mapList, Stmt.ShapedList, s.shaped_map, Stmt.shapedList_map ss]

theorem Stmt.shaped_mapClause : ∀ (o : Option (Stmt α)) {s : Stmt α}, o = some s →
    ((s.map f).Shaped signals ↔ s.Shaped signals)
  | some s, _, rfl => s.shaped_map

theorem Expr.shaped_mapClause : ∀ (o : Option (Expr α)) {e : Expr α}, o = some e →
    ((e.map f).Shaped signals ↔ e.Shaped signals)
  | some e, _, rfl => e.shaped_map

@[simp] theorem Header.shaped_map : ∀ h : Header α, (h.map f).Shaped signals ↔ h.Shaped signals
  | .whileTrue _ c => by simp only [Header.map, Header.Shaped, c.shaped_map]
  | .counting _ i c u => by
    rw [Header.map_counting, Header.shaped_counting, Header.shaped_counting]
    refine and_congr (forall_clause_map fun s hs => ?_)
      (and_congr (forall_clause_map fun e he => ?_) (forall_clause_map fun s hs => ?_))
    · rw [s.isInit_map, Stmt.shaped_mapClause i hs]
    · exact Expr.shaped_mapClause c he
    · rw [s.isUpdate_map, Stmt.shaped_mapClause u hs]
  | .forOf _ _ _ e => by simp only [Header.map, Header.Shaped, e.shaped_map]
  | .unknown .. => Iff.rfl

end

end Map

/-- A function as it is read. -/
abbrev FunctionDef.IsSource (fn : FunctionDef α) : Prop := fn.Shaped False

/-- A program as it is read. -/
def Program.IsSource (p : Program α) : Prop :=
  (∀ fn ∈ p.functions, fn.IsSource) ∧ Stmt.AreSource p.statements

/-- Marks do not matter for what is a program as it is read. -/
theorem Program.isSource_map {β : Type} (f : α → β) (p : Program α) :
    (p.map f).IsSource ↔ p.IsSource := by
  have hfn (fn : FunctionDef α) : (fn.map f).IsSource ↔ fn.IsSource := fn.body.shaped_map f
  simp only [IsSource, map, List.forall_mem_map, hfn, Stmt.AreSource, Stmt.shapedList_map]

end FlatScope
