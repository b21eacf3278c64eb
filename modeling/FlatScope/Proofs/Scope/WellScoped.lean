import FlatScope.Proofs.Numbering
import FlatScope.Syntax.Declared

/-!
# Well-scoped code

The rules on names, by recursion over the syntax. They are judged against what the code around a
piece of code declares (`Surroundings`):

* a function declares its parameters, every `var` in it, and the `let`s and `const`s of its body.
  The parameters are distinct, and so are the `let`s and `const`s, which repeat neither a parameter
  nor a `var` of the function (`DistinctNames`);
* a block declares its `let`s and `const`s, which are distinct;
* the header of a loop declares its `let` or `const` for its clauses and for the body of the loop,
  but not for the sequence of a loop over one;
* no block or header between a `var` and its function declares the name of the `var`;
* a name that is used is declared around its use, or means something from outside of the function;
* a `break` or `continue` is in the body of a loop of the same function;
* a `const` has a value, and nothing is assigned to it.
-/

namespace FlatScope

variable {α β : Type}

/-- What the code around a piece of code declares. -/
structure Surroundings where
  /-- The declared names, the innermost first, and whether they are constants. -/
  names : List (Name × Bool)
  /-- The names that the blocks and the headers of loops declare that lie between the code and its
      function. -/
  inner : List Name
  /-- Whether a loop of the same function is around the code. -/
  inLoop : Bool

/-- The `let` or `const` that the header of a loop declares. -/
def Header.lexical? : Header α → Option (Lexical α)
  | .counting _ (some i) _ _ => i.lexical?
  | .forOf a n (some k) _ => if k.isBlockScoped then some ⟨a, n, k⟩ else none
  | _ => none

namespace Lexical

/-- The names of `let`s and `const`s, and whether they are constants. -/
def entries (ls : List (Lexical α)) : List (Name × Bool) :=
  ls.map fun l => (l.name, l.kind = .const)

end Lexical

namespace Surroundings

/-- Nothing is declared around a function that is not nested in another one. -/
def outermost : Surroundings := ⟨[], [], false⟩

/-- The surroundings inside of a block or a loop with the given `let`s and `const`s. -/
def enter (c : Surroundings) (ls : List (Lexical α)) : Surroundings :=
  { c with
    names := Lexical.entries ls ++ c.names
    inner := ls.map (·.name) ++ c.inner }

/-- The surroundings inside of a function. -/
def function (c : Surroundings) (params : List Name) (b : Block α) : Surroundings where
  names := params.map (·, false) ++ b.vars.map (fun v => (v.1, false)) ++
    Lexical.entries b.lexicals ++ c.names
  inner := []
  inLoop := false

/-- The surroundings inside of the body of a loop. -/
def loopBody (c : Surroundings) : Surroundings := { c with inLoop := true }

/-- A name means something. -/
def Knows (c : Surroundings) (globals : List Name) (n : Name) : Prop :=
  n ∈ c.names.map (·.1) ∨ n ∈ globals

/-- A name does not mean a constant. -/
def MayAssign (c : Surroundings) (n : Name) : Prop := c.names.lookup n ≠ some true

end Surroundings

/-- The names that a function declares itself. -/
structure DistinctNames (params : List Name) (b : Block α) : Prop where
  distinctParams : params.Nodup
  distinctLexicals : (b.lexicals.map (·.name)).Nodup
  apart : ∀ l ∈ b.lexicals, l.name ∉ params ∧ l.name ∉ b.vars.map (·.1)

section Rules

variable (globals : List Name)

mutual

/-- The names in an expression keep to the rules. -/
def Expr.WellScoped (c : Surroundings) : Expr α → Prop
  | .literal .. => True
  | .name _ n => c.Knows globals n
  | .unary _ _ e | .signalIs _ e _ | .signalValue _ e => e.WellScoped c
  | .binary _ _ l r => l.WellScoped c ∧ r.WellScoped c
  | .call _ f args => f.WellScoped c ∧ Expr.AreWellScoped c args
  | .array _ es => Expr.AreWellScoped c es
  | .index _ b i => b.WellScoped c ∧ i.WellScoped c
  | .function _ ps (.mk m ss) =>
    DistinctNames ps (.mk m ss) ∧ Stmt.AreWellScoped (c.function ps (.mk m ss)) ss
  | .signal _ _ none => True
  | .signal _ _ (some e) => e.WellScoped c
  | .unknown .. => False

def Expr.AreWellScoped (c : Surroundings) : List (Expr α) → Prop
  | [] => True
  | e :: es => e.WellScoped c ∧ Expr.AreWellScoped c es

/-- The names in a block keep to the rules. -/
def Block.WellScoped (c : Surroundings) : Block α → Prop
  | .mk m ss =>
    ((Block.mk m ss).lexicals.map (·.name)).Nodup ∧
      Stmt.AreWellScoped (c.enter (Block.mk m ss).lexicals) ss

/-- The names in a statement keep to the rules. -/
def Stmt.WellScoped (c : Surroundings) : Stmt α → Prop
  | .declaration _ n k none => (k = .var → n ∉ c.inner) ∧ k ≠ .const
  | .declaration _ n k (some e) => (k = .var → n ∉ c.inner) ∧ e.WellScoped c
  | .assignment _ (.name _ n) v => c.Knows globals n ∧ c.MayAssign n ∧ v.WellScoped c
  | .assignment _ (.index _ b i) v => b.WellScoped c ∧ i.WellScoped c ∧ v.WellScoped c
  | .assignment .. => False
  | .expression _ e => e.WellScoped c
  | .block b => b.WellScoped c
  | .branch _ e t none => e.WellScoped c ∧ t.WellScoped c
  | .branch _ e t (some f) => e.WellScoped c ∧ t.WellScoped c ∧ f.WellScoped c
  | .loop _ h b => h.WellScoped c ∧ b.WellScoped (c.enter h.lexical?.toList).loopBody
  | .ret _ none => True
  | .ret _ (some e) => e.WellScoped c
  | .brk _ | .cont _ => c.inLoop
  | .unknown .. => False

def Stmt.AreWellScoped (c : Surroundings) : List (Stmt α) → Prop
  | [] => True
  | s :: ss => s.WellScoped c ∧ Stmt.AreWellScoped c ss

/-- The names in the header of a loop keep to the rules. -/
def Header.WellScoped (c : Surroundings) : Header α → Prop
  | .whileTrue _ e => e.WellScoped c
  | .counting a i e u =>
    (match i with
      | none => True
      | some s => s.WellScoped (c.enter (Header.counting a i e u).lexical?.toList)) ∧
    (match e with
      | none => True
      | some x => x.WellScoped (c.enter (Header.counting a i e u).lexical?.toList)) ∧
    (match u with
      | none => True
      | some s => s.WellScoped (c.enter (Header.counting a i e u).lexical?.toList))
  | .forOf _ n none e => e.WellScoped c ∧ c.Knows globals n ∧ c.MayAssign n
  | .forOf _ n (some k) e => e.WellScoped c ∧ (k = .var → n ∉ c.inner)
  | .unknown .. => False

end

/-- The names in a function keep to the rules. -/
def FunctionDef.WellScoped (fn : FunctionDef α) : Prop :=
  DistinctNames fn.params fn.body ∧
    Stmt.AreWellScoped globals (Surroundings.outermost.function fn.params fn.body)
      fn.body.statements

end Rules

variable {globals : List Name} {c : Surroundings}

/-- The rules on the header of a `for` are those on its clauses. -/
theorem Header.wellScoped_counting {a : α} {i : Option (Stmt α)} {e : Option (Expr α)}
    {u : Option (Stmt α)} : (Header.counting a i e u).WellScoped globals c ↔
      (∀ s, i = some s →
        s.WellScoped globals (c.enter (Header.counting a i e u).lexical?.toList)) ∧
      (∀ x, e = some x →
        x.WellScoped globals (c.enter (Header.counting a i e u).lexical?.toList)) ∧
      (∀ s, u = some s →
        s.WellScoped globals (c.enter (Header.counting a i e u).lexical?.toList)) := by
  cases i <;> cases e <;> cases u <;> simp [Header.WellScoped]

/-! ## Marks do not matter -/

section Map

variable (f : α → β)

/-- A `let` or `const` with another mark. -/
def Lexical.map (l : Lexical α) : Lexical β := ⟨f l.mark, l.name, l.kind⟩

mutual

theorem Stmt.vars_map : ∀ s : Stmt α, (s.map f).vars = s.vars.map fun v => (v.1, f v.2)
  | .declaration _ _ .var _ => rfl
  | .declaration _ _ .letVar _ | .declaration _ _ .const _ => rfl
  | .block b => by simp only [Stmt.map, Stmt.vars, b.vars_map]
  | .branch _ _ t none => by simp only [Stmt.map, Stmt.vars, t.vars_map, List.append_nil]
  | .branch _ _ t (some e) => by
    simp only [Stmt.map, Stmt.vars, t.vars_map, e.vars_map, List.map_append]
  | .loop _ h b => by simp only [Stmt.map, Stmt.vars, h.vars_map, b.vars_map, List.map_append]
  | .assignment .. | .expression .. | .ret .. | .brk _ | .cont _ | .unknown .. => rfl

theorem Stmt.varsOfList_map : ∀ ss : List (Stmt α),
    Stmt.varsOfList (Stmt.mapList f ss) = (Stmt.varsOfList ss).map fun v => (v.1, f v.2)
  | [] => rfl
  | s :: ss => by
    simp only [Stmt.mapList, Stmt.varsOfList, s.vars_map, Stmt.varsOfList_map ss, List.map_append]

theorem Block.vars_map : ∀ b : Block α, (b.map f).vars = b.vars.map fun v => (v.1, f v.2)
  | .mk _ ss => Stmt.varsOfList_map ss

theorem Header.vars_map : ∀ h : Header α, (h.map f).vars = h.vars.map fun v => (v.1, f v.2)
  | .counting _ none _ _ => rfl
  | .counting _ (some i) _ _ => by simp only [Header.map, Header.vars, i.vars_map]
  | .forOf _ _ (some .var) _ | .forOf _ _ (some .letVar) _ | .forOf _ _ (some .const) _
  | .forOf _ _ none _ | .whileTrue .. | .unknown .. => rfl

end

theorem Stmt.lexical?_map (s : Stmt α) : (s.map f).lexical? = s.lexical?.map (Lexical.map f) := by
  cases s with
  | declaration a n k v => cases k <;> rfl
  | _ => rfl

theorem Stmt.mapList_eq : ∀ ss : List (Stmt α), Stmt.mapList f ss = ss.map (Stmt.map f)
  | [] => rfl
  | s :: ss => congrArg (s.map f :: ·) (Stmt.mapList_eq ss)

theorem Block.lexicals_map (b : Block α) :
    (b.map f).lexicals = b.lexicals.map (Lexical.map f) := by
  obtain ⟨a, ss⟩ := b
  rw [Block.map, Block.lexicals, Block.lexicals, Block.statements, Block.statements,
    Stmt.mapList_eq, List.filterMap_map, List.map_filterMap]
  exact congrArg (List.filterMap · ss) (funext fun s => s.lexical?_map f)

theorem Header.lexical?_map (h : Header α) :
    (h.map f).lexical? = h.lexical?.map (Lexical.map f) := by
  cases h with
  | counting a i e u =>
    cases i with
    | none => rfl
    | some s => exact s.lexical?_map f
  | forOf a n k e =>
    cases k with
    | none => rfl
    | some k => cases k <;> rfl
  | _ => rfl

theorem Lexical.entries_map (ls : List (Lexical α)) :
    entries (ls.map (Lexical.map f)) = entries ls := List.map_map

theorem Lexical.names_map (ls : List (Lexical α)) :
    (ls.map (Lexical.map f)).map (·.name) = ls.map (·.name) := List.map_map

theorem Surroundings.enter_map (ls : List (Lexical α)) :
    c.enter (ls.map (Lexical.map f)) = c.enter ls := by
  rw [enter, enter, Lexical.entries_map, Lexical.names_map]

theorem Surroundings.enter_lexical?_map (h : Header α) :
    c.enter (h.map f).lexical?.toList = c.enter h.lexical?.toList := by
  rw [h.lexical?_map, ← c.enter_map f h.lexical?.toList]
  cases h.lexical? <;> rfl

theorem Surroundings.function_map (ps : List Name) (b : Block α) :
    c.function ps (b.map f) = c.function ps b := by
  simp [function, b.vars_map, b.lexicals_map, Lexical.entries_map, Function.comp_def]

theorem DistinctNames.map_iff {ps : List Name} {b : Block α} :
    DistinctNames ps (b.map f) ↔ DistinctNames ps b := by
  have hlex : (b.map f).lexicals.map (·.name) = b.lexicals.map (·.name) := by
    rw [b.lexicals_map, Lexical.names_map]
  have hvars : (b.map f).vars.map (·.1) = b.vars.map (·.1) := by
    simp [b.vars_map, Function.comp_def]
  have hapart : (∀ l ∈ (b.map f).lexicals, l.name ∉ ps ∧ l.name ∉ (b.map f).vars.map (·.1)) ↔
      ∀ l ∈ b.lexicals, l.name ∉ ps ∧ l.name ∉ b.vars.map (·.1) := by
    rw [hvars, b.lexicals_map, List.forall_mem_map]
    rfl
  exact ⟨fun ⟨h₁, h₂, h₃⟩ => ⟨h₁, hlex ▸ h₂, hapart.1 h₃⟩,
    fun ⟨h₁, h₂, h₃⟩ => ⟨h₁, hlex ▸ h₂, hapart.2 h₃⟩⟩

mutual

theorem Expr.wellScoped_map : ∀ (c : Surroundings) (e : Expr α),
    (e.map f).WellScoped globals c ↔ e.WellScoped globals c
  | _, .literal .. | _, .name .. | _, .unknown .. | _, .signal _ _ none => Iff.rfl
  | c, .unary _ _ e | c, .signal _ _ (some e) | c, .signalIs _ e _ | c, .signalValue _ e => by
    simp only [Expr.map, Expr.WellScoped, e.wellScoped_map c]
  | c, .binary _ _ l r | c, .index _ l r => by
    simp only [Expr.map, Expr.WellScoped, l.wellScoped_map c, r.wellScoped_map c]
  | c, .call _ g args => by
    simp only [Expr.map, Expr.WellScoped, g.wellScoped_map c, Expr.areWellScoped_map c args]
  | c, .array _ es => by simp only [Expr.map, Expr.WellScoped, Expr.areWellScoped_map c es]
  | c, .function _ ps (.mk m ss) => by
    have hd : DistinctNames ps ((Block.mk m ss).map f) ↔ _ := DistinctNames.map_iff f
    have hc := c.function_map f ps (Block.mk m ss)
    simp only [Block.map] at hd hc
    simp only [Expr.map, Block.map, Expr.WellScoped, hd, hc, Stmt.areWellScoped_map _ ss]

theorem Expr.areWellScoped_map : ∀ (c : Surroundings) (es : List (Expr α)),
    Expr.AreWellScoped globals c (Expr.mapList f es) ↔ Expr.AreWellScoped globals c es
  | _, [] => Iff.rfl
  | c, e :: es => by
    simp only [Expr.mapList, Expr.AreWellScoped, e.wellScoped_map c, Expr.areWellScoped_map c es]

theorem Block.wellScoped_map : ∀ (c : Surroundings) (b : Block α),
    (b.map f).WellScoped globals c ↔ b.WellScoped globals c
  | c, .mk m ss => by
    have hl := (Block.mk m ss).lexicals_map f
    simp only [Block.map] at hl
    simp only [Block.map, Block.WellScoped, hl, c.enter_map, Stmt.areWellScoped_map _ ss,
      Lexical.names_map]

theorem Stmt.wellScoped_map : ∀ (c : Surroundings) (s : Stmt α),
    (s.map f).WellScoped globals c ↔ s.WellScoped globals c
  | _, .declaration _ _ _ none | _, .ret _ none | _, .brk _ | _, .cont _ | _, .unknown .. => Iff.rfl
  | c, .declaration _ _ _ (some e) | c, .expression _ e | c, .ret _ (some e) => by
    simp only [Stmt.map, Stmt.WellScoped, e.wellScoped_map c]
  | c, .assignment _ (.name ..) v => by
    simp only [Stmt.map, Expr.map, Stmt.WellScoped, v.wellScoped_map c]
  | c, .assignment _ (.index _ b i) v => by
    simp only [Stmt.map, Expr.map, Stmt.WellScoped, b.wellScoped_map c, i.wellScoped_map c,
      v.wellScoped_map c]
  | _, .assignment _ (.literal ..) _ | _, .assignment _ (.unary ..) _
  | _, .assignment _ (.binary ..) _ | _, .assignment _ (.call ..) _ | _, .assignment _ (.array ..) _
  | _, .assignment _ (.function ..) _ | _, .assignment _ (.signal _ _ none) _
  | _, .assignment _ (.signal _ _ (some _)) _ | _, .assignment _ (.signalIs ..) _
  | _, .assignment _ (.signalValue ..) _
  | _, .assignment _ (.unknown ..) _ => Iff.rfl
  | c, .block b => by simp only [Stmt.map, Stmt.WellScoped, b.wellScoped_map c]
  | c, .branch _ e t none => by
    simp only [Stmt.map, Stmt.WellScoped, e.wellScoped_map c, t.wellScoped_map c]
  | c, .branch _ e t (some g) => by
    simp only [Stmt.map, Stmt.WellScoped, e.wellScoped_map c, t.wellScoped_map c,
      g.wellScoped_map c]
  | c, .loop _ h b => by
    simp only [Stmt.map, Stmt.WellScoped, h.wellScoped_map c, c.enter_lexical?_map f h,
      b.wellScoped_map _]

theorem Stmt.areWellScoped_map : ∀ (c : Surroundings) (ss : List (Stmt α)),
    Stmt.AreWellScoped globals c (Stmt.mapList f ss) ↔ Stmt.AreWellScoped globals c ss
  | _, [] => Iff.rfl
  | c, s :: ss => by
    simp only [Stmt.mapList, Stmt.AreWellScoped, s.wellScoped_map c, Stmt.areWellScoped_map c ss]

theorem Stmt.wellScoped_mapClause : ∀ (c : Surroundings) (o : Option (Stmt α)) {s : Stmt α},
    o = some s → ((s.map f).WellScoped globals c ↔ s.WellScoped globals c)
  | c, some s, _, rfl => s.wellScoped_map c

theorem Expr.wellScoped_mapClause : ∀ (c : Surroundings) (o : Option (Expr α)) {e : Expr α},
    o = some e → ((e.map f).WellScoped globals c ↔ e.WellScoped globals c)
  | c, some e, _, rfl => e.wellScoped_map c

theorem Header.wellScoped_map : ∀ (c : Surroundings) (h : Header α),
    (h.map f).WellScoped globals c ↔ h.WellScoped globals c
  | c, .whileTrue _ e => by simp only [Header.map, Header.WellScoped, e.wellScoped_map c]
  | c, .counting a i e u => by
    have hl := c.enter_lexical?_map f (.counting a i e u)
    rw [Header.map_counting] at hl ⊢
    rw [Header.wellScoped_counting, Header.wellScoped_counting, hl]
    exact and_congr (forall_clause_map fun _ => Stmt.wellScoped_mapClause _ i)
      (and_congr (forall_clause_map fun _ => Expr.wellScoped_mapClause _ e)
        (forall_clause_map fun _ => Stmt.wellScoped_mapClause _ u))
  | c, .forOf _ _ none e | c, .forOf _ _ (some _) e => by
    simp only [Header.map, Header.WellScoped, e.wellScoped_map c]
  | _, .unknown .. => Iff.rfl

end

/-- Marks do not matter for the rules on a function. -/
theorem FunctionDef.wellScoped_map (fn : FunctionDef α) :
    (fn.map f).WellScoped globals ↔ fn.WellScoped globals := by
  obtain ⟨a, name, ps, m, ss⟩ := fn
  have hc := Surroundings.outermost.function_map f ps (Block.mk m ss)
  change DistinctNames ps ((Block.mk m ss).map f) ∧ Stmt.AreWellScoped globals
    (Surroundings.outermost.function ps ((Block.mk m ss).map f)) (Stmt.mapList f ss) ↔ _
  rw [hc]
  exact and_congr (DistinctNames.map_iff f) (Stmt.areWellScoped_map f _ ss)

end Map

/-- Numbers do not matter for the rules on a function. -/
theorem FunctionDef.wellScoped_number (fn : FunctionDef Span) :
    fn.number.WellScoped globals ↔ fn.WellScoped globals := by
  have h : (fn.number.map Mark.span).WellScoped globals ↔ _ :=
    FunctionDef.wellScoped_map Mark.span fn.number
  rw [fn.number_map] at h
  exact h.symm

end FlatScope
