import FlatScope.Syntax

/-!
# Changing the marks of a tree

`map f` puts `f a` in the place of every mark `a` and keeps everything else, so `map` to a type
with one element forgets the marks: two trees are equal up to their marks if they become equal.
-/

namespace FlatScope

variable {α β : Type}

mutual

/-- An expression with `f` applied to the marks of all its nodes. -/
def Expr.map (f : α → β) : Expr α → Expr β
  | .literal a v => .literal (f a) v
  | .name a n => .name (f a) n
  | .unary a op e => .unary (f a) op (e.map f)
  | .binary a op l r => .binary (f a) op (l.map f) (r.map f)
  | .call a g args => .call (f a) (g.map f) (Expr.mapList f args)
  | .array a es => .array (f a) (Expr.mapList f es)
  | .index a b i => .index (f a) (b.map f) (i.map f)
  | .function a ps b => .function (f a) ps (b.map f)
  | .signal a k v =>
    .signal (f a) k (match v with
      | none => none
      | some e => some (e.map f))
  | .signalIs a s k => .signalIs (f a) (s.map f) k
  | .signalValue a s => .signalValue (f a) (s.map f)
  | .unknown a n => .unknown (f a) n

/-- A list of expressions with `f` applied to all marks. -/
def Expr.mapList (f : α → β) : List (Expr α) → List (Expr β)
  | [] => []
  | e :: es => e.map f :: Expr.mapList f es

/-- A block with `f` applied to the marks of all its nodes. -/
def Block.map (f : α → β) : Block α → Block β
  | .mk a ss => .mk (f a) (Stmt.mapList f ss)

/-- A statement with `f` applied to the marks of all its nodes. -/
def Stmt.map (f : α → β) : Stmt α → Stmt β
  | .declaration a n k v =>
    .declaration (f a) n k (match v with
      | none => none
      | some e => some (e.map f))
  | .assignment a t v => .assignment (f a) (t.map f) (v.map f)
  | .expression a e => .expression (f a) (e.map f)
  | .block b => .block (b.map f)
  | .branch a c t e =>
    .branch (f a) (c.map f) (t.map f) (match e with
      | none => none
      | some b => some (b.map f))
  | .loop a h b => .loop (f a) (h.map f) (b.map f)
  | .ret a v =>
    .ret (f a) (match v with
      | none => none
      | some e => some (e.map f))
  | .brk a => .brk (f a)
  | .cont a => .cont (f a)
  | .unknown a n => .unknown (f a) n

/-- A list of statements with `f` applied to all marks. -/
def Stmt.mapList (f : α → β) : List (Stmt α) → List (Stmt β)
  | [] => []
  | s :: ss => s.map f :: Stmt.mapList f ss

/-- A loop header with `f` applied to the marks of all its nodes. -/
def Header.map (f : α → β) : Header α → Header β
  | .whileTrue a c => .whileTrue (f a) (c.map f)
  | .counting a i c u =>
    .counting (f a)
      (match i with
        | none => none
        | some s => some (s.map f))
      (match c with
        | none => none
        | some e => some (e.map f))
      (match u with
        | none => none
        | some s => some (s.map f))
  | .forOf a n k e => .forOf (f a) n k (e.map f)
  | .unknown a n => .unknown (f a) n

end

/-- A function with `f` applied to the marks of its definition and of its body. -/
def FunctionDef.map (f : α → β) (fn : FunctionDef α) : FunctionDef β :=
  ⟨f fn.mark, fn.name, fn.params, fn.body.map f⟩

/-- A program with `f` applied to the marks of all its functions. -/
def Program.map (f : α → β) (p : Program α) : Program β :=
  ⟨p.functions.map (FunctionDef.map f), Stmt.mapList f p.statements⟩

end FlatScope
