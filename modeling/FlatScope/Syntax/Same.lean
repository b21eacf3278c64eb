import FlatScope.Syntax

/-!
# Sameness of trees

Two trees are the same if they have the same shape, names and marks, and constants of equal value:
the constants `1`, `1.0` and `true` count as equal here.
-/

namespace FlatScope

/-- A constant that counts as a number. -/
def Literal.numeric? : Literal → Option Number
  | .bool b => some (.int (if b then 1 else 0))
  | .number n => some n
  | _ => none

/-- Constants of equal value. A NaN is the same as itself. -/
def Literal.same (a b : Literal) : Bool :=
  match a.numeric?, b.numeric? with
  | some m, some n => m.alike n
  | _, _ => a = b

variable {α : Type} [DecidableEq α]

mutual

/-- Whether two expressions are the same tree, marks included. -/
def Expr.same : Expr α → Expr α → Bool
  | .literal a v, .literal b w => a = b && v.same w
  | .name a n, .name b m => a = b && n = m
  | .unary a o e, .unary b p f => a = b && o = p && e.same f
  | .binary a o l r, .binary b p l' r' => a = b && o = p && l.same l' && r.same r'
  | .call a f es, .call b g fs => a = b && f.same g && Expr.sameList es fs
  | .array a es, .array b fs => a = b && Expr.sameList es fs
  | .index a e i, .index b f j => a = b && e.same f && i.same j
  | .function a ps e, .function b qs f => a = b && ps = qs && e.same f
  | .signal a k v, .signal b l w =>
    a = b && k = l && Expr.sameOption v w
  | .signalIs a e k, .signalIs b f l => a = b && k = l && e.same f
  | .signalValue a e, .signalValue b f => a = b && e.same f
  | .unknown a n, .unknown b m => a = b && n = m
  | _, _ => false
termination_by structural x => x

def Expr.sameList : List (Expr α) → List (Expr α) → Bool
  | [], [] => true
  | e :: es, f :: fs => e.same f && Expr.sameList es fs
  | _, _ => false
termination_by structural x => x

def Expr.sameOption : Option (Expr α) → Option (Expr α) → Bool
  | none, none => true
  | some a, some b => a.same b
  | _, _ => false
termination_by structural x => x

/-- Whether two blocks are the same tree, marks included. -/
def Block.same : Block α → Block α → Bool
  | .mk a ss, .mk b ts => a = b && Stmt.sameList ss ts
termination_by structural x => x

def Block.sameOption : Option (Block α) → Option (Block α) → Bool
  | none, none => true
  | some a, some b => a.same b
  | _, _ => false
termination_by structural x => x

/-- Whether two statements are the same tree, marks included. -/
def Stmt.same : Stmt α → Stmt α → Bool
  | .declaration a n k v, .declaration b m l w =>
    a = b && n = m && k = l && Expr.sameOption v w
  | .assignment a t v, .assignment b u w => a = b && t.same u && v.same w
  | .expression a e, .expression b f => a = b && e.same f
  | .block b, .block c => b.same c
  | .branch a c t e, .branch b d u f =>
    a = b && c.same d && t.same u && Block.sameOption e f
  | .loop a h b, .loop c i d => a = c && h.same i && b.same d
  | .ret a v, .ret b w =>
    a = b && Expr.sameOption v w
  | .brk a, .brk b => a = b
  | .cont a, .cont b => a = b
  | .unknown a n, .unknown b m => a = b && n = m
  | _, _ => false
termination_by structural x => x

def Stmt.sameList : List (Stmt α) → List (Stmt α) → Bool
  | [], [] => true
  | s :: ss, t :: ts => s.same t && Stmt.sameList ss ts
  | _, _ => false
termination_by structural x => x

def Stmt.sameOption : Option (Stmt α) → Option (Stmt α) → Bool
  | none, none => true
  | some a, some b => a.same b
  | _, _ => false
termination_by structural x => x

/-- Whether two loop headers are the same tree, marks included. -/
def Header.same : Header α → Header α → Bool
  | .whileTrue a c, .whileTrue b d => a = b && c.same d
  | .counting a i c u, .counting b j d v =>
    a = b && Stmt.sameOption i j && Expr.sameOption c d && Stmt.sameOption u v
  | .forOf a n k e, .forOf b m l f => a = b && n = m && k = l && e.same f
  | .unknown a n, .unknown b m => a = b && n = m
  | _, _ => false
termination_by structural x => x

end

end FlatScope
