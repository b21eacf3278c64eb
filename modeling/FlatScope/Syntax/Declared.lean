import FlatScope.Syntax

/-!
# The declarations of a piece of code

A `var` belongs to the whole function around it, wherever in its blocks and loops it is declared;
nested functions have their own. A `let` or `const` belongs to the block that it is a direct
statement of.
-/

namespace FlatScope

variable {α : Type}

mutual

/-- The names that a statement declares as `var`s, with their marks, in the order of the text and
    without those of nested functions. The last clause of a `for` declares nothing. -/
def Stmt.vars : Stmt α → List (Name × α)
  | .declaration a n .var _ => [(n, a)]
  | .block b => b.vars
  | .branch _ _ t e =>
    t.vars ++ (match e with
      | none => []
      | some b => b.vars)
  | .loop _ h b => h.vars ++ b.vars
  | _ => []

/-- The names that statements declare as `var`s, with their marks. -/
def Stmt.varsOfList : List (Stmt α) → List (Name × α)
  | [] => []
  | s :: ss => s.vars ++ Stmt.varsOfList ss

/-- The names that the statements of a block declare as `var`s, with their marks. -/
def Block.vars : Block α → List (Name × α)
  | .mk _ ss => Stmt.varsOfList ss

/-- The names that the header of a loop declares as `var`s, with their marks. -/
def Header.vars : Header α → List (Name × α)
  | .counting _ (some i) _ _ => i.vars
  | .forOf a n (some .var) _ => [(n, a)]
  | _ => []

end

/-- A `let` or `const` among the statements of a block. -/
structure Lexical (α : Type) where
  mark : α
  name : Name
  kind : DeclKind

/-- The declaration of a `let` or `const` that a statement is. -/
def Stmt.lexical? : Stmt α → Option (Lexical α)
  | .declaration a n k _ => if k.isBlockScoped then some ⟨a, n, k⟩ else none
  | _ => none

/-- The `let`s and `const`s among the statements of a block. -/
def Block.lexicals (b : Block α) : List (Lexical α) := b.statements.filterMap Stmt.lexical?

end FlatScope
