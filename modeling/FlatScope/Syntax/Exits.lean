import FlatScope.Syntax

/-!
# Early exits of a piece of code

A `return` leaves every piece of code around it; a `break` or `continue` leaves a piece that the
loop it is for is not part of. The statements of nested functions are no part of the code.
-/

namespace FlatScope

variable {α : Type}

mutual

/-- Whether a statement may be left by the given exit; `inLoop` says whether a loop of the piece of
    code is around it. -/
def Stmt.mayExit (e : Exit) (inLoop : Bool) : Stmt α → Bool
  | .ret .. => e == .ret
  | .brk _ => e == .brk && !inLoop
  | .cont _ => e == .cont && !inLoop
  | .block b => b.mayExitIn e inLoop
  | .branch _ _ t f =>
    t.mayExitIn e inLoop || (match f with
      | none => false
      | some b => b.mayExitIn e inLoop)
  | .loop _ _ b => b.mayExitIn e true
  | _ => false

def Stmt.mayExitList (e : Exit) (inLoop : Bool) : List (Stmt α) → Bool
  | [] => false
  | s :: ss => s.mayExit e inLoop || Stmt.mayExitList e inLoop ss

/-- Whether a block may be left by the given exit. -/
def Block.mayExitIn (e : Exit) (inLoop : Bool) : Block α → Bool
  | .mk _ ss => Stmt.mayExitList e inLoop ss

end

/-- The exits by which statements may be left. -/
def Stmt.exits (ss : List (Stmt α)) : List Exit := Exit.all.filter (Stmt.mayExitList · false ss)

/-- The exits by which a block may be left. -/
def Block.exits (b : Block α) : List Exit := Stmt.exits b.statements

end FlatScope
