import FlatScope.Proofs.Marks
import FlatScope.Proofs.Run.Visits
import FlatScope.Proofs.Safety.Errors
import FlatScope.Proofs.Safety.Frames

/-!
# Well-scoped pieces of a program

A `Setting` says which functions a program is made of and which moments its runs come to. In it, a
frame is *made* for a scope if it is made when the run enters the function, the block or the loop of
that number (`Setting.Made`).

A piece of code is *well-scoped* in a store if its names are resolved in some scope, and the frame
that it runs in stands for that scope (`Setting.Holds`); a store is *good* if all of its closures
are well-scoped functions (`Setting.Good`).
-/

namespace FlatScope

/-- A node whose operators are those of the language, and that does not look into a signal. -/
def Node.Plain {α : Type} : Node α → Prop
  | .expr (.unary _ op _) => ∀ t, op ≠ .other t
  | .expr (.binary _ op _ _) => ∀ t, op ≠ .other t
  | .expr (.signalValue ..) => False
  | _ => True

/-- A block or header that declares no `let` or `const`; any other node. -/
def Node.Level : Node Mark → Prop
  | .block b => b.lexicals = []
  | .header h => Resolve.headerLexical? h = none
  | _ => True

/-- A function, or one nested in it, by its number. -/
inductive FunctionDef.Has (fn : FunctionDef Mark) : NodeId → List Name → Block Mark → Prop
  | itself : Has fn fn.mark.id fn.params fn.body
  | nested {m : Mark} {ps : List Name} {b : Block Mark} (h : .expr (.function m ps b) ∈ fn.nodes) :
    Has fn m.id ps b

theorem FunctionDef.Has.nodes {fn : FunctionDef Mark} {id : NodeId} {ps : List Name}
    {b : Block Mark} (h : fn.Has id ps b) : ∀ x ∈ b.nodes, x ∈ fn.nodes := by
  cases h with
  | itself => exact fun x hx => List.mem_cons_of_mem _ hx
  | nested h =>
    exact fun x hx => (Node.nodes_sublist (x := .function fn) h).subset (List.mem_cons_of_mem _ hx)

/-- What an assignment may assign to. -/
def Scoping.ResolvedTarget (a : Scoping) (globals : List Name) (sc : ScopeId) : Expr Mark → Prop
  | .name m n => a.Refers globals sc m.id n true
  | .index _ b i => a.ResolvedExpr globals sc b ∧ a.ResolvedExpr globals sc i
  | _ => False

namespace Eval

/-- To run the piece is to call the function, or to run the block or loop, with the number. -/
def Task.Enters (fn : FunctionDef Mark) (id : NodeId) : Task → Prop
  | .callClosure c _ => ∃ b, fn.Has id c.params b ∧ b.map Mark.span = c.body
  | .block b _ => ∃ x : Block Mark, .block x ∈ fn.nodes ∧ x.mark.id = id ∧ x.map Mark.span = b
  | .loop h b _ => ∃ m x y, .stmt (.loop m x y) ∈ fn.nodes ∧ m.id = id ∧ x.map Mark.span = h ∧
    y.map Mark.span = b
  | .countingLoop _ c u b _ => ∃ m k i e v y, .stmt (.loop m (.counting k i e v) y) ∈ fn.nodes ∧
    m.id = id ∧ e.map (Expr.map Mark.span) = c ∧ v.map (Stmt.map Mark.span) = u ∧
    y.map Mark.span = b
  | .forOfLoop _ _ n d b _ => ∃ m k e y, .stmt (.loop m (.forOf k n d e) y) ∈ fn.nodes ∧ m.id = id ∧
    y.map Mark.span = b
  | _ => False

/-- The functions of a program with what their names mean, and the moments that its runs come to. -/
structure Setting where
  globals : List Name
  code : FunctionDef Mark → Scoping → Prop
  visited : Point → Prop
  /-- Whether the code is as it is read. -/
  plain : Prop
  /-- Whether functions are the only scopes. -/
  level : Prop
  starts : ∀ {p q}, visited p → Starts p q → visited q
  consistent : ∀ {fn a}, code fn a → a.Consistent
  constants : ∀ {fn a}, code fn a → a.KeepsConstants
  known : ∀ {fn a}, code fn a → ∀ n ∈ a.globalsUsed, n ∈ globals
  plainly : plain → ∀ {fn a}, code fn a → ∀ x ∈ fn.nodes, x.Plain
  levelly : level → ∀ {fn a}, code fn a → ∀ x ∈ fn.nodes, x.Level

namespace Setting

variable (S : Setting)

/-- In the course of a run, the frame is made for the function, block or loop with the number. -/
def Made (fn : FunctionDef Mark) (id : ScopeId) (f : FrameId) : Prop :=
  ∃ p q, S.visited p ∧ Starts p q ∧ p.task.Enters fn id ∧ q.task.env? = some f ∧
    p.store.frames.size ≤ f

/-- Some code of a function stands in a scope, and the frame stands for that scope. -/
structure Holds (s : Store) (fn : FunctionDef Mark) (a : Scoping) (sc : ScopeId) (f : FrameId)
    (ns : List (Node Mark)) : Prop where
  code : S.code fn a
  nodes : ∀ x ∈ ns, x ∈ fn.nodes
  stands : s.Stands a (S.Made fn) sc f

/-! ## Pieces -/

/-- A well-scoped expression. -/
def IsExpr (s : Store) (f : FrameId) (e : Expr Span) : Prop :=
  ∃ fn a sc x, S.Holds s fn a sc f x.nodes ∧ a.ResolvedExpr S.globals sc x ∧ x.map Mark.span = e

def AreExprs (s : Store) (f : FrameId) (es : List (Expr Span)) : Prop :=
  ∃ fn a sc xs, S.Holds s fn a sc f (Expr.nodesOfList xs) ∧ a.ResolvedExprs S.globals sc xs ∧
    Expr.mapList Mark.span xs = es

/-- What a well-scoped assignment assigns to. -/
def IsTarget (s : Store) (f : FrameId) (e : Expr Span) : Prop :=
  ∃ fn a sc x, S.Holds s fn a sc f x.nodes ∧ a.ResolvedTarget S.globals sc x ∧ x.map Mark.span = e

/-- A well-scoped block; `jumps` says whether a loop of the same function is around it. -/
def IsBlock (s : Store) (jumps : Bool) (f : FrameId) (b : Block Span) : Prop :=
  ∃ fn a fs sc x, S.Holds s fn a sc f x.nodes ∧ a.ResolvedBlock S.globals fs sc jumps x ∧
    x.map Mark.span = b

def AreStmts (s : Store) (jumps : Bool) (f : FrameId) (ss : List (Stmt Span)) : Prop :=
  ∃ fn a fs sc xs, S.Holds s fn a sc f (Stmt.nodesOfList xs) ∧
    a.ResolvedStmts S.globals fs sc jumps xs ∧ Stmt.mapList Mark.span xs = ss

def IsStmt (s : Store) (jumps : Bool) (f : FrameId) (b : Stmt Span) : Prop :=
  ∃ fn a fs sc x, S.Holds s fn a sc f x.nodes ∧ a.ResolvedStmt S.globals fs sc jumps x ∧
    x.map Mark.span = b

/-- A well-scoped loop, and the frame in which it runs. -/
structure Loops (s : Store) (fn : FunctionDef Mark) (a : Scoping) (fs sc : ScopeId) (m : Mark)
    (h : Header Mark) (b : Block Mark) (f : FrameId) : Prop where
  holds : S.Holds s fn a sc f []
  node : .stmt (.loop m h b) ∈ fn.nodes
  opens : a.OpensLoop m.id h sc
  header : a.ResolvedHeader S.globals fs sc m.id h
  body : a.ResolvedBlock S.globals fs (h.scopeIn m.id sc) true b

/-- A frame of the variable of a loop, in the frame around the loop. -/
structure Turns (s : Store) (fn : FunctionDef Mark) (a : Scoping) (loop : ScopeId) (f g : FrameId) :
    Prop where
  frame : ∃ fr, s.frames[g]? = some fr ∧ fr.parent = some f ∧ fr.Opens a loop
  stands : s.Stands a (S.Made fn) loop g

/-- The rounds of a well-scoped `for` that counts. With `copies`, every round has a frame of its
    own. -/
def IsCounting (s : Store) (fn : FunctionDef Mark) (m : Mark) (copies : Bool)
    (c : Option (Expr Span)) (u : Option (Stmt Span)) (b : Block Span) (g : FrameId) : Prop :=
  ∃ a fs sc k i e v y f, S.Loops s fn a fs sc m (.counting k i e v) y f ∧
    e.map (Expr.map Mark.span) = c ∧ v.map (Stmt.map Mark.span) = u ∧ y.map Mark.span = b ∧
    (Resolve.headerLexical? (.counting k i e v)).isSome = copies ∧
    if copies then S.Turns s fn a m.id f g else g = f

/-- A closure is a well-scoped function, or it does nothing. -/
inductive Represents (s : Store) (c : Closure) : Prop
  | nothing (h : c = default)
  | code {fn : FunctionDef Mark} {a : Scoping} {id : ScopeId} {b : Block Mark}
    {parent : Option ScopeId}
    (known : S.code fn a) (has : fn.Has id c.params b) (body : b.map Mark.span = c.body)
    (opens : a.OpensFunction id c.params b parent)
    (resolved : a.ResolvedStmts S.globals id id false b.statements)
    (frame : c.frame < s.frames.size)
    (around : ∀ sc, parent = some sc → s.Stands a (S.Made fn) sc c.frame)
    (outermost : parent = none → c.frame = globalFrame)

/-- What holds of the stores of a run. -/
structure Good (s : Store) : Prop where
  nested : s.Nested
  globals : ∀ n ∈ S.globals, s.Finds n globalFrame globalFrame
  outermost : ∀ {n c}, s.cell? globalFrame n = some c → c.const = false
  closures : ∀ {i : Nat} {c}, s.closures[i]? = some c → S.Represents s c
  level : S.level → ∀ {f n c}, s.cell? f n = some c → c.content.isSome

/-- A well-scoped piece. -/
def Fits (s : Store) (jumps : Bool) : Task → Prop
  | .expr e f => S.IsExpr s f e
  | .exprs es f => S.AreExprs s f es
  | .call .. => True
  | .callClosure c _ => S.Represents s c
  | .stmts ss f => ss = [] ∨ S.AreStmts s jumps f ss
  | .block b f => S.IsBlock s jumps f b
  | .stmt x f => S.IsStmt s jumps f x
  | .assign x _ f => S.IsTarget s f x
  | .loop h b f => ∃ fn a fs sc m x y, S.Loops s fn a fs sc m x y f ∧ x.map Mark.span = h ∧
    y.map Mark.span = b
  | .whileLoop c b f => S.IsExpr s f c ∧ S.IsBlock s true f b
  | .countingLoop copies c u b f => ∃ fn m, S.IsCounting s fn m copies c u b f
  | .condition c f => ∀ e, c = some e → S.IsExpr s f e
  | .update u f => ∀ x, u = some x → S.IsStmt s false f x
  | .forOfLoop _ _ n d b f => ∃ fn a fs sc m k e y, S.Loops s fn a fs sc m (.forOf k n d e) y f ∧
    y.map Mark.span = b

variable {S} {s t : Store} {fn : FunctionDef Mark} {a : Scoping} {fs sc loop : ScopeId}
    {f g : FrameId}
  {ns ms : List (Node Mark)} {jumps : Bool}

/-! ## Later stores -/

namespace Holds

theorem later (h : S.Holds s fn a sc f ns) (hl : s.Later t) : S.Holds t fn a sc f ns :=
  ⟨h.code, h.nodes, h.stands.later hl⟩

/-- Some of the nodes. -/
theorem sub (h : S.Holds s fn a sc f ns) (hs : ∀ x ∈ ms, x ∈ ns) : S.Holds s fn a sc f ms :=
  ⟨h.code, fun x hx => h.nodes x (hs x hx), h.stands⟩

end Holds

theorem IsExpr.later {e : Expr Span} (h : S.IsExpr s f e) (hl : s.Later t) : S.IsExpr t f e := by
  obtain ⟨fn, a, sc, x, hh, hr, hx⟩ := h
  exact ⟨fn, a, sc, x, hh.later hl, hr, hx⟩

theorem AreExprs.later {es : List (Expr Span)} (h : S.AreExprs s f es) (hl : s.Later t) :
    S.AreExprs t f es := by
  obtain ⟨fn, a, sc, x, hh, hr, hx⟩ := h
  exact ⟨fn, a, sc, x, hh.later hl, hr, hx⟩

theorem IsTarget.later {e : Expr Span} (h : S.IsTarget s f e) (hl : s.Later t) :
    S.IsTarget t f e := by
  obtain ⟨fn, a, sc, x, hh, hr, hx⟩ := h
  exact ⟨fn, a, sc, x, hh.later hl, hr, hx⟩

theorem IsBlock.later {b : Block Span} (h : S.IsBlock s jumps f b) (hl : s.Later t) :
    S.IsBlock t jumps f b := by
  obtain ⟨fn, a, fs, sc, x, hh, hr, hx⟩ := h
  exact ⟨fn, a, fs, sc, x, hh.later hl, hr, hx⟩

theorem AreStmts.later {ss : List (Stmt Span)} (h : S.AreStmts s jumps f ss) (hl : s.Later t) :
    S.AreStmts t jumps f ss := by
  obtain ⟨fn, a, fs, sc, x, hh, hr, hx⟩ := h
  exact ⟨fn, a, fs, sc, x, hh.later hl, hr, hx⟩

theorem IsStmt.later {x : Stmt Span} (h : S.IsStmt s jumps f x) (hl : s.Later t) :
    S.IsStmt t jumps f x := by
  obtain ⟨fn, a, fs, sc, x, hh, hr, hx⟩ := h
  exact ⟨fn, a, fs, sc, x, hh.later hl, hr, hx⟩

theorem Loops.later {m : Mark} {h : Header Mark} {b : Block Mark}
    (hL : S.Loops s fn a fs sc m h b f) (hl : s.Later t) : S.Loops t fn a fs sc m h b f :=
  ⟨hL.holds.later hl, hL.node, hL.opens, hL.header, hL.body⟩

theorem Turns.later (h : S.Turns s fn a loop f g) (hl : s.Later t) : S.Turns t fn a loop f g where
  frame := Store.opens_later hl h.frame
  stands := h.stands.later hl

theorem IsCounting.later {m : Mark} {copies : Bool} {c : Option (Expr Span)}
    {u : Option (Stmt Span)} {b : Block Span} (h : S.IsCounting s fn m copies c u b g)
    (hl : s.Later t) : S.IsCounting t fn m copies c u b g := by
  obtain ⟨a, fs, sc, k, i, e, v, y, f, hL, he, hv, hy, hlex, hg⟩ := h
  refine ⟨a, fs, sc, k, i, e, v, y, f, hL.later hl, he, hv, hy, hlex, ?_⟩
  cases copies with
  | true => exact Turns.later hg hl
  | false => exact hg

theorem Represents.later {c : Closure} (h : S.Represents s c) (hl : s.Later t) :
    S.Represents t c := by
  cases h with
  | nothing h => exact .nothing h
  | code known has body opens resolved frame around outermost =>
    exact .code known has body opens resolved (hl.lt frame)
      (fun sc hsc => (around sc hsc).later hl) outermost

/-- What is well-scoped stays so. -/
theorem Fits.later {p : Task} (h : S.Fits s jumps p) (hl : s.Later t) : S.Fits t jumps p := by
  cases p with
  | expr => exact IsExpr.later h hl
  | exprs => exact AreExprs.later h hl
  | call => trivial
  | callClosure => exact Represents.later h hl
  | stmts => exact Or.imp id (AreStmts.later · hl) h
  | block => exact IsBlock.later h hl
  | stmt => exact IsStmt.later h hl
  | assign => exact IsTarget.later h hl
  | loop =>
    obtain ⟨fn, a, fs, sc, m, x, y, hL, hxy⟩ := h
    exact ⟨fn, a, fs, sc, m, x, y, hL.later hl, hxy⟩
  | whileLoop => exact ⟨h.1.later hl, h.2.later hl⟩
  | countingLoop =>
    obtain ⟨fn, m, hc⟩ := h
    exact ⟨fn, m, hc.later hl⟩
  | condition => exact fun e he => (h e he).later hl
  | update => exact fun x hx => (h x hx).later hl
  | forOfLoop =>
    obtain ⟨fn, a, fs, sc, m, k, e, y, hL, hy⟩ := h
    exact ⟨fn, a, fs, sc, m, k, e, y, hL.later hl, hy⟩

end Setting

end Eval

end FlatScope
