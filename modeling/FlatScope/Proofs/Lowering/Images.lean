import FlatScope.Proofs.Lowering.Lowered
import FlatScope.Proofs.Lowering.Steps
import FlatScope.Syntax.Map

/-!
# What the names in lowered code mean

The names of a lowered function can be resolved like those of any function. A `Reading` is a
resolved function and what its bindings are for: to hold a binding of the function that was lowered,
to be the driver of one, or to take a signal or the wrapper of a loop.

`ImagesExpr` and its companions say, by recursion over a piece of code, that every declaration and
every use of a name has its image in the lowered code where the lowering puts it, and that the image
is resolved to the variable for what the name means: in the header of the binding's own loop to the
driver, elsewhere to the variable or parameter that holds it. What is from outside of the function
still is.
-/

namespace FlatScope

/-- A resolved function and what its bindings are for. -/
structure Reading where
  scoping : Scoping
  role : BindingId → Role

namespace Reading

variable (R : Reading)

/-- A name of a scope is that of a variable of the scope, for the given role. -/
def Binds (sc : ScopeId) (x : Name) (ρ : Role) : Prop :=
  ∃ b, R.scoping.lookup? sc x = some b ∧ b.scope = sc ∧ R.role b.id = ρ

/-- A node declares a variable for the given role. -/
def Declares (node : NodeId) (ρ : Role) : Prop :=
  ∃ b, R.scoping.declared? node = some b ∧ R.role b.id = ρ

/-- A node uses a variable for the given role. -/
def Refers (node : NodeId) (ρ : Role) : Prop :=
  ∃ u b, R.scoping.referenceAt? node = some u ∧ u.binding = some b ∧ R.role b = ρ

/-- A node uses what is from outside of the function. -/
def Leaves (node : NodeId) : Prop :=
  ∃ u, R.scoping.referenceAt? node = some u ∧ u.binding = none

end Reading

namespace LoweringPlan

variable (p : LoweringPlan) (R : Reading)

/-- A node of the lowered code uses what the node `i` does. -/
def ImagesUse (r : Region) (i j : NodeId) : Prop :=
  ∃ u, p.analysis.scoping.referenceAt? i = some u ∧
    (∀ b, u.binding = some b → R.Refers j (.holds (r.slot b))) ∧ (u.binding = none → R.Leaves j)

/-- The declaration of a binding, with its image. That of a `var` in a wrapper only assigns its
    value to the variable, which is declared at the top of the function. -/
def ImagesDeclaration (r : Region) (b : Binding) (value : Option (Expr Mark))
    (out : List (Stmt Mark)) : Prop :=
  if b.origin.isFunctionScoped && r.inWrapper then
    match value with
    | none => out = []
    | some v => ∃ k t, out = [.assignment k (.name t (p.nameOf r b.id)) v] ∧
      R.Refers t.id (.holds (r.slot b.id))
  else ∃ k v, out = [.declaration k (p.nameOf r b.id) .var v] ∧
    R.Declares k.id (.holds (r.slot b.id)) ∧
    match value with
    | none => v = none ∨ ∃ u, v = some (.literal u .undefined)
    | some e => v = some e

/-- The variable of a loop over a sequence, with its image. -/
def ImagesElement (r : Region) (i j : NodeId) (k k' : Option DeclKind) : Prop :=
  match k with
  | none => k' = none ∧ p.ImagesUse R r i j
  | some _ => ∃ b, p.analysis.scoping.declared? i = some b ∧
    if b.origin.isFunctionScoped && r.inWrapper then
      k' = none ∧ R.Refers j (.holds (r.slot b.id))
    else k' = some .var ∧ R.Declares j (.holds (r.slot b.id))

/-- The call of a wrapper among statements that are no images. -/
def ImagesCall (r : Region) (exits : List Exit) (site : CallSite) (span : Span) (call : Expr Mark)
    (out : List (Stmt Mark)) : Prop :=
  if exits.isEmpty then ∃ k, out = [.expression k call]
  else ∃ k sig rest, out = .declaration k sig .var (some call) :: rest ∧
    Stmt.mapList Mark.span rest = site.handlers sig exits r.writeBacks span ∧
    R.Declares k.id .signal

/-- A loop that calls a wrapper, which is made before the loop or in the call. -/
def ImagesLoop (r : Region) (m : Mark) (exits : List Exit) (drivers : List (BindingId × Name))
    (h' : Header Mark) (wrapper : Expr Mark) (out : List (Stmt Mark)) : Prop :=
  ∃ l c k args call, Expr.mapList Mark.span args = loopArgs m drivers ∧
    if (p.loopPlan m.id).hoist then ∃ d f name ps code,
      out = [.declaration d name .var (some wrapper), .loop l h' (.mk c call)] ∧
      ImagesCall R r exits ⟨r.inWrapper, true⟩ m.span (.call k (.name f name) args) call ∧
      R.Declares d.id (.wrapper ps code)
    else out = [.loop l h' (.mk c call)] ∧
      ImagesCall R r exits ⟨r.inWrapper, true⟩ m.span (.call k wrapper args) call

mutual

/-- An expression and its image. -/
def ImagesExpr (r : Region) : Expr Mark → Expr Mark → Prop
  | .literal _ v, x => ∃ k, x = .literal k v
  | .name m n, x => ∃ k, x = .name k (p.refName r m.id n) ∧ p.ImagesUse R r m.id k.id
  | .unary _ op e, x => ∃ k e', ImagesExpr r e e' ∧ x = .unary k op e'
  | .binary _ op e f, x => ∃ k e' f', ImagesExpr r e e' ∧ ImagesExpr r f f' ∧ x = .binary k op e' f'
  | .call _ f args, x =>
    ∃ k f' args', ImagesExpr r f f' ∧ ImagesExprs r args args' ∧ x = .call k f' args'
  | .array _ es, x => ∃ k es', ImagesExprs r es es' ∧ x = .array k es'
  | .index _ b i, x => ∃ k b' i', ImagesExpr r b b' ∧ ImagesExpr r i i' ∧ x = .index k b' i'
  | .function m ps (.mk _ ss), x => ∃ k c hoisted top body,
    Stmt.mapList Mark.span top = p.hoistedDeclarations hoisted ∧
    (∀ ρ ∈ p.paramRoles m.id ps ++ hoisted.map p.ownRole, R.Binds k.id ρ.1 ρ.2) ∧
    ImagesStmts r.function ss body ∧ x = .function k ps (.mk c (top ++ body))
  | .signal .., _ | .signalIs .., _ | .signalValue .., _ | .unknown .., _ => False
termination_by structural e => e

def ImagesExprs (r : Region) : List (Expr Mark) → List (Expr Mark) → Prop
  | [], xs => xs = []
  | e :: es, xs => ∃ e' es', ImagesExpr r e e' ∧ ImagesExprs r es es' ∧ xs = e' :: es'
termination_by structural es => es

def ImagesStmts (r : Region) : List (Stmt Mark) → List (Stmt Mark) → Prop
  | [], out => out = []
  | s :: ss, out => ∃ o os, ImagesStmt r s o ∧ ImagesStmts r ss os ∧ out = o ++ os
termination_by structural ss => ss

/-- A block and its image. -/
def ImagesBlock (r : Region) : Block Mark → Block Mark → Prop
  | .mk m ss, x =>
    match p.analysis.wrapper? m.id with
    | none => ∃ k out, ImagesStmts r ss out ∧ x = .mk k out
    | some w => ∃ k l f c body ending call, ImagesStmts (r.wrapper []) ss body ∧
      Stmt.mapList Mark.span ending = Lower.wrapperCode w [] [] ∧
      ImagesCall R r w.exits r.site m.span
        (.call l (.function f [] (.mk c (body ++ ending))) []) call ∧
      x = .mk k call
termination_by structural b => b

/-- A statement and its image. -/
def ImagesStmt (r : Region) : Stmt Mark → List (Stmt Mark) → Prop
  | .declaration m _ _ none, out => ∃ b, p.analysis.scoping.declared? m.id = some b ∧
    p.ImagesDeclaration R r b none out
  | .declaration m _ _ (some e), out => ∃ b e', p.analysis.scoping.declared? m.id = some b ∧
    ImagesExpr r e e' ∧ p.ImagesDeclaration R r b (some e') out
  | .assignment _ t v, out => ∃ k t' v', ImagesExpr r t t' ∧ ImagesExpr r v v' ∧
    out = [.assignment k t' v']
  | .expression _ e, out => ∃ k e', ImagesExpr r e e' ∧ out = [.expression k e']
  | .block b, out => ∃ c, ImagesBlock r b c ∧
    out = if (p.analysis.wrapper? b.mark.id).isSome then c.statements else [.block c]
  | .branch _ c t none, out => ∃ k c' t', ImagesExpr r c c' ∧ ImagesBlock r t t' ∧
    out = [.branch k c' t' none]
  | .branch _ c t (some e), out => ∃ k c' t' e', ImagesExpr r c c' ∧ ImagesBlock r t t' ∧
    ImagesBlock r e e' ∧ out = [.branch k c' t' (some e')]
  | .loop m h (.mk _ ss), out =>
    match (p.loopPlan m.id).wrapper with
    | none => ∃ k c h' body, ImagesHeader r h h' ∧ ImagesStmts r.loopBody ss body ∧
      out = [.loop k h' (.mk c body)]
    | some w => ∃ drivers h' f c body ending, drivers.map (·.1) = (p.loopPlan m.id).fresh ∧
      ImagesHeader (r.loopHeader drivers) h h' ∧ ImagesStmts (p.loopRegion r m drivers) ss body ∧
      Stmt.mapList Mark.span ending =
        Lower.wrapperCode w (Lower.loopWriteBacks p (p.loopPlan m.id) drivers) [] ∧
      (∀ ρ ∈ (p.loopPlan m.id).fresh.map p.ownRole, R.Binds f.id ρ.1 ρ.2) ∧
      p.ImagesLoop R r m w.exits drivers h'
        (.function f (p.loopParams m) (.mk c (body ++ ending))) out
  | .ret m none, out =>
    Stmt.mapList Mark.span out = Lower.leave r .ret none m.span (.ret m.span none)
  | .ret _ (some e), out => ∃ k e', ImagesExpr r e e' ∧
    if r.inWrapper then ∃ l back, Stmt.mapList Mark.span back = writeBackStmts r.writeBacks ∧
      out = back ++ [.ret k (some (.signal l (some .ret) (some e')))]
    else out = [.ret k (some e')]
  | .brk m, out => Stmt.mapList Mark.span out =
    if r.inLoop then [.brk m.span] else Lower.leave r .brk none m.span (.brk m.span)
  | .cont m, out => Stmt.mapList Mark.span out =
    if r.inLoop then [.cont m.span] else Lower.leave r .cont none m.span (.cont m.span)
  | .unknown .., _ => False
termination_by structural s => s

/-- The header of a loop and its image. -/
def ImagesHeader (r : Region) : Header Mark → Header Mark → Prop
  | .whileTrue _ c, x => ∃ k c', ImagesExpr r c c' ∧ x = .whileTrue k c'
  | .counting _ i c u, x => ∃ k i' c' u',
    (match i with
      | none => i' = none
      | some s => ImagesStmt r s i'.toList) ∧
    (match c with
      | none => c' = none
      | some e => ∃ e', ImagesExpr r e e' ∧ c' = some e') ∧
    (match u with
      | none => u' = none
      | some s => ImagesStmt r s u'.toList) ∧
    x = .counting k i' c' u'
  | .forOf m _ k e, x => ∃ l n' k' e', ImagesExpr r e e' ∧ p.ImagesElement R r m.id l.id k k' ∧
    x = .forOf l n' k' e'
  | .unknown .., _ => False
termination_by structural h => h

end

/-- A function and its image. Its parameters and the variables declared at its top hold bindings. -/
def ImagesFunction (fn q : FunctionDef Mark) : Prop :=
  ∃ hoisted top body, Stmt.mapList Mark.span top = p.hoistedDeclarations hoisted ∧
    (∀ ρ ∈ p.paramRoles fn.mark.id fn.params ++ hoisted.map p.ownRole,
      R.Binds q.mark.id ρ.1 ρ.2) ∧
    p.ImagesStmts R .outermost fn.body.statements body ∧ q.name = fn.name ∧
    q.params = fn.params ∧ q.body.statements = top ++ body

section Cases

variable {p R} {r : Region}

/-- A block without a wrapper, and its image. -/
theorem imagesBlock_plain {m : Mark} {ss : List (Stmt Mark)} {x : Block Mark}
    (hw : p.analysis.wrapper? m.id = none) : p.ImagesBlock R r (.mk m ss) x ↔
      ∃ k out, p.ImagesStmts R r ss out ∧ x = .mk k out := by
  rw [ImagesBlock, hw]

/-- A block with a wrapper, and its image. -/
theorem imagesBlock_wrapped {m : Mark} {ss : List (Stmt Mark)} {x : Block Mark} {w : Wrapper}
    (hw : p.analysis.wrapper? m.id = some w) : p.ImagesBlock R r (.mk m ss) x ↔
      ∃ k l f c body ending call, p.ImagesStmts R (r.wrapper []) ss body ∧
        Stmt.mapList Mark.span ending = Lower.wrapperCode w [] [] ∧
        ImagesCall R r w.exits r.site m.span
          (.call l (.function f [] (.mk c (body ++ ending))) []) call ∧
        x = .mk k call := by
  rw [ImagesBlock, hw]

/-- A loop without a wrapper, and its image. -/
theorem imagesStmt_plainLoop {m b : Mark} {h : Header Mark} {ss : List (Stmt Mark)}
    {out : List (Stmt Mark)} (hw : (p.loopPlan m.id).wrapper = none) :
    p.ImagesStmt R r (.loop m h (.mk b ss)) out ↔ ∃ k c h' body, p.ImagesHeader R r h h' ∧
      p.ImagesStmts R r.loopBody ss body ∧ out = [.loop k h' (.mk c body)] := by
  rw [ImagesStmt, hw]

/-- A loop with a wrapper, and its image. -/
theorem imagesStmt_wrappedLoop {m b : Mark} {h : Header Mark} {ss : List (Stmt Mark)}
    {out : List (Stmt Mark)} {w : Wrapper} (hw : (p.loopPlan m.id).wrapper = some w) :
    p.ImagesStmt R r (.loop m h (.mk b ss)) out ↔ ∃ drivers h' f c body ending,
      drivers.map (·.1) = (p.loopPlan m.id).fresh ∧
      p.ImagesHeader R (r.loopHeader drivers) h h' ∧
      p.ImagesStmts R (p.loopRegion r m drivers) ss body ∧
      Stmt.mapList Mark.span ending =
        Lower.wrapperCode w (Lower.loopWriteBacks p (p.loopPlan m.id) drivers) [] ∧
      (∀ ρ ∈ (p.loopPlan m.id).fresh.map p.ownRole, R.Binds f.id ρ.1 ρ.2) ∧
      p.ImagesLoop R r m w.exits drivers h'
        (.function f (p.loopParams m) (.mk c (body ++ ending))) out := by
  rw [ImagesStmt, hw]

/-- The header of a `for` and its image, by its clauses. -/
theorem imagesHeader_counting {m : Mark} {i : Option (Stmt Mark)} {c : Option (Expr Mark)}
    {u : Option (Stmt Mark)} {x : Header Mark} :
    p.ImagesHeader R r (.counting m i c u) x ↔ ∃ k i' c' u',
      ((i = none → i' = none) ∧ ∀ s, i = some s → p.ImagesStmt R r s i'.toList) ∧
      ((c = none → c' = none) ∧ ∀ e, c = some e → ∃ e', p.ImagesExpr R r e e' ∧ c' = some e') ∧
      ((u = none → u' = none) ∧ ∀ s, u = some s → p.ImagesStmt R r s u'.toList) ∧
      x = .counting k i' c' u' := by
  cases i <;> cases c <;> cases u <;> simp [ImagesHeader]

end Cases

end LoweringPlan

end FlatScope
