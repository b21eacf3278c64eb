import FlatScope.Proofs.Scope.Growth
import FlatScope.Scope.Resolve

/-!
# What a resolution says

`Scoping.Resolved` and its companions say, by recursion over a piece of code, that the names in it
are resolved as the rules of the language demand: every use of a name is noted with what the name
means in the scope of the use, every declaration declares what its name means there, and the
functions, blocks and loops with names of their own open scopes with just these names.

None of this depends on how the scopes, bindings and uses were found, nor on the order in which they
were; `FlatScope.Proofs.Scope.Resolve` shows it of what `FunctionDef.resolve` returns.
-/

namespace FlatScope

/-- The scope in which the statements of a block run that stands in a scope. -/
def Block.scopeIn (b : Block Mark) (sc : ScopeId) : ScopeId :=
  if b.lexicals.isEmpty then sc else b.mark.id

/-- The scope in which the clauses of the header of a loop run. -/
def Header.scopeIn (h : Header Mark) (loop : NodeId) (sc : ScopeId) : ScopeId :=
  if (Resolve.headerLexical? h).isSome then loop else sc

section ScopeIn

variable {b : Block Mark} {h : Header Mark} {loop : NodeId} {sc : ScopeId} {n : Nat}

theorem Block.scopeIn_of_nil (hb : b.lexicals = []) : b.scopeIn sc = sc := by simp [scopeIn, hb]

/-- A block that declares something has a scope of its own. -/
theorem Block.scopeIn_of_ne_nil (hb : b.lexicals ≠ []) : b.scopeIn sc = b.mark.id := by
  simp [scopeIn, hb]

theorem Block.scopeIn_lt (hb : b.mark.id < n) (hsc : sc < n) : b.scopeIn sc < n := by
  rw [scopeIn]
  split
  · exact hsc
  · exact hb

theorem Header.scopeIn_lt (hl : loop < n) (hsc : sc < n) : h.scopeIn loop sc < n := by
  rw [scopeIn]
  split
  · exact hl
  · exact hsc

end ScopeIn

namespace Scoping

section Parts

variable (a : Scoping)

/-- The `var`s in some code declare bindings of the function. -/
def DeclaresVars (fs : ScopeId) (vars : List (Name × Mark)) : Prop :=
  ∀ v ∈ vars, ∃ b, a.declared? v.2.id = some b ∧ b.name = v.1 ∧ b.scope = fs ∧
    b.origin.isFunctionScoped

/-- The `let`s and `const`s in some code declare bindings of the scope. -/
def DeclaresLexicals (sc : ScopeId) (lexicals : List (Lexical Mark)) : Prop :=
  ∀ l ∈ lexicals, ∃ b, a.declared? l.mark.id = some b ∧ b.name = l.name ∧ b.scope = sc ∧
    b.origin.kind? = some l.kind

/-- A scope of the given kind and with the given names. -/
def Opens (id : ScopeId) (kind : ScopeKind) (parent : Option ScopeId)
    (names : List Name → Prop) : Prop :=
  ∃ s, a.scope? id = some s ∧ s.kind = kind ∧ s.parent = parent ∧ names (s.names.map (·.1))

/-- The use of a name at a node. What means nothing in the function is known outside of it. -/
def Refers (globals : List Name) (sc : ScopeId) (node : NodeId) (n : Name) (isWrite : Bool) :
    Prop :=
  ∃ r, a.referenceAt? node = some r ∧ r.name = n ∧ r.scope = sc ∧ r.isWrite = isWrite ∧
    r.binding = (a.lookup? sc n).map (·.id) ∧
    (a.lookup? sc n = none → n ∈ globals ∧ n ∈ a.globalsUsed)

/-- The declaration of a name at a node: of a binding of the function, or of one of the scope. -/
def Declares (fs sc : ScopeId) (node : NodeId) (n : Name) (k : DeclKind) : Prop :=
  ∃ b, a.declared? node = some b ∧ a.lookup? sc n = some b ∧
    if k.isBlockScoped then b.scope = sc ∧ b.origin.kind? = some k
    else b.scope = fs ∧ b.origin.isFunctionScoped

/-- A function opens a scope for its parameters, for its `var`s and for the `let`s and `const`s of
    its body. -/
structure OpensFunction (id : ScopeId) (params : List Name) (b : Block Mark)
    (parent : Option ScopeId) : Prop where
  scope : a.Opens id .function parent fun names => ∀ n, n ∈ names ↔
    n ∈ params ∨ n ∈ b.vars.map (·.1) ∨ n ∈ b.lexicals.map (·.name)
  distinct : params.Nodup
  params : ∀ n ∈ params, ∃ b, a.lookup? id n = some b ∧ b.scope = id ∧ b.origin = .param
  vars : a.DeclaresVars id b.vars
  lexicals : a.DeclaresLexicals id b.lexicals
  distinctLexicals : (b.lexicals.map (·.name)).Nodup

/-- A block opens a scope for its `let`s and `const`s, if it has any. -/
structure OpensBlock (b : Block Mark) (sc : ScopeId) : Prop where
  none : b.lexicals = [] → ∀ d ∈ a.blockScopes, d.1 ≠ b.mark.id
  scope : b.lexicals ≠ [] → a.blockScopes.lookup b.mark.id = some b.mark.id ∧
    a.Opens b.mark.id .block (some sc) (· = b.lexicals.map (·.name))
  lexicals : a.DeclaresLexicals b.mark.id b.lexicals

/-- A loop opens a scope for the `let` or `const` of its header, if it has one. -/
def OpensLoop (loop : NodeId) (h : Header Mark) (sc : ScopeId) : Prop :=
  ∀ l, Resolve.headerLexical? h = some l →
    a.Opens loop .loop (some sc) (· = [l.name]) ∧
      ∃ b, a.declared? l.mark.id = some b ∧ b.name = l.name ∧ b.scope = loop ∧
        b.origin = .header l.kind

/-- The scopes of a loop are noted. -/
def HasLoop (loop : NodeId) (h : Header Mark) (b : Block Mark) (sc : ScopeId) : Prop :=
  a.loop? loop = some ⟨loop, (Resolve.headerLexical? h).map fun _ => loop,
    if b.lexicals.isEmpty then none else some b.mark.id, sc⟩

/-- A block that is not the body of a loop. -/
def NoLoopBody (b : Block Mark) : Prop := ∀ l ∈ a.loops, l.body ≠ some b.mark.id

end Parts

variable (a : Scoping) (globals : List Name)

mutual

/-- The names in an expression of a scope are resolved. -/
def ResolvedExpr (sc : ScopeId) : Expr Mark → Prop
  | .literal .. => True
  | .name m n => a.Refers globals sc m.id n false
  | .unary _ _ e | .signalIs _ e _ | .signalValue _ e => ResolvedExpr sc e
  | .binary _ _ l r => ResolvedExpr sc l ∧ ResolvedExpr sc r
  | .call _ f args => ResolvedExpr sc f ∧ ResolvedExprs sc args
  | .array _ es => ResolvedExprs sc es
  | .index _ b i => ResolvedExpr sc b ∧ ResolvedExpr sc i
  | .function m ps (.mk k ss) =>
    a.OpensFunction m.id ps (.mk k ss) (some sc) ∧ ResolvedStmts m.id m.id false ss
  | .signal _ _ none => True
  | .signal _ _ (some e) => ResolvedExpr sc e
  | .unknown .. => False

def ResolvedExprs (sc : ScopeId) : List (Expr Mark) → Prop
  | [] => True
  | e :: es => ResolvedExpr sc e ∧ ResolvedExprs sc es

/-- The names in a block of a scope are resolved. -/
def ResolvedBlock (fs sc : ScopeId) (inLoop : Bool) : Block Mark → Prop
  | .mk m ss =>
    a.OpensBlock (.mk m ss) sc ∧ ResolvedStmts fs ((Block.mk m ss).scopeIn sc) inLoop ss

def ResolvedStmts (fs sc : ScopeId) (inLoop : Bool) : List (Stmt Mark) → Prop
  | [] => True
  | s :: ss => ResolvedStmt fs sc inLoop s ∧ ResolvedStmts fs sc inLoop ss

/-- The names in a statement of a scope are resolved; `fs` is the scope of the function around it,
    and `inLoop` says whether a loop of that function is around it. -/
def ResolvedStmt (fs sc : ScopeId) (inLoop : Bool) : Stmt Mark → Prop
  | .declaration m n k none => a.Declares fs sc m.id n k ∧ k ≠ .const
  | .declaration m n k (some e) => a.Declares fs sc m.id n k ∧ ResolvedExpr sc e
  | .assignment _ (.name m n) v => a.Refers globals sc m.id n true ∧ ResolvedExpr sc v
  | .assignment _ (.index _ b i) v =>
    ResolvedExpr sc b ∧ ResolvedExpr sc i ∧ ResolvedExpr sc v
  | .assignment .. => False
  | .expression _ e => ResolvedExpr sc e
  | .block b => a.NoLoopBody b ∧ ResolvedBlock fs sc inLoop b
  | .branch _ c t none =>
    ResolvedExpr sc c ∧ a.NoLoopBody t ∧ ResolvedBlock fs sc inLoop t
  | .branch _ c t (some e) =>
    ResolvedExpr sc c ∧ a.NoLoopBody t ∧ ResolvedBlock fs sc inLoop t ∧ a.NoLoopBody e ∧
      ResolvedBlock fs sc inLoop e
  | .loop m h b =>
    a.HasLoop m.id h b sc ∧ a.OpensLoop m.id h sc ∧ ResolvedHeader fs sc m.id h ∧
      ResolvedBlock fs (h.scopeIn m.id sc) true b
  | .ret _ none => True
  | .ret _ (some e) => ResolvedExpr sc e
  | .brk _ | .cont _ => inLoop
  | .unknown .. => False

/-- The names in the header of a loop of a scope are resolved. -/
def ResolvedHeader (fs sc : ScopeId) (loop : NodeId) : Header Mark → Prop
  | .whileTrue _ c => ResolvedExpr sc c
  | .counting m i c u =>
    (match i with
      | none => True
      | some s => ResolvedStmt fs ((Header.counting m i c u).scopeIn loop sc) false s) ∧
    (match c with
      | none => True
      | some e => ResolvedExpr ((Header.counting m i c u).scopeIn loop sc) e) ∧
    (match u with
      | none => True
      | some s => ResolvedStmt fs ((Header.counting m i c u).scopeIn loop sc) false s)
  | .forOf m n k e =>
    ResolvedExpr sc e ∧
    (match k with
      | none => a.Refers globals sc m.id n true
      | some .var => a.Declares fs sc m.id n .var ∧ a.Refers globals sc m.id n true
      | some k => a.Declares fs loop m.id n k)
  | .unknown .. => False

end

variable {a : Scoping} {globals : List Name}

/-- The names in the header of a `for` are resolved if those in its clauses are. -/
theorem resolvedHeader_counting {fs sc : ScopeId} {loop : NodeId} {m : Mark}
    {i : Option (Stmt Mark)} {c : Option (Expr Mark)} {u : Option (Stmt Mark)} :
    a.ResolvedHeader globals fs sc loop (.counting m i c u) ↔
      (∀ s, i = some s →
        a.ResolvedStmt globals fs ((Header.counting m i c u).scopeIn loop sc) false s) ∧
      (∀ e, c = some e →
        a.ResolvedExpr globals ((Header.counting m i c u).scopeIn loop sc) e) ∧
      (∀ s, u = some s →
        a.ResolvedStmt globals fs ((Header.counting m i c u).scopeIn loop sc) false s) := by
  cases i <;> cases c <;> cases u <;> simp [ResolvedHeader]

end Scoping

end FlatScope
