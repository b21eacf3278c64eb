import FlatScope.Proofs.Scope.Places
import FlatScope.Proofs.Scope.Resolve

/-!
# The resolution as a list of acts

What the resolution of a piece of code does next never depends on what it found out before. So the
resolution performs a list of acts that can be read off the code (`Expr.acts` and its companions,
`Resolve.stmts_eq`): it opens scopes, resolves names, notes loops and refuses code.

The lists are in order (`Resolve.Legal`): every act is in a scope that was opened before it, and no
scope is opened twice (`Stmt.acts_fits`). And the scopes that are opened and the names that are
resolved are those of the places in the code (`Stmt.acts_iff`).
-/

namespace FlatScope

open Node

namespace Resolve

/-- A step of the resolution. -/
inductive Act where
  | opens (f : Enclosure) (parent : Option ScopeId)
  | refers (scope : ScopeId) (name : Name) (mark : Mark) (isWrite : Bool)
  | notes (l : LoopScopes)
  | checksPath (scope : ScopeId) (name : Name) (span : Span)
  | rejects (cause : Cause) (span : Span)

namespace Act

/-- Notes that a block opens a scope. -/
def noteBlock (f : Enclosure) : Resolve Unit :=
  if f.kind = .block then modify (·.addBlockScope f.id) else pure ()

/-- The step itself. -/
def perform (globals : List Name) : Act → Resolve Unit
  | .opens f parent => do
    openScope f.id f.kind parent
    noteBlock f
    declareAll f.id f.items
  | .refers sc n m w => reference globals sc n m w
  | .notes l => modify (·.addLoop l)
  | .checksPath sc n span => checkVarPath sc n span
  | .rejects cause span => reject cause span

def opened? : Act → Option Enclosure
  | .opens f _ => some f
  | _ => none

def noted? : Act → Option LoopScopes
  | .notes l => some l
  | _ => none

/-- Whether an act opens a scope, resolves a name or notes a loop. -/
def isRecord : Act → Bool
  | .opens .. | .refers .. | .notes .. => true
  | _ => false

theorem eq_refers_iff {x : Act} {sc : ScopeId} {n : Name} {m : Mark} {w : Bool} :
    x = .refers sc n m w ∧ x.isRecord ↔ x = .refers sc n m w :=
  and_iff_left_of_imp fun h => h ▸ rfl

theorem ne_checksPath_of_isRecord {x : Act} {sc : ScopeId} {n : Name} {span : Span} :
    ¬ (x = .checksPath sc n span ∧ x.isRecord) := by
  rintro ⟨rfl, h⟩
  cases h

theorem eq_notes_iff {x : Act} {l : LoopScopes} : x = .notes l ∧ x.isRecord ↔ x = .notes l :=
  and_iff_left_of_imp fun h => h ▸ rfl

theorem ne_rejects_of_isRecord {x : Act} {cause : Cause} {span : Span} :
    ¬ (x = .rejects cause span ∧ x.isRecord) := by
  rintro ⟨rfl, h⟩
  cases h

/-- Opens the scope of an enclosure, if there is one. -/
def opening (f : Option Enclosure) (parent : ScopeId) : List Act :=
  (f.map (.opens · (some parent))).toList

end Act

/-- Performs acts in order. -/
def performAll (globals : List Name) (acts : List Act) : Resolve Unit :=
  acts.forM (Act.perform globals)

section Perform

variable (globals : List Name)

@[simp] theorem performAll_nil : performAll globals [] = pure () := rfl

@[simp] theorem performAll_cons (x : Act) (L : List Act) :
    performAll globals (x :: L) = (do x.perform globals; performAll globals L) := rfl

@[simp] theorem performAll_append (L M : List Act) :
    performAll globals (L ++ M) = (do performAll globals L; performAll globals M) :=
  List.forM_append

end Perform

/-! ## The acts of code -/

end Resolve

open Resolve

/-- The scope of a block, if it has one. -/
def Block.own? (b : Block Mark) : Option ScopeId :=
  if b.lexicals.isEmpty then none else some b.mark.id

mutual

/-- What the resolution of an expression in a scope does. -/
def Expr.acts (sc : ScopeId) : Expr Mark → List Act
  | .literal .. => []
  | .name m n => [.refers sc n m false]
  | .unary _ _ e | .signalIs _ e _ | .signalValue _ e => e.acts sc
  | .binary _ _ l r => l.acts sc ++ r.acts sc
  | .call _ f args => f.acts sc ++ Expr.actsOfList sc args
  | .array _ es => Expr.actsOfList sc es
  | .index _ b i => b.acts sc ++ i.acts sc
  | .function m ps (.mk k ss) =>
    .opens (.ofFunction m ps (.mk k ss)) (some sc) :: Stmt.actsOfList m.id false ss
  | .signal _ _ none => []
  | .signal _ _ (some e) => e.acts sc
  | .unknown m n => [.rejects (.unknownExpr n) m.span]

def Expr.actsOfList (sc : ScopeId) : List (Expr Mark) → List Act
  | [] => []
  | e :: es => e.acts sc ++ Expr.actsOfList sc es

def Block.acts (sc : ScopeId) (inLoop : Bool) : Block Mark → List Act
  | .mk m ss =>
    Act.opening (Enclosure.ofBlock? (.mk m ss)) sc ++ Stmt.actsOfList
      ((Block.mk m ss).scopeIn sc) inLoop ss

def Stmt.actsOfList (sc : ScopeId) (inLoop : Bool) : List (Stmt Mark) → List Act
  | [] => []
  | s :: ss => s.acts sc inLoop ++ Stmt.actsOfList sc inLoop ss

/-- What the resolution of a statement in a scope does. What is no target is refused, so what would
    be done with it does not matter. -/
def Stmt.acts (sc : ScopeId) (inLoop : Bool) : Stmt Mark → List Act
  | .declaration m n k v =>
    (match k, v with
      | .var, _ => [.checksPath sc n m.span]
      | .const, none => [.rejects (.missingInitializer n) m.span]
      | _, _ => []) ++
    (match v with
      | none => []
      | some e => e.acts sc)
  | .assignment m t v =>
    (match t with
      | .name k n => [.refers sc n k true]
      | .index _ b i => b.acts sc ++ i.acts sc
      | t => .rejects (.assignmentTarget t.className) m.span :: t.acts sc) ++ v.acts sc
  | .expression _ e => e.acts sc
  | .block b => b.acts sc inLoop
  | .branch _ c t e =>
    c.acts sc ++ (t.acts sc inLoop ++ (match e with
      | none => []
      | some b => b.acts sc inLoop))
  | .loop m h b =>
    h.acts sc inLoop m ++ (b.acts (h.scopeIn m.id sc) true ++
      [.notes ⟨m.id, (headerLexical? h).map fun _ => m.id, b.own?, sc⟩])
  | .ret _ none => []
  | .ret _ (some e) => e.acts sc
  | .brk m => if inLoop then [] else [.rejects (.jumpOutsideLoop .brk) m.span]
  | .cont m => if inLoop then [] else [.rejects (.jumpOutsideLoop .cont) m.span]
  | .unknown m n => [.rejects (.unknownStmt n) m.span]

/-- What the resolution of the header of the loop `loop` does. -/
def Header.acts (sc : ScopeId) (inLoop : Bool) (loop : Mark) : Header Mark → List Act
  | .whileTrue _ c => c.acts sc
  | .counting m i c u =>
    Act.opening (Enclosure.ofLoop? loop (.counting m i c u)) sc ++
      ((match i with
        | none => []
        | some s => s.acts ((Header.counting m i c u).scopeIn loop.id sc) inLoop) ++
      ((match c with
        | none => []
        | some e => e.acts ((Header.counting m i c u).scopeIn loop.id sc)) ++
      (match u with
        | none => []
        | some s => s.acts ((Header.counting m i c u).scopeIn loop.id sc) inLoop)))
  | .forOf m n k e =>
    e.acts sc ++ (match k with
      | some .letVar | some .const => Act.opening (Enclosure.ofLoop? loop (.forOf m n k e)) sc
      | some .var => [.checksPath sc n m.span, .refers sc n m true]
      | none => [.refers sc n m true])
  | .unknown _ n => [.rejects (.unknownHeader n) loop.span]

end

/-- The header of a `for` has the acts of the clauses that there are. -/
theorem Header.acts_counting (sc : ScopeId) (inLoop : Bool) (loop m : Mark) (i : Option (Stmt Mark))
    (c : Option (Expr Mark)) (u : Option (Stmt Mark)) {inner : ScopeId}
    (hin : (Header.counting m i c u).scopeIn loop.id sc = inner) :
    (Header.counting m i c u).acts sc inLoop loop =
      Act.opening (Enclosure.ofLoop? loop (.counting m i c u)) sc ++
        (i.elim [] (·.acts inner inLoop) ++ (c.elim [] (·.acts inner) ++
          u.elim [] (·.acts inner inLoop))) := by
  subst hin
  cases i <;> cases c <;> cases u <;> simp [Header.acts]

namespace Resolve

variable (globals : List Name)

/-- After a refusal nothing matters. -/
theorem reject_bind {α β : Type} (cause : Cause) (span : Span) (f : α → Resolve β) :
    (reject cause span >>= f) = reject cause span := rfl

theorem openFunction_eq (m : Mark) (ps : List Name) (b : Block Mark) (parent : Option ScopeId) :
    openFunction m ps b parent = (Act.opens (.ofFunction m ps b) parent).perform globals := by
  simp [openFunction, Act.perform, Act.noteBlock, Enclosure.ofFunction, declareParams_eq,
    declareVars_eq, declareLexicals_eq, declareAll]

theorem openBlock_eq (b : Block Mark) (sc : ScopeId) :
    openBlock b sc =
      (do performAll globals (Act.opening (Enclosure.ofBlock? b) sc); return b.own?) := by
  unfold openBlock
  cases h : b.lexicals with
  | nil => simp [Enclosure.ofBlock?, Block.own?, Act.opening, h]
  | cons l ls =>
    simp [Enclosure.ofBlock?, Block.own?, Act.opening, h, Act.perform, Act.noteBlock,
      declareLexicals_eq]

theorem openLoop_eq (loop : Mark) (l : Lexical Mark) (sc : ScopeId) :
    openLoop loop.id l.name l.kind l.mark sc = (Act.opens ⟨loop.id, .loop,
      [⟨l.name, .header l.kind, l.mark.span, some l.mark.id⟩]⟩ (some sc)).perform globals := by
  simp [openLoop, Act.perform, Act.noteBlock, declareAll]

theorem openHeader_eq (loop : Mark) (h : Header Mark) (sc : ScopeId) :
    openHeader loop h sc = (do
      performAll globals (Act.opening (Enclosure.ofLoop? loop h) sc)
      return (headerLexical? h).map fun _ => loop.id) := by
  unfold openHeader
  cases hl : headerLexical? h with
  | none => simp [Enclosure.ofLoop?, Act.opening, hl]
  | some l =>
    simp only [Enclosure.ofLoop?, Act.opening, hl, openLoop_eq globals]
    simp

theorem Block.own?_getD (b : Block Mark) (sc : ScopeId) : b.own?.getD sc = b.scopeIn sc := by
  unfold Block.own? Block.scopeIn
  split <;> rfl

theorem Header.own_getD (h : Header Mark) (loop : Mark) (sc : ScopeId) :
    ((headerLexical? h).map fun _ => loop.id).getD sc = h.scopeIn loop.id sc := by
  unfold Header.scopeIn
  cases headerLexical? h <;> rfl

mutual

theorem expr_eq (sc : ScopeId) : ∀ e : Expr Mark, expr globals sc e = performAll globals (e.acts sc)
  | .literal .. => rfl
  | .name .. => by simp [expr, Expr.acts, Act.perform]
  | .unary _ _ e | .signalIs _ e _ | .signalValue _ e => by rw [expr, Expr.acts, expr_eq sc e]
  | .binary _ _ l r | .index _ l r => by
    rw [expr, Expr.acts, expr_eq sc l, expr_eq sc r, performAll_append]
  | .call _ f args => by rw [expr, Expr.acts, expr_eq sc f, exprs_eq sc args, performAll_append]
  | .array _ es => by rw [expr, Expr.acts, exprs_eq sc es]
  | .function m ps (.mk k ss) => by
    rw [expr, Expr.acts, stmts_eq m.id false ss, openFunction_eq, performAll_cons]
  | .signal _ _ none => by rw [expr, Expr.acts, performAll_nil]
  | .signal _ _ (some e) => by rw [expr, Expr.acts, expr_eq sc e]
  | .unknown .. => by simp [expr, Expr.acts, Act.perform]

theorem exprs_eq (sc : ScopeId) :
    ∀ es : List (Expr Mark), exprs globals sc es = performAll globals (Expr.actsOfList sc es)
  | [] => rfl
  | e :: es => by rw [exprs, Expr.actsOfList, expr_eq sc e, exprs_eq sc es, performAll_append]

theorem block_eq (sc : ScopeId) (inLoop : Bool) : ∀ b : Block Mark,
    block globals sc inLoop b = (do performAll globals (b.acts sc inLoop); return b.own?)
  | .mk m ss => by
    simp only [block, Block.acts, openBlock_eq globals, stmts_eq, performAll_append,
      bind_assoc, pure_bind, Block.own?_getD]

theorem stmts_eq (sc : ScopeId) (inLoop : Bool) : ∀ ss : List (Stmt Mark),
    stmts globals sc inLoop ss = performAll globals (Stmt.actsOfList sc inLoop ss)
  | [] => rfl
  | s :: ss => by
    rw [stmts, Stmt.actsOfList, stmt_eq sc inLoop s, stmts_eq sc inLoop ss, performAll_append]

theorem stmt_eq (sc : ScopeId) (inLoop : Bool) :
    ∀ s : Stmt Mark, stmt globals sc inLoop s = performAll globals (s.acts sc inLoop)
  | .declaration m n k none => by
    cases k <;> simp [stmt, Stmt.acts, Act.perform]
  | .declaration m n k (some e) => by
    cases k <;> simp [stmt, Stmt.acts, Act.perform, expr_eq sc e]
  | .assignment m t v => by
    cases t <;> simp [stmt, Stmt.acts, Act.perform, expr_eq, reject_bind]
  | .expression _ e => by rw [stmt, Stmt.acts, expr_eq sc e]
  | .block b => by simp [stmt, Stmt.acts, block_eq sc inLoop b]
  | .branch _ c t none => by simp [stmt, Stmt.acts, expr_eq sc c, block_eq sc inLoop t]
  | .branch _ c t (some e) => by
    simp [stmt, Stmt.acts, expr_eq sc c, block_eq sc inLoop t, block_eq sc inLoop e]
  | .loop m h b => by
    simp [stmt, Stmt.acts, header_eq sc inLoop m h, block_eq _ true b, Header.own_getD, Act.perform]
  | .ret _ none => by rw [stmt, Stmt.acts, performAll_nil]
  | .ret _ (some e) => by rw [stmt, Stmt.acts, expr_eq sc e]
  | .brk m | .cont m => by cases inLoop <;> simp [stmt, Stmt.acts, checkJump, Act.perform]
  | .unknown .. => by simp [stmt, Stmt.acts, Act.perform]

theorem header_eq (sc : ScopeId) (inLoop : Bool) (loop : Mark) : ∀ h : Header Mark,
    header globals sc inLoop loop h = (do
      performAll globals (h.acts sc inLoop loop)
      return (headerLexical? h).map fun _ => loop.id)
  | .whileTrue _ c => by simp [header, Header.acts, expr_eq sc c, headerLexical?]
  | .counting m i c u => by
    rw [header_counting, openHeader_eq globals]
    cases i <;> cases c <;> cases u <;>
      simp [Header.acts, clause, expr_eq, stmt_eq, Header.own_getD]
  | .forOf m n k e => by
    have hopen : ∀ d, openLoop loop.id n d m sc = (Act.opens ⟨loop.id, .loop,
        [⟨n, .header d, m.span, some m.id⟩]⟩ (some sc)).perform globals := fun d =>
      openLoop_eq globals loop ⟨m, n, d⟩ sc
    match k with
    | none => simp [header, Header.acts, expr_eq sc e, headerLexical?, Act.perform]
    | some .var =>
      simp [header, Header.acts, expr_eq sc e, headerLexical?, DeclKind.isBlockScoped, Act.perform]
    | some .letVar | some .const =>
      simp [header, Header.acts, expr_eq sc e, headerLexical?, DeclKind.isBlockScoped,
        Enclosure.ofLoop?, Act.opening, hopen]
  | .unknown .. => rfl

end

end Resolve

/-! ## The acts at the places of the code -/

namespace Place

/-- What is noted of a loop, given the scope that it stands in. -/
def noted? (p : Place) : Option (ScopeId → LoopScopes) :=
  match p.node with
  | .stmt (.loop m h b) => some fun sc => ⟨m.id, (headerLexical? h).map fun _ => m.id, b.own?, sc⟩
  | _ => none

/-- What the resolution does at a place to open a scope, to resolve a name or to note a loop. -/
def acts (p : Place) : List Act :=
  (p.opens.map fun f => .opens f p.scope?).toList ++
  ((p.use?.bind fun u => p.scope?.map fun sc => Act.refers sc u.1 p.node.mark u.2).toList ++
  (p.noted?.bind fun l => p.scope?.map fun sc => Act.notes (l sc)).toList)

/-- Something is done at a place or inside of it. -/
def Performs (p : Place) (x : Act) : Prop := ∃ q, p.Contains q ∧ x ∈ q.acts

variable {p : Place} {around : List Enclosure} {sc : ScopeId} {x : Act}

theorem opens_mem_acts (p : Place) {f : Enclosure} {parent : Option ScopeId} :
    .opens f parent ∈ p.acts ↔ p.opens = some f ∧ p.scope? = parent := by
  rw [acts, List.mem_append, List.mem_append]
  constructor
  · rintro (h | h | h)
    · obtain ⟨g, hg, hgf⟩ := Option.map_eq_some_iff.1 (Option.mem_toList.1 h)
      cases hgf
      exact ⟨hg, rfl⟩
    · obtain ⟨u, -, hu⟩ := Option.bind_eq_some_iff.1 (Option.mem_toList.1 h)
      obtain ⟨sc, -, hsc⟩ := Option.map_eq_some_iff.1 hu
      cases hsc
    · obtain ⟨l, -, hl⟩ := Option.bind_eq_some_iff.1 (Option.mem_toList.1 h)
      obtain ⟨sc, -, hsc⟩ := Option.map_eq_some_iff.1 hl
      cases hsc
  · rintro ⟨hf, rfl⟩
    exact .inl (by simp [hf])

theorem refers_mem_acts (p : Place) {n : Name} {m : Mark} {w : Bool} :
    .refers sc n m w ∈ p.acts ↔ p.use? = some (n, w) ∧ p.scope? = some sc ∧ p.node.mark = m := by
  rw [acts, List.mem_append, List.mem_append]
  constructor
  · rintro (h | h | h)
    · obtain ⟨g, -, hgf⟩ := Option.map_eq_some_iff.1 (Option.mem_toList.1 h)
      cases hgf
    · obtain ⟨u, hu, h⟩ := Option.bind_eq_some_iff.1 (Option.mem_toList.1 h)
      obtain ⟨sc, hsc, h⟩ := Option.map_eq_some_iff.1 h
      cases h
      exact ⟨hu, hsc, rfl⟩
    · obtain ⟨l, -, hl⟩ := Option.bind_eq_some_iff.1 (Option.mem_toList.1 h)
      obtain ⟨sc, -, hsc⟩ := Option.map_eq_some_iff.1 hl
      cases hsc
  · rintro ⟨hu, hsc, rfl⟩
    exact .inr (.inl (by simp [hu, hsc]))

theorem notes_mem_acts (p : Place) {l : LoopScopes} :
    .notes l ∈ p.acts ↔ ∃ f sc, p.noted? = some f ∧ p.scope? = some sc ∧ f sc = l := by
  rw [acts, List.mem_append, List.mem_append]
  constructor
  · rintro (h | h | h)
    · obtain ⟨g, -, hgf⟩ := Option.map_eq_some_iff.1 (Option.mem_toList.1 h)
      cases hgf
    · obtain ⟨u, -, hu⟩ := Option.bind_eq_some_iff.1 (Option.mem_toList.1 h)
      obtain ⟨sc, -, hsc⟩ := Option.map_eq_some_iff.1 hu
      cases hsc
    · obtain ⟨f, hf, h⟩ := Option.bind_eq_some_iff.1 (Option.mem_toList.1 h)
      obtain ⟨sc, hsc, h⟩ := Option.map_eq_some_iff.1 h
      cases h
      exact ⟨f, sc, hf, hsc, rfl⟩
  · rintro ⟨f, sc, hf, hsc, rfl⟩
    exact .inr (.inr (by simp [hsc, hf]))

theorem performs_iff : p.Performs x ↔ x ∈ p.acts ∨ ∃ c ∈ p.children, c.Performs x := by
  constructor
  · rintro ⟨q, hq, hx⟩
    rcases contains_iff.1 hq with rfl | ⟨c, hc, hcq⟩
    · exact .inl hx
    · exact .inr ⟨c, hc, q, hcq, hx⟩
  · rintro (hx | ⟨c, hc, q, hcq, hx⟩)
    · exact ⟨p, .refl p, hx⟩
    · exact ⟨q, .child hc hcq, hx⟩

/-- A node at which nothing is done has the acts of its parts. -/
theorem performs_plain {y : Node Mark} (hacts : (under around y).acts = [])
    (hparts : (under around y).children = y.children.map (under around)) :
    (under around y).Performs x ↔ ∃ c ∈ y.children, (under around c).Performs x := by
  rw [performs_iff, hacts, hparts]
  simp

/-- A place at which no name is used and that is no loop. -/
theorem acts_of_opens (hsc : p.scope? = some sc) (hu : p.use? = none) (hn : p.noted? = none) :
    p.acts = Act.opening p.opens sc := by
  rw [acts, hu, hn, hsc]
  cases p.opens <;> rfl

/-- A loop is noted when its scope has been opened. -/
theorem acts_loop {m : Mark} {h : Header Mark} {b : Block Mark}
    (hsc : around.head?.map (·.id) = some sc) : (under around (.stmt (.loop m h b))).acts =
      Act.opening (Enclosure.ofLoop? m h) sc ++
        [.notes ⟨m.id, (headerLexical? h).map fun _ => m.id, b.own?, sc⟩] := by
  rw [acts, show (under around (.stmt (.loop m h b))).scope? = some sc from hsc]
  change ((Enclosure.ofLoop? m h).map _).toList ++ _ = _
  cases Enclosure.ofLoop? m h <;> rfl

/-- A place that opens no scope and uses a name. -/
theorem acts_of_use {n : Name} {w : Bool} (hsc : p.scope? = some sc) (ho : p.opens = none)
    (hu : p.use? = some (n, w)) : p.acts = [.refers sc n p.node.mark w] := by
  have hn : p.noted? = none := by
    unfold use? at hu
    unfold noted?
    split <;> simp_all
  rw [acts, hu, hsc, ho, hn]
  rfl

theorem isRecord_of_opening {f : Option Enclosure} (h : x ∈ Act.opening f sc) : x.isRecord := by
  cases f with
  | none => cases h
  | some f => rw [List.mem_singleton.1 h]; rfl

/-- It matters only for names whether they are assigned to. -/
theorem performs_written {e : Expr Mark} (h : ∀ m n, e = .name m n → False) :
    Performs ⟨.expr e, around, (Node.expr e).enclosure?, true⟩ x ↔
      (under around (.expr e)).Performs x := by
  rw [performs_iff, performs_iff]
  cases e <;> first | exact (h _ _ rfl).elim | rfl

/-- A name is resolved where it stands. -/
theorem performs_name {m : Mark} {n : Name} {w : Bool} (hsc : around.head?.map (·.id) = some sc) :
    Performs ⟨.expr (.name m n), around, none, w⟩ x ↔ x = .refers sc n m w := by
  rw [performs_iff]
  simp [acts, use?, noted?, children, Node.children, scope?, hsc, Node.mark, Expr.mark]

/-- In the body of a function is what is in its statements. -/
theorem performs_body {b : Block Mark} :
    Performs ⟨.block b, around, none, false⟩ x ↔
      ∃ s ∈ b.statements, (under around s.node).Performs x := by
  rw [performs_iff]
  simp [acts, use?, noted?, children, Node.children, inner]

/-- In a function is what is in its body. -/
theorem performs_function {m : Mark} {ps : List Name} {b : Block Mark} :
    (under around (.expr (.function m ps b))).Performs x ↔
      x ∈ (under around (.expr (.function m ps b))).acts ∨
        ∃ s ∈ b.statements, (under (.ofFunction m ps b :: around) s.node).Performs x := by
  rw [performs_iff, ← performs_body]
  exact or_congr_right ⟨fun ⟨c, hc, h⟩ => List.mem_singleton.1 hc ▸ h,
    fun h => ⟨_, List.mem_singleton.2 rfl, h⟩⟩

end Place

open Place

mutual

/-- The scopes that an expression opens and the names that it uses are those at the places in it. -/
theorem Expr.acts_iff {around : List Enclosure} {sc : ScopeId} {x : Act}
    (hsc : around.head?.map (·.id) = some sc) : ∀ e : Expr Mark,
    x ∈ e.acts sc ∧ x.isRecord ↔ (under around (.expr e)).Performs x
  | .literal .. => by
    rw [performs_plain rfl rfl]
    simp [Expr.acts, Node.children]
  | .name m n => by
    rw [Expr.acts, List.mem_singleton]
    exact (and_iff_left_of_imp fun h => h ▸ rfl).trans (performs_name hsc).symm
  | .unary _ _ e | .signalIs _ e _ | .signalValue _ e => by
    rw [performs_plain rfl rfl, Expr.acts, Expr.acts_iff hsc e]
    simp [Node.children]
  | .binary _ _ l r | .index _ l r => by
    rw [performs_plain rfl rfl, Expr.acts, List.mem_append, or_and_right, Expr.acts_iff hsc l,
      Expr.acts_iff hsc r]
    simp [Node.children]
  | .call _ f args => by
    rw [performs_plain rfl rfl, Expr.acts, List.mem_append, or_and_right, Expr.acts_iff hsc f,
      Expr.actsOfList_iff hsc args]
    simp [Node.children]
  | .array _ es => by
    rw [performs_plain rfl rfl, Expr.acts, Expr.actsOfList_iff hsc es]
    simp [Node.children]
  | .function m ps (.mk k ss) => by
    have hin : (Enclosure.ofFunction m ps (.mk k ss) :: around).head?.map (·.id) = some m.id := rfl
    rw [performs_function, Expr.acts, List.mem_cons, or_and_right, Stmt.actsOfList_iff hin ss,
      acts_of_opens (p := under around (.expr (.function m ps (.mk k ss)))) hsc rfl rfl]
    exact or_congr_left ⟨fun h => List.mem_singleton.2 h.1, fun h =>
      ⟨List.mem_singleton.1 h, isRecord_of_opening h⟩⟩
  | .signal _ _ none => by
    rw [performs_plain rfl rfl]
    simp [Expr.acts, Node.children]
  | .signal _ _ (some e) => by
    rw [performs_plain rfl rfl, Expr.acts, Expr.acts_iff hsc e]
    simp [Node.children]
  | .unknown .. => by
    rw [performs_plain rfl rfl]
    simp [Expr.acts, Node.children, Act.ne_rejects_of_isRecord]

theorem Expr.actsOfList_iff {around : List Enclosure} {sc : ScopeId} {x : Act}
    (hsc : around.head?.map (·.id) = some sc) : ∀ es : List (Expr Mark),
    x ∈ Expr.actsOfList sc es ∧ x.isRecord ↔ ∃ e ∈ es, (under around (.expr e)).Performs x
  | [] => by simp [Expr.actsOfList]
  | e :: es => by
    rw [Expr.actsOfList, List.mem_append, or_and_right, Expr.acts_iff hsc e,
      Expr.actsOfList_iff hsc es]
    simp

theorem Block.acts_iff {around : List Enclosure} {sc : ScopeId} {x : Act} {inLoop : Bool}
    (hsc : around.head?.map (·.id) = some sc) : ∀ b : Block Mark,
    x ∈ b.acts sc inLoop ∧ x.isRecord ↔ (under around (.block b)).Performs x
  | .mk m ss => by
    have hin : ((Enclosure.ofBlock? (.mk m ss)).toList ++ around).head?.map (·.id) =
        some ((Block.mk m ss).scopeIn sc) := by
      unfold Enclosure.ofBlock? Block.scopeIn
      split
      · exact hsc
      · rfl
    rw [performs_iff, Block.acts, List.mem_append, or_and_right, Stmt.actsOfList_iff hin ss,
      acts_of_opens (p := under around (.block (.mk m ss))) hsc rfl rfl]
    refine or_congr (and_iff_left_of_imp isRecord_of_opening) ?_
    simp [Place.children, under, Place.inner, Node.enclosure?, Node.children, Block.statements]

theorem Stmt.actsOfList_iff {around : List Enclosure} {sc : ScopeId} {x : Act} {inLoop : Bool}
    (hsc : around.head?.map (·.id) = some sc) : ∀ ss : List (Stmt Mark),
    x ∈ Stmt.actsOfList sc inLoop ss ∧ x.isRecord ↔ ∃ s ∈ ss, (under around s.node).Performs x
  | [] => by simp [Stmt.actsOfList]
  | s :: ss => by
    rw [Stmt.actsOfList, List.mem_append, or_and_right, Stmt.acts_iff hsc s,
      Stmt.actsOfList_iff hsc ss]
    simp

theorem Stmt.acts_iff {around : List Enclosure} {sc : ScopeId} {x : Act} {inLoop : Bool}
    (hsc : around.head?.map (·.id) = some sc) : ∀ s : Stmt Mark,
    x ∈ s.acts sc inLoop ∧ x.isRecord ↔ (under around s.node).Performs x
  | .declaration m n k none => by
    rw [performs_plain rfl rfl]
    cases k <;>
      simp [Stmt.acts, Stmt.node, Node.children, Act.ne_checksPath_of_isRecord,
        Act.ne_rejects_of_isRecord]
  | .declaration m n k (some e) => by
    have he := Expr.acts_iff hsc e (x := x)
    rw [performs_plain rfl rfl]
    cases k with
    | var =>
      simp [Stmt.acts, or_and_right, he, Act.ne_checksPath_of_isRecord, Stmt.node, Node.children]
    | _ => simp [Stmt.acts, Stmt.node, Node.children, he]
  | .assignment m t v => by
    have hparts : (under around (.stmt (.assignment m t v))).Performs x ↔
        Performs ⟨.expr t, around, (Node.expr t).enclosure?, true⟩ x ∨
          (under around (.expr v)).Performs x := by
      rw [performs_iff]
      simp [Place.acts, under, Node.enclosure?, use?, Place.noted?, Place.children, Place.inner]
    have ht := Expr.acts_iff hsc t (x := x)
    have hv := Expr.acts_iff hsc v (x := x)
    refine Iff.trans ?_ hparts.symm
    cases t with
    | name k n =>
      rw [Stmt.acts, List.mem_append, or_and_right, hv, List.mem_singleton]
      exact or_congr_left ((and_iff_left_of_imp fun h => h ▸ rfl).trans (performs_name hsc).symm)
    | index k b i =>
      rw [performs_written (by simp), ← ht, Stmt.acts, List.mem_append, or_and_right, hv]
      rfl
    | _ =>
      rw [performs_written (by simp), ← ht]
      simp only [Stmt.acts, List.cons_append, List.mem_cons, List.mem_append, or_and_right, hv,
        Act.ne_rejects_of_isRecord, false_or]
  | .expression _ e => by
    rw [performs_plain rfl rfl, Stmt.acts, Expr.acts_iff hsc e]
    simp [Stmt.node, Node.children]
  | .block b => Block.acts_iff hsc b
  | .branch _ c t none => by
    rw [performs_plain rfl rfl]
    simp [Stmt.acts, Stmt.node, Node.children, or_and_right, exists_or, Expr.acts_iff hsc c,
      Block.acts_iff hsc t]
  | .branch _ c t (some e) => by
    rw [performs_plain rfl rfl]
    simp [Stmt.acts, Stmt.node, Node.children, or_and_right, exists_or, Expr.acts_iff hsc c,
      Block.acts_iff hsc t,
      Block.acts_iff hsc e]
  | .loop m h b => by
    have hin : ((Enclosure.ofLoop? m h).toList ++ around).head?.map (·.id) =
        some (h.scopeIn m.id sc) := by
      unfold Enclosure.ofLoop? Header.scopeIn
      cases headerLexical? h with
      | none => exact hsc
      | some l => rfl
    have hparts : (∃ c ∈ (under around (.stmt (.loop m h b))).children, c.Performs x) ↔
        (under (h.around ((Enclosure.ofLoop? m h).toList ++ around) around)
        (.header h)).Performs x ∨
          (under ((Enclosure.ofLoop? m h).toList ++ around) (.block b)).Performs x := by
      simp [Place.children, under, Place.inner, Node.enclosure?]
    change _ ↔ (under around (.stmt (.loop m h b))).Performs x
    rw [performs_iff, hparts, acts_loop hsc, Stmt.acts, List.mem_append, List.mem_append,
      List.mem_append, List.mem_singleton, or_and_right, or_and_right, Header.acts_iff hsc m h,
      Block.acts_iff hin b, Act.eq_notes_iff]
    tauto
  | .ret _ none => by
    rw [performs_plain rfl rfl]
    simp [Stmt.acts, Stmt.node, Node.children]
  | .ret _ (some e) => by
    rw [performs_plain rfl rfl, Stmt.acts, Expr.acts_iff hsc e]
    simp [Stmt.node, Node.children]
  | .brk m | .cont m => by
    rw [performs_plain rfl rfl]
    cases inLoop <;> simp [Stmt.acts, Stmt.node, Node.children, Act.ne_rejects_of_isRecord]
  | .unknown .. => by
    rw [performs_plain rfl rfl]
    simp [Stmt.acts, Stmt.node, Node.children, Act.ne_rejects_of_isRecord]

theorem Header.acts_iff {around : List Enclosure} {sc : ScopeId} {x : Act} {inLoop : Bool}
    (hsc : around.head?.map (·.id) = some sc) (loop : Mark) : ∀ h : Header Mark,
    x ∈ h.acts sc inLoop loop ∧ x.isRecord ↔ x ∈ Act.opening (Enclosure.ofLoop? loop h) sc ∨
      (under (h.around ((Enclosure.ofLoop? loop h).toList ++ around) around) (.header h)).Performs x
  | .whileTrue _ c => by
    rw [performs_plain rfl rfl, Header.acts]
    have hc := Expr.acts_iff hsc c (x := x)
    simp [Enclosure.ofLoop?, headerLexical?, Act.opening, Header.around, Node.children, hc]
  | .counting k i c u => by
    have hin : ((Enclosure.ofLoop? loop (.counting k i c u)).toList ++ around).head?.map (·.id) =
        some ((Header.counting k i c u).scopeIn loop.id sc) := by
      unfold Enclosure.ofLoop? Header.scopeIn
      cases headerLexical? (.counting k i c u) with
      | none => exact hsc
      | some l => rfl
    have hopen : x ∈ Act.opening (Enclosure.ofLoop? loop (.counting k i c u)) sc ∧ x.isRecord ↔ _ :=
      and_iff_left_of_imp isRecord_of_opening
    rw [performs_plain rfl rfl]
    cases i <;> cases c <;> cases u <;>
      simp [Header.acts, Header.around, Node.children, or_and_right, exists_or, hopen,
        Stmt.acts_iff hin, Expr.acts_iff hin]
  | .forOf k n d e => by
    have he := Expr.acts_iff hsc e (x := x)
    have hparts : (∃ c ∈ (under around (.header (.forOf k n d e))).children, c.Performs x) ↔
        (under around (.expr e)).Performs x := by
      simp [Place.children, Node.children, under, Place.inner, Node.enclosure?]
    rw [Header.around, performs_iff, hparts]
    match d with
    | none | some .var =>
      change _ ↔ x ∈ ([] : List Act) ∨ _
      rw [acts_of_use (p := under around (.header _)) hsc rfl rfl]
      change _ ↔ _ ∨ x ∈ [Act.refers sc n k true] ∨ _
      simp only [Header.acts, List.mem_append, List.mem_cons, List.not_mem_nil, or_false, false_or,
        or_and_right, he, Act.eq_refers_iff, Act.ne_checksPath_of_isRecord]
      exact or_comm
    | some .letVar | some .const =>
      change _ ↔ _ ∨ x ∈ ([] : List Act) ∨ _
      rw [Header.acts, List.mem_append, or_and_right, he, and_iff_left_of_imp isRecord_of_opening]
      simp [or_comm]
  | .unknown .. => by
    rw [performs_plain rfl rfl]
    simp [Header.acts, Node.children, Act.ne_rejects_of_isRecord, Enclosure.ofLoop?, headerLexical?,
      Act.opening]

end

/-! ## Functions -/

/-- What the resolution of a function does. -/
def FunctionDef.acts (fn : FunctionDef Mark) : List Act :=
  .opens (.ofFunction fn.mark fn.params fn.body) none ::
    Stmt.actsOfList fn.mark.id false fn.body.statements

/-- The scopes that a function opens and the names that it uses are those at the places in it. -/
theorem FunctionDef.acts_iff (fn : FunctionDef Mark) {x : Act} :
    x ∈ fn.acts ∧ x.isRecord ↔ (ofFunction fn).Performs x := by
  have hin : (Enclosure.ofFunction fn.mark fn.params fn.body :: []).head?.map (·.id) =
      some fn.mark.id := rfl
  rw [FunctionDef.acts, List.mem_cons, or_and_right, Stmt.actsOfList_iff hin, performs_iff,
    ← performs_body]
  refine or_congr ⟨fun h => List.mem_singleton.2 h.1, fun h => ?_⟩
    ⟨fun h => ⟨_, List.mem_singleton.2 rfl, h⟩, fun ⟨c, hc, h⟩ => List.mem_singleton.1 hc ▸ h⟩
  obtain rfl := List.mem_singleton.1 h
  exact ⟨rfl, rfl⟩

/-- The scopes that a function opens are those of the places in it. -/
theorem FunctionDef.opens_mem_acts {fn : FunctionDef Mark} {f : Enclosure} {p : Option ScopeId} :
    Act.opens f p ∈ fn.acts ↔ ∃ q, (ofFunction fn).Contains q ∧ q.opens = some f ∧
    q.scope? = p := by
  rw [← and_iff_left (a := Act.opens f p ∈ fn.acts) (b := (Act.opens f p).isRecord) rfl,
    FunctionDef.acts_iff]
  exact exists_congr fun q => and_congr_right fun _ => q.opens_mem_acts

/-- The names that a function uses are those at the places in it. -/
theorem FunctionDef.refers_mem_acts {fn : FunctionDef Mark} {sc : ScopeId} {n : Name} {m : Mark}
    {w : Bool} : Act.refers sc n m w ∈ fn.acts ↔ ∃ q, (ofFunction fn).Contains q ∧
      q.use? = some (n, w) ∧ q.scope? = some sc ∧ q.node.mark = m := by
  rw [← and_iff_left (a := Act.refers sc n m w ∈ fn.acts) (b := (Act.refers sc n m w).isRecord) rfl,
    FunctionDef.acts_iff]
  exact exists_congr fun q => and_congr_right fun _ => q.refers_mem_acts

/-- The loops that a function notes are those in it. -/
theorem FunctionDef.notes_mem_acts {fn : FunctionDef Mark} {l : LoopScopes} :
    Act.notes l ∈ fn.acts ↔ ∃ q f sc, (ofFunction fn).Contains q ∧ q.noted? = some f ∧
      q.scope? = some sc ∧ f sc = l := by
  rw [← and_iff_left (a := Act.notes l ∈ fn.acts) (b := (Act.notes l).isRecord) rfl,
    FunctionDef.acts_iff]
  constructor
  · rintro ⟨q, hq, hl⟩
    obtain ⟨f, sc, hl⟩ := q.notes_mem_acts.1 hl
    exact ⟨q, f, sc, hq, hl⟩
  · rintro ⟨q, f, sc, hq, hl⟩
    exact ⟨q, hq, q.notes_mem_acts.2 ⟨f, sc, hl⟩⟩

/-- To resolve a function is to perform its acts. -/
theorem FunctionDef.resolve_eq (fn : FunctionDef Mark) (globals : List Name) :
    fn.resolve globals = (performAll globals fn.acts (.empty fn.mark.id)).map (·.2) := by
  rw [FunctionDef.resolve, openFunction_eq globals, stmts_eq, FunctionDef.acts, performAll_cons]
  rfl

theorem FunctionDef.resolve_performs {fn : FunctionDef Mark} {globals : List Name} {a : Scoping}
    (h : fn.resolve globals = .ok a) :
    performAll globals fn.acts (.empty fn.mark.id) = .ok ((), a) := by
  rw [fn.resolve_eq] at h
  cases hp : performAll globals fn.acts (.empty fn.mark.id) with
  | error => rw [hp] at h; cases h
  | ok x => rw [hp] at h; cases h; rfl

end FlatScope
