import FlatScope.Parser.Report
import FlatScope.Proofs.Grammar.Parse
import FlatScope.Proofs.Numbering
import FlatScope.Proofs.Source

/-!
# What is read

Every node of a program that was read is one that a rule of the grammar makes (`Grammar.Built`), of
the tokens of the source and of targets that can be assigned to (`built_of_parse`). So it is of a
form that the grammar has a text for (`Node.Legible`): its literals are values of tokens, its
identifiers are names, its operators are those of the language, and the clauses of its loops and the
targets of its assignments are what may stand there. There are no other trees that a source denotes,
so a property of all nodes that are read is shown for the nodes that rules make, or for legible
ones. In particular what is read is a source of the lowering (`parse_isSource`).
-/

namespace FlatScope

open Grammar

/-! ## Legible nodes -/

/-- A word that is not reserved. -/
def IsName (n : Name) : Prop := Matches (some .name) n

/-- A constant that a token denotes. -/
def Literal.Legible : Literal → Prop
  | .undefined | .bool _ => True
  | .number n => ∃ t, Matches (some .number) t ∧ Token.numberValue t = .ok n
  | .text u => ∃ t, Matches (some .string) t ∧ Token.stringValue t = .ok u

/-- A node of a form that the grammar has; its parts are not looked at, but for the targets of
    assignments and the clauses of loops. -/
def Node.Legible : Node Extent → Prop
  | .expr (.literal _ v) => v.Legible
  | .expr (.name _ n) => IsName n
  | .expr (.unary _ op _) => ∀ s, op ≠ .other s
  | .expr (.binary _ op _ _) => ∀ s, op ≠ .other s
  | .expr (.function _ ps _) => ∀ n ∈ ps, IsName n
  | .expr (.signal ..) | .expr (.signalIs ..) | .expr (.signalValue ..) | .expr (.unknown ..) =>
    False
  | .stmt (.declaration _ n _ _) => IsName n
  | .stmt (.assignment _ t _) => Parser.isTarget t
  | .stmt (.unknown ..) => False
  | .header (.counting _ i _ u) => (∀ s ∈ i, s.isInit) ∧ ∀ s ∈ u, s.isUpdate
  | .header (.forOf _ n _ _) => IsName n
  | .header (.unknown ..) => False
  | .function fn => IsName fn.name ∧ ∀ n ∈ fn.params, IsName n
  | _ => True

/-- The nodes of a program. -/
def Program.nodes {α : Type} (p : Program α) : List (Node α) :=
  p.functions.flatMap FunctionDef.nodes ++ Stmt.nodesOfList p.statements

/-- The nodes of a branch are those of its parts, the second block among them if there is one. -/
theorem Stmt.nodes_branch {α : Type} (a : α) (c : Expr α) (t : Block α) (e : Option (Block α)) :
    (Stmt.branch a c t e).nodes =
      .stmt (.branch a c t e) :: (c.nodes ++ (t.nodes ++ e.elim [] Block.nodes)) := by
  cases e <;> rw [Stmt.nodes] <;> rfl

namespace Grammar

/-! ## The nodes that rules make -/

/-- That something has a property, as the only thing that it contributes. -/
def single {γ : Type} (holds : γ → Prop) (x : γ) : List Prop := [holds x]

/-- A node that a rule of the grammar makes, of tokens with the property `ok` and with targets of
    the property `fit`; its parts are not looked at, but for the clauses of loops. -/
inductive Built (ok : Token → Prop) (fit : Expr Extent → Prop) : Node Extent → Prop
  | constant {c : Constant} : ok c.token → Built ok fit (.expr (.literal c.token.extent c.value))
  | name {t : Leaf .name} : ok t.1 → Built ok fit (.expr (.name t.1.extent t.1.text))
  | unary {a : Extent} {s : Sign} {e : Expr Extent} : Built ok fit (.expr (.unary a s.op e))
  | binary {a : Extent} {p : Nat} {o : Infix p} {l r : Expr Extent} : ok o.token.1 →
      Built ok fit (.expr (.binary a o.op l r))
  | call {a : Extent} {f : Expr Extent} {args : List (Expr Extent)} :
      Built ok fit (.expr (.call a f args))
  | array {a : Extent} {es : List (Expr Extent)} : Built ok fit (.expr (.array a es))
  | index {a : Extent} {b i : Expr Extent} : Built ok fit (.expr (.index a b i))
  | function {a : Extent} {ps : Option Params} {b : Block Extent} :
      (∀ q ∈ collectParams (single ok) ps, q) →
      Built ok fit (.expr (.function a (paramNames ps) b))
  | block {b : Block Extent} : Built ok fit (.block b)
  | declaration {a : Extent} {n : Leaf .name} {k : DeclKind} {v : Option (Expr Extent)} : ok n.1 →
      Built ok fit (.stmt (.declaration a n.1.text k v))
  | assignment {a : Extent} {t v : Expr Extent} : fit t → Built ok fit (.stmt (.assignment a t v))
  | expression {a : Extent} {e : Expr Extent} : Built ok fit (.stmt (.expression a e))
  | branch {a : Extent} {c : Expr Extent} {t : Block Extent} {e : Option (Block Extent)} :
      Built ok fit (.stmt (.branch a c t e))
  | loop {a : Extent} {h : Header Extent} {b : Block Extent} : Built ok fit (.stmt (.loop a h b))
  | ret {a : Extent} {v : Option (Expr Extent)} : Built ok fit (.stmt (.ret a v))
  | brk {a : Extent} : Built ok fit (.stmt (.brk a))
  | cont {a : Extent} : Built ok fit (.stmt (.cont a))
  | whileTrue {a : Extent} {c : Expr Extent} : Built ok fit (.header (.whileTrue a c))
  | counting {a : Extent} {i : Option (Stmt Extent)} {c : Option (Expr Extent)}
      {u : Option (Stmt Extent)} : (∀ s ∈ i, s.isInit) → (∀ s ∈ u, s.isUpdate) →
      Built ok fit (.header (.counting a i c u))
  | forOf {n : Leaf .name} {k : Option DeclKind} {e : Expr Extent} : ok n.1 →
      Built ok fit (.header (.forOf n.1.extent n.1.text k e))
  | top {a : Extent} {n : Leaf .name} {ps : Option Params} {b : Block Extent} : ok n.1 →
      (∀ q ∈ collectParams (single ok) ps, q) →
      Built ok fit (.function ⟨a, n.1.text, paramNames ps, b⟩)

section Built

variable {ok : Token → Prop} {fit : Expr Extent → Prop}

@[simp] theorem forall_mem_single {γ : Type} {holds : γ → Prop} {x : γ} :
    (∀ q ∈ single holds x, q) ↔ holds x := List.forall_mem_singleton

mutual

theorem ExprTree.built :
    ∀ {p : Nat} (d : ExprTree p), (∀ q ∈ d.collect (single ok) (single fit), q) →
    ∀ n ∈ d.denote.nodes, Built ok fit n
  | _, .chain _ first tails, h => by
    simp only [ExprTree.collect, List.forall_mem_append] at h
    exact tails.built _ (first.built h.1) h.2
  | _, .signed s e, h => by
    simp only [ExprTree.collect, List.forall_mem_append] at h
    simp only [ExprTree.denote, Expr.nodes,
      List.forall_mem_cons]
    exact ⟨.unary, e.built h.2⟩
  | _, .suffixed a ss, h => by
    simp only [ExprTree.collect, List.forall_mem_append] at h
    exact ss.built _ (a.built h.1) h.2
  termination_by structural _ d => d

theorem Tails.built : ∀ {p : Nat} (d : Tails p) (l : Expr Extent),
    (∀ n ∈ l.nodes, Built ok fit n) → (∀ q ∈ d.collect (single ok) (single fit), q) →
    ∀ n ∈ (d.denote l).nodes, Built ok fit n
  | _, .nil, l, hl, _ => hl
  | _, .cons o e rest, l, hl, h => by
    simp only [Tails.collect, List.forall_mem_append, forall_mem_single] at h
    refine rest.built _ ?_ h.2.2
    simp only [Expr.nodes, List.forall_mem_cons, List.forall_mem_append]
    exact ⟨.binary h.1, hl, e.built h.2.1⟩
  termination_by structural _ d => d

theorem Suffixes.built : ∀ (d : Suffixes) (f : Expr Extent),
    (∀ n ∈ f.nodes, Built ok fit n) → (∀ q ∈ d.collect (single ok) (single fit), q) →
    ∀ n ∈ (d.denote f).nodes, Built ok fit n
  | .nil, f, hf, _ => hf
  | .call lp args rp rest, f, hf, h => by
    simp only [Suffixes.collect, List.forall_mem_append] at h
    refine rest.built _ ?_ h.2.2.2
    simp only [Expr.nodes, List.forall_mem_cons, List.forall_mem_append]
    exact ⟨.call, hf, args.built h.2.1⟩
  | .index lb i rb rest, f, hf, h => by
    simp only [Suffixes.collect, List.forall_mem_append] at h
    refine rest.built _ ?_ h.2.2.2
    simp only [Expr.nodes, List.forall_mem_cons, List.forall_mem_append]
    exact ⟨.index, hf, i.built h.2.1⟩
  termination_by structural d => d

theorem Args.built : ∀ (d : Args), (∀ q ∈ d.collect (single ok) (single fit), q) →
    ∀ n ∈ Expr.nodesOfList d.denote, Built ok fit n
  | .none, _ => fun n hn => nomatch hn
  | .some e rest, h => by
    simp only [Args.collect, List.forall_mem_append] at h
    simp only [Args.denote, Expr.nodesOfList, List.forall_mem_append]
    exact ⟨e.built h.1, rest.built h.2⟩
  termination_by structural d => d

theorem MoreArgs.built : ∀ (d : MoreArgs), (∀ q ∈ d.collect (single ok) (single fit), q) →
    ∀ n ∈ Expr.nodesOfList d.denote, Built ok fit n
  | .nil, _ => fun n hn => nomatch hn
  | .cons _ e rest, h => by
    simp only [MoreArgs.collect, List.forall_mem_append] at h
    simp only [MoreArgs.denote, Expr.nodesOfList, List.forall_mem_append]
    exact ⟨e.built h.2.1, rest.built h.2.2⟩
  termination_by structural d => d

theorem AtomTree.built : ∀ (d : AtomTree), (∀ q ∈ d.collect (single ok) (single fit), q) →
    ∀ n ∈ d.denote.nodes, Built ok fit n
  | .constant c, h => by
    simp only [AtomTree.denote, Expr.nodes, List.forall_mem_singleton]
    exact .constant (forall_mem_single.mp h)
  | .name t, h => by
    simp only [AtomTree.denote, Expr.nodes, List.forall_mem_singleton]
    exact .name (forall_mem_single.mp h)
  | .array lb es rb, h => by
    simp only [AtomTree.collect, List.forall_mem_append] at h
    simp only [AtomTree.denote, Expr.nodes, List.forall_mem_cons]
    exact ⟨.array, es.built h.2.1⟩
  | .function w lp ps rp b, h => by
    simp only [AtomTree.collect, List.forall_mem_append] at h
    simp only [AtomTree.denote, Expr.nodes, List.forall_mem_cons]
    exact ⟨.function h.2.2.1, b.built h.2.2.2.2⟩
  | .paren lp e rp, h => by
    simp only [AtomTree.collect, List.forall_mem_append] at h
    exact e.built h.2.1
  termination_by structural d => d

theorem BlockTree.built : ∀ (d : BlockTree), (∀ q ∈ d.collect (single ok) (single fit), q) →
    ∀ n ∈ d.denote.nodes, Built ok fit n
  | .mk lb ss rb, h => by
    simp only [BlockTree.collect, List.forall_mem_append] at h
    simp only [BlockTree.denote, Block.nodes, List.forall_mem_cons]
    exact ⟨.block, ss.built h.2.1⟩
  termination_by structural d => d

theorem StmtTrees.built : ∀ (d : StmtTrees), (∀ q ∈ d.collect (single ok) (single fit), q) →
    ∀ n ∈ Stmt.nodesOfList d.denote, Built ok fit n
  | .nil, _ => fun n hn => nomatch hn
  | .cons s ss, h => by
    simp only [StmtTrees.collect, List.forall_mem_append] at h
    simp only [StmtTrees.denote, Stmt.nodesOfList, List.forall_mem_append]
    exact ⟨s.built h.1, ss.built h.2⟩
  termination_by structural d => d

theorem StmtTree.built : ∀ (d : StmtTree), (∀ q ∈ d.collect (single ok) (single fit), q) →
    ∀ n ∈ d.denote.nodes, Built ok fit n
  | .clause c _, h => by
    simp only [StmtTree.collect, List.forall_mem_append] at h
    exact (c.built h.1).2
  | .ret w .none _, _ => by
    simp only [StmtTree.denote, Stmt.nodes, List.forall_mem_singleton]
    exact .ret
  | .ret w (.some e) _, h => by
    simp only [StmtTree.collect, MaybeExpr.collect, List.forall_mem_append] at h
    simp only [StmtTree.denote, Stmt.nodes, List.forall_mem_cons]
    exact ⟨.ret, e.built h.2.1⟩
  | .brk w _, _ => by
    simp only [StmtTree.denote, Stmt.nodes, List.forall_mem_singleton]
    exact .brk
  | .cont w _, _ => by
    simp only [StmtTree.denote, Stmt.nodes, List.forall_mem_singleton]
    exact .cont
  | .branch i, h => i.built h
  | .whileLoop w lp c rp b, h => by
    simp only [StmtTree.collect, List.forall_mem_append] at h
    simp only [StmtTree.denote, Stmt.nodes, Header.nodes, List.forall_mem_cons,
      List.forall_mem_append]
    exact ⟨.loop, ⟨.whileTrue, c.built h.2.2.1⟩, b.built h.2.2.2.2⟩
  | .forLoop w lp i sc c sc' u rp b, h => by
    simp only [StmtTree.collect, List.forall_mem_append] at h
    obtain ⟨-, -, hi, -, hc, -, hu, -, hb⟩ := h
    obtain ⟨hinit, hi⟩ := i.built hi
    obtain ⟨hupdate, hu⟩ := u.built hu
    simp only [StmtTree.denote, Stmt.nodes, Header.nodes_counting,
      List.forall_mem_cons, List.forall_mem_append]
    exact ⟨.loop, ⟨.counting hinit hupdate, hi, c.built hc, hu⟩, b.built hb⟩
  | .forOf w lp d n o e rp b, h => by
    simp only [StmtTree.collect, List.forall_mem_append, forall_mem_single] at h
    simp only [StmtTree.denote, Stmt.nodes, Header.nodes, List.forall_mem_cons,
      List.forall_mem_append]
    exact ⟨.loop, ⟨.forOf h.2.2.2.1, e.built h.2.2.2.2.2.1⟩, b.built h.2.2.2.2.2.2.2⟩
  | .block b, h => b.built h
  termination_by structural d => d

theorem ClauseTree.built : ∀ (d : ClauseTree), (∀ q ∈ d.collect (single ok) (single fit), q) →
    d.denote.isInit ∧ ∀ n ∈ d.denote.nodes, Built ok fit n
  | .declaration w n, h => by
    simp only [ClauseTree.collect, List.forall_mem_append, forall_mem_single] at h
    refine ⟨rfl, ?_⟩
    simp only [ClauseTree.denote, Stmt.nodes, List.forall_mem_singleton]
    exact .declaration h.2
  | .initialized w n eq e, h => by
    simp only [ClauseTree.collect, List.forall_mem_append, forall_mem_single] at h
    refine ⟨rfl, ?_⟩
    simp only [ClauseTree.denote, Stmt.nodes, List.forall_mem_cons]
    exact ⟨.declaration h.2.1, e.built h.2.2.2⟩
  | .simple s, h => by
    obtain ⟨hupdate, hs⟩ := s.built h
    refine ⟨?_, hs⟩
    cases s <;> rfl
  termination_by structural d => d

theorem SimpleTree.built : ∀ (d : SimpleTree), (∀ q ∈ d.collect (single ok) (single fit), q) →
    d.denote.isUpdate ∧ ∀ n ∈ d.denote.nodes, Built ok fit n
  | .assignment t eq v, h => by
    simp only [SimpleTree.collect, List.forall_mem_append, forall_mem_single] at h
    refine ⟨rfl, ?_⟩
    simp only [SimpleTree.denote, Stmt.nodes, List.forall_mem_cons, List.forall_mem_append]
    exact ⟨.assignment h.2.2.2, t.built h.1, v.built h.2.2.1⟩
  | .expression e, h => by
    refine ⟨rfl, ?_⟩
    simp only [SimpleTree.denote, Stmt.nodes, List.forall_mem_cons]
    exact ⟨.expression, e.built h⟩
  termination_by structural d => d

theorem MaybeExpr.built : ∀ (d : MaybeExpr), (∀ q ∈ d.collect (single ok) (single fit), q) →
    ∀ n ∈ d.denote.elim [] Expr.nodes, Built ok fit n
  | .none, _ => nofun
  | .some e, h => e.built h
  termination_by structural d => d

theorem MaybeClause.built : ∀ (d : MaybeClause), (∀ q ∈ d.collect (single ok) (single fit), q) →
    (∀ s ∈ d.denote, s.isInit) ∧ ∀ n ∈ d.denote.elim [] Stmt.nodes, Built ok fit n
  | .none, _ => ⟨nofun, nofun⟩
  | .some c, h => by
    obtain ⟨hinit, hnodes⟩ := c.built h
    exact ⟨fun s hs => Option.some.inj hs ▸ hinit, hnodes⟩
  termination_by structural d => d

theorem MaybeSimple.built : ∀ (d : MaybeSimple), (∀ q ∈ d.collect (single ok) (single fit), q) →
    (∀ s ∈ d.denote, s.isUpdate) ∧ ∀ n ∈ d.denote.elim [] Stmt.nodes, Built ok fit n
  | .none, _ => ⟨nofun, nofun⟩
  | .some s, h => by
    obtain ⟨hupdate, hnodes⟩ := s.built h
    exact ⟨fun s' hs' => Option.some.inj hs' ▸ hupdate, hnodes⟩
  termination_by structural d => d

theorem IfTree.built : ∀ (d : IfTree), (∀ q ∈ d.collect (single ok) (single fit), q) →
    ∀ n ∈ d.denote.nodes, Built ok fit n
  | .mk w lp c rp b o, h => by
    simp only [IfTree.collect, List.forall_mem_append] at h
    simp only [IfTree.denote, Stmt.nodes_branch, List.forall_mem_cons,
      List.forall_mem_append]
    exact ⟨.branch, c.built h.2.2.1, b.built h.2.2.2.2.1, o.built h.2.2.2.2.2⟩
  termination_by structural d => d

theorem ElseTree.built : ∀ (d : ElseTree), (∀ q ∈ d.collect (single ok) (single fit), q) →
    ∀ n ∈ d.denote.elim [] Block.nodes, Built ok fit n
  | .none, _ => fun n hn => nomatch hn
  | .block _ b, h => by
    simp only [ElseTree.collect, List.forall_mem_append] at h
    exact b.built h.2
  | .elseIf _ i, h => by
    simp only [ElseTree.collect, List.forall_mem_append] at h
    simp only [ElseTree.denote, Option.elim_some, Block.nodes, Stmt.nodesOfList, List.append_nil,
      List.forall_mem_cons]
    exact ⟨.block, i.built h.2⟩
  termination_by structural d => d

end

theorem FunctionTree.built {f : FunctionTree} (h : ∀ q ∈ f.collect (single ok) (single fit), q) :
    ∀ n ∈ f.denote.nodes, Built ok fit n := by
  simp only [FunctionTree.collect, List.forall_mem_append, forall_mem_single] at h
  simp only [FunctionTree.denote, FunctionDef.nodes, List.forall_mem_cons]
  exact ⟨.top h.2.1 h.2.2.2.1, f.body.built h.2.2.2.2.2⟩

theorem ProgramTree.built {d : ProgramTree} (h : ∀ q ∈ d.collect (single ok) (single fit), q) :
    ∀ n ∈ d.denote.nodes, Built ok fit n := by
  have hitem : ∀ i ∈ d, ∀ q ∈ Item.collect (single ok) (single fit) i, q := by
    simpa only [ProgramTree.collect, List.forall_mem_flatMap] using h
  simp only [ProgramTree.denote, Program.nodes, List.forall_mem_append, List.forall_mem_flatMap]
  constructor
  · intro fn hfn
    obtain ⟨i, hi, heq⟩ := List.mem_filterMap.mp hfn
    cases i with
    | stmt s => cases heq
    | function f => cases heq; exact FunctionTree.built (hitem _ hi)
  · clear h
    induction d with
    | nil => exact fun n hn => absurd hn List.not_mem_nil
    | cons i d ih =>
      have htail := ih fun j hj => hitem j (List.mem_cons_of_mem i hj)
      cases i with
      | function f => exact htail
      | stmt s =>
        simp only [List.filterMap_cons, Item.stmt?, Stmt.nodesOfList, List.forall_mem_append]
        exact ⟨s.built (hitem _ List.mem_cons_self), htail⟩

end Built

/-! ## What rules make is legible -/

/-- That a token matches its terminal, and has a value if it is a literal. -/
def Valued (t : Token) : Prop := Matches (some t.terminal) t.text ∧ literalFaults t = []

theorem Valued.matches_leaf {k : Terminal} {t : Leaf k} (h : Valued t.1) :
    Matches (some k) t.1.text := by
  have hmatches := h.1
  rwa [t.2] at hmatches

theorem Valued.constant {c : Constant} (h : Valued c.token) : c.value.Legible := by
  have hvalue := literalFaults_eq_nil_iff.mp h.2
  cases c with
  | number t =>
    obtain ⟨n, hn⟩ := hvalue.1 t.2
    rw [Constant.token] at hn
    simp only [Constant.value, hn]
    exact ⟨_, h.matches_leaf, hn⟩
  | string t =>
    obtain ⟨u, hu⟩ := hvalue.2 t.2
    rw [Constant.token] at hu
    simp only [Constant.value, hu]
    exact ⟨_, h.matches_leaf, hu⟩
  | true | false | undefined => trivial

theorem isName_paramNames : ∀ {ps : Option Params}, (∀ q ∈ collectParams (single Valued) ps, q) →
    ∀ n ∈ paramNames ps, IsName n
  | none, _, n, hn => nomatch hn
  | some ps, h, n, hn => by
    simp only [collectParams, Params.collect, List.forall_mem_append, List.forall_mem_flatMap,
      forall_mem_single] at h
    rcases List.mem_cons.mp hn with rfl | hn
    · exact h.1.matches_leaf
    · obtain ⟨x, hx, rfl⟩ := List.mem_map.mp hn
      exact (h.2 x hx).2.matches_leaf

/-- The nodes that are made of tokens with values and of targets that can be assigned to are
    legible. -/
theorem Built.legible {n : Node Extent} (h : Built Valued (fun e => Parser.isTarget e) n) :
    n.Legible := by
  cases h with
  | constant h => exact h.constant
  | name h => exact h.matches_leaf
  | @unary _ s => cases s <;> exact nofun
  | binary h => exact fun s hs => h.matches_leaf.known s (congrArg Terminal.operator hs)
  | function h => exact isName_paramNames h
  | declaration h => exact h.matches_leaf
  | assignment h => exact h
  | counting hinit hupdate => exact ⟨hinit, hupdate⟩
  | forOf h => exact h.matches_leaf
  | top hname hparams => exact ⟨hname.matches_leaf, isName_paramNames hparams⟩
  | _ => trivial

end Grammar

/-- All nodes of a program that was read are made by rules, of the tokens of its source and of
    targets that can be assigned to. -/
theorem built_of_parse {source : Text} {P : Program Extent} (h : Parser.parse source = .ok P) :
    ∃ ts, Splits .origin source ts ∧ ∀ ok : Token → Prop, (∀ t ∈ ts, Valued t → ok t) →
      ∀ n ∈ P.nodes, Built ok (fun e => Parser.isTarget e) n := by
  obtain ⟨d, hsplit, hfaults, rfl⟩ := parse_iff_denote.mp h
  refine ⟨d.tokens, hsplit, fun ok hok => ProgramTree.built ?_⟩
  obtain ⟨hliteral, htarget⟩ := ProgramTree.faults_eq_nil_iff.mp hfaults
  rw [ProgramTree.collect_eq]
  simp only [List.forall_mem_flatMap, Sum.forall, Sum.elim_inl, Sum.elim_inr, forall_mem_single,
    ← ProgramTree.mem_tokens, ← ProgramTree.mem_targets]
  exact ⟨fun t ht => hok t ht ⟨matches_of_splits hsplit t ht, hliteral t ht⟩,
      fun e he => isTarget_iff.mpr (htarget e he)⟩

/-- All nodes of a program that was read are legible. -/
theorem legible_of_parse {source : Text} {P : Program Extent} (h : Parser.parse source = .ok P) :
    ∀ n ∈ P.nodes, n.Legible := by
  obtain ⟨ts, -, hbuilt⟩ := built_of_parse h
  exact fun n hn => (hbuilt Valued (fun _ _ ht => ht) n hn).legible

/-! ## Legible trees are sources -/

mutual

theorem Expr.isSource_of_legible : ∀ (e : Expr Extent), (∀ n ∈ e.nodes, n.Legible) → e.IsSource
  | .literal .., _ | .name .., _ => trivial
  | .unary _ _ e, h => by
    simp only [Expr.nodes, List.forall_mem_cons] at h
    exact Expr.isSource_of_legible e h.2
  | .binary _ _ l r, h => by
    simp only [Expr.nodes, List.forall_mem_cons, List.forall_mem_append] at h
    exact ⟨Expr.isSource_of_legible _ h.2.1, Expr.isSource_of_legible _ h.2.2⟩
  | .call _ f args, h => by
    simp only [Expr.nodes, List.forall_mem_cons, List.forall_mem_append] at h
    exact ⟨Expr.isSource_of_legible _ h.2.1, Expr.areSource_of_legible _ h.2.2⟩
  | .array _ es, h => by
    simp only [Expr.nodes, List.forall_mem_cons] at h
    exact Expr.areSource_of_legible es h.2
  | .index _ b i, h => by
    simp only [Expr.nodes, List.forall_mem_cons, List.forall_mem_append] at h
    exact ⟨Expr.isSource_of_legible _ h.2.1, Expr.isSource_of_legible _ h.2.2⟩
  | .function _ _ b, h => by
    simp only [Expr.nodes, List.forall_mem_cons] at h
    exact Block.isSource_of_legible b h.2
  | .signal .., h | .signalIs .., h | .signalValue .., h | .unknown .., h => by
    unfold Expr.nodes at h
    exact (h _ List.mem_cons_self : False).elim

theorem Expr.areSource_of_legible : ∀ (es : List (Expr Extent)),
    (∀ n ∈ Expr.nodesOfList es, n.Legible) → Expr.AreSource es
  | [], _ => trivial
  | e :: es, h => by
    simp only [Expr.nodesOfList, List.forall_mem_append] at h
    exact ⟨Expr.isSource_of_legible _ h.1, Expr.areSource_of_legible _ h.2⟩

theorem Block.isSource_of_legible : ∀ (b : Block Extent), (∀ n ∈ b.nodes, n.Legible) → b.IsSource
  | .mk _ ss, h => by
    simp only [Block.nodes, List.forall_mem_cons] at h
    exact Stmt.areSource_of_legible ss h.2

theorem Stmt.isSource_of_legible : ∀ (s : Stmt Extent), (∀ n ∈ s.nodes, n.Legible) → s.IsSource
  | .declaration _ _ _ none, _ | .ret _ none, _ | .brk _, _ | .cont _, _ => trivial
  | .declaration _ _ _ (some e), h | .ret _ (some e), h | .expression _ e, h => by
    simp only [Stmt.nodes, List.forall_mem_cons] at h
    exact Expr.isSource_of_legible e h.2
  | .assignment _ t v, h => by
    simp only [Stmt.nodes, List.forall_mem_cons, List.forall_mem_append] at h
    exact ⟨Expr.isSource_of_legible _ h.2.1, Expr.isSource_of_legible _ h.2.2⟩
  | .block b, h => Block.isSource_of_legible b h
  | .branch _ c t none, h => by
    simp only [Stmt.nodes, List.forall_mem_cons, List.forall_mem_append] at h
    exact ⟨Expr.isSource_of_legible _ h.2.1, Block.isSource_of_legible _ h.2.2.1⟩
  | .branch _ c t (some e), h => by
    simp only [Stmt.nodes, List.forall_mem_cons, List.forall_mem_append] at h
    exact ⟨Expr.isSource_of_legible _ h.2.1, Block.isSource_of_legible _ h.2.2.1,
      Block.isSource_of_legible _ h.2.2.2⟩
  | .loop _ hd b, h => by
    simp only [Stmt.nodes, List.forall_mem_cons, List.forall_mem_append] at h
    exact ⟨Header.isSource_of_legible _ h.2.1, Block.isSource_of_legible _ h.2.2⟩
  | .unknown .., h => by
    rw [Stmt.nodes] at h
    exact h _ List.mem_cons_self

theorem Stmt.areSource_of_legible : ∀ (ss : List (Stmt Extent)),
    (∀ n ∈ Stmt.nodesOfList ss, n.Legible) → Stmt.AreSource ss
  | [], _ => trivial
  | s :: ss, h => by
    simp only [Stmt.nodesOfList, List.forall_mem_append] at h
    exact ⟨Stmt.isSource_of_legible _ h.1, Stmt.areSource_of_legible _ h.2⟩

theorem Stmt.isSource_of_legibleClause : ∀ (o : Option (Stmt Extent)) {s : Stmt Extent},
    o = some s → (∀ n ∈ s.nodes, n.Legible) → s.IsSource
  | some s, _, rfl => s.isSource_of_legible

theorem Expr.isSource_of_legibleClause : ∀ (o : Option (Expr Extent)) {e : Expr Extent},
    o = some e → (∀ n ∈ e.nodes, n.Legible) → e.IsSource
  | some e, _, rfl => e.isSource_of_legible

theorem Header.isSource_of_legible : ∀ (hd : Header Extent), (∀ n ∈ hd.nodes, n.Legible) →
    hd.IsSource
  | .whileTrue _ c, h | .forOf _ _ _ c, h => by
    simp only [Header.nodes, List.forall_mem_cons] at h
    exact Expr.isSource_of_legible c h.2
  | .counting _ i c u, h => by
    rw [Header.nodes_counting, List.forall_mem_cons, List.forall_mem_append,
      List.forall_mem_append] at h
    obtain ⟨⟨hi, hu⟩, hni, hnc, hnu⟩ := h
    refine Header.shaped_counting.2 ⟨fun s hs => ⟨hi s hs, ?_⟩, fun e he => ?_,
      fun s hs => ⟨hu s hs, ?_⟩⟩
    · exact Stmt.isSource_of_legibleClause i hs fun n hn => hni n (by rwa [hs])
    · exact Expr.isSource_of_legibleClause c he fun n hn => hnc n (by rwa [he])
    · exact Stmt.isSource_of_legibleClause u hs fun n hn => hnu n (by rwa [hs])
  | .unknown .., h => by
    rw [Header.nodes] at h
    exact h _ List.mem_cons_self

end

/-- A program that was read can be lowered as a source. -/
theorem parse_isSource {source : Text} {P : Program Extent} (h : Parser.parse source = .ok P) :
    P.IsSource := by
  have hlegible := legible_of_parse h
  simp only [Program.nodes, List.forall_mem_append, List.forall_mem_flatMap] at hlegible
  refine ⟨fun fn hfn => ?_, Stmt.areSource_of_legible _ hlegible.2⟩
  have hnodes := hlegible.1 fn hfn
  simp only [FunctionDef.nodes, List.forall_mem_cons] at hnodes
  exact Block.isSource_of_legible _ hnodes.2

/-- So can one whose places are in a file. -/
theorem parseFile_isSource {source : Text} {file : Option Text} {p : Program Span}
    (h : Parser.parseFile source file = .ok p) : p.IsSource := by
  rw [Parser.parseFile] at h
  cases hparse : Parser.parse source with
  | error e =>
    rw [hparse] at h
    cases h
  | ok P =>
    rw [hparse] at h
    obtain rfl : P.map (Span.ofExtent file) = p := Except.ok.inj h
    exact (P.isSource_map _).2 (parse_isSource hparse)

end FlatScope
