import FlatScope.Proofs.Printing.Spelling
import FlatScope.Printer
import FlatScope.Syntax.Map

/-!
# Tokens that derive a given tree

For every kind of tree, the token sequences that have a derivation without faults which denotes the
tree, up to marks (`DerivesExpr` and its companions), and for every rule of the grammar how they are
put together. Chains of operators and of suffixes are built from the right end here, as the trees
that they denote associate to the left.
-/

namespace FlatScope

/-- The tree without its marks. -/
abbrev Expr.bare {α : Type} (e : Expr α) : Expr Unit := e.map fun _ => ()

abbrev Block.bare {α : Type} (b : Block α) : Block Unit := b.map fun _ => ()

abbrev Stmt.bare {α : Type} (s : Stmt α) : Stmt Unit := s.map fun _ => ()

abbrev Header.bare {α : Type} (h : Header α) : Header Unit := h.map fun _ => ()

section Marks

variable {α β : Type} (f : α → β)

theorem Stmt.map_branch (a : α) (c : Expr α) (t : Block α) (o : Option (Block α)) :
    (Stmt.branch a c t o).map f =
      .branch (f a) (c.map f) (t.map f) (o.map (Block.map f)) := by
  cases o <;> rfl

end Marks

namespace Grammar

open FlatScope.Parser (Fault)
open FlatScope.Printer (openBrace closeBrace)

/-- The tokens of a derivation without faults whose tree is the given one. -/
def Derives {δ β : Type} (tokens : δ → List Token) (faults : δ → List (Fault × Extent))
    (tree : δ → β) (b : β) (ts : List Token) : Prop :=
  ∃ d, ts = tokens d ∧ faults d = [] ∧ tree d = b

/-- Tokens of an expression of a level. -/
abbrev DerivesExpr (p : Nat) (e : Expr Extent) : List Token → Prop :=
  Derives (ExprTree.tokens (p := p)) ExprTree.faults (fun d => d.denote.bare) e.bare

/-- Tokens of an atom with suffixes. -/
abbrev DerivesPostfix (e : Expr Extent) : List Token → Prop :=
  Derives (fun d : AtomTree × Suffixes => d.1.tokens ++ d.2.tokens)
    (fun d => d.1.faults ++ d.2.faults) (fun d => (d.2.denote d.1.denote).bare) e.bare

/-- These tokens derive the arguments `es`, up to spans. -/
abbrev DerivesArgs (es : List (Expr Extent)) : List Token → Prop :=
  Derives Args.tokens Args.faults (fun d => Expr.mapList (fun _ => ()) d.denote)
    (Expr.mapList (fun _ => ()) es)

/-- These tokens derive the further arguments `es`, each after a comma. -/
abbrev DerivesMore (es : List (Expr Extent)) : List Token → Prop :=
  Derives MoreArgs.tokens MoreArgs.faults (fun d => Expr.mapList (fun _ => ()) d.denote)
    (Expr.mapList (fun _ => ()) es)

/-- These tokens derive the parameters `ps`. -/
abbrev DerivesParams (ps : List Name) : List Token → Prop :=
  Derives (collectParams own) (collectParams literalFaults) paramNames ps

/-- These tokens derive the block `b`, up to spans. -/
abbrev DerivesBlock (b : Block Extent) : List Token → Prop :=
  Derives BlockTree.tokens BlockTree.faults (fun d => d.denote.bare) b.bare

/-- These tokens derive the statements `ss`, up to spans. -/
abbrev DerivesStmts (ss : List (Stmt Extent)) : List Token → Prop :=
  Derives StmtTrees.tokens StmtTrees.faults (fun d => Stmt.mapList (fun _ => ()) d.denote)
    (Stmt.mapList (fun _ => ()) ss)

/-- These tokens derive the statement `s`, up to spans. -/
abbrev DerivesStmt (s : Stmt Extent) : List Token → Prop :=
  Derives StmtTree.tokens StmtTree.faults (fun d => d.denote.bare) s.bare

/-- These tokens derive `s` as the first clause of a `for`. -/
abbrev DerivesClause (s : Stmt Extent) : List Token → Prop :=
  Derives ClauseTree.tokens ClauseTree.faults (fun d => d.denote.bare) s.bare

/-- These tokens derive `s` as an assignment or an expression statement without its semicolon. -/
abbrev DerivesSimple (s : Stmt Extent) : List Token → Prop :=
  Derives SimpleTree.tokens SimpleTree.faults (fun d => d.denote.bare) s.bare

/-- These tokens derive `s` as an `if` with what follows it. -/
abbrev DerivesIf (s : Stmt Extent) : List Token → Prop :=
  Derives IfTree.tokens IfTree.faults (fun d => d.denote.bare) s.bare

/-- These tokens derive the `else` that follows an `if`, or nothing. -/
abbrev DerivesElse (o : Option (Block Extent)) : List Token → Prop :=
  Derives ElseTree.tokens ElseTree.faults (fun d => d.denote.map Block.bare) (o.map Block.bare)

/-- Tokens of a loop up to its body. -/
def DerivesHeader (h : Header Extent) (ts : List Token) : Prop :=
  ∃ loop : BlockTree → StmtTree, ∀ b : BlockTree, (loop b).tokens = ts ++ b.tokens ∧
    (loop b).faults = b.faults ∧ (loop b).denote.bare = .loop () h.bare b.denote.bare

section Expressions

variable {a : Extent} {e l r f : Expr Extent} {es : List (Expr Extent)} {p q : Nat}
  {ts : List Token}

/-! ## Levels -/

theorem DerivesPostfix.expr (h : DerivesPostfix e ts) : DerivesExpr 7 e ts := by
  obtain ⟨⟨a, ss⟩, rfl, hf, hd⟩ := h
  exact ⟨.suffixed a ss, rfl, hf, hd⟩

/-- What can stand on one level can stand on every looser one. -/
theorem DerivesExpr.loosen (h : DerivesExpr p e ts) (hp : p ≤ 7) (hq : 0 < q) (hqp : q ≤ p) :
    DerivesExpr q e ts := by
  induction hqp with
  | refl => exact h
  | @step p hle ih =>
    -- an operand alone is a chain
    obtain ⟨d, rfl, hf, hd⟩ := h
    refine ih ⟨.chain ⟨Nat.lt_of_lt_of_le hq hle, hp⟩ d .nil, ?_, ?_, hd⟩ (Nat.le_of_succ_le hp)
    · simp [ExprTree.collect, Tails.collect]
    · simpa [ExprTree.collect, Tails.collect] using hf

/-- In parentheses, any expression can stand where a postfix expression can. -/
theorem DerivesPostfix.paren
    (h : Then (Then (Single .leftParen "(") (DerivesExpr 1 e)) (Single .rightParen ")") ts) :
    DerivesPostfix e ts := by
  obtain ⟨_, _, ⟨_, _, ⟨lp, -, rfl⟩, ⟨d, rfl, hf, hd⟩, rfl⟩, ⟨rp, -, rfl⟩, rfl⟩ := h
  refine ⟨(.paren lp d rp, .nil), ?_, ?_, hd⟩
  · simp [AtomTree.collect, Suffixes.collect]
  · simp [AtomTree.collect, Suffixes.collect, Leaf.no_faults, hf]

/-! ## Operators -/

/-- A chain that goes on. -/
def Tails.append : {p : Nat} → Tails p → Tails p → Tails p
  | _, .nil, ts => ts
  | _, .cons o e rest, ts => .cons o e (rest.append ts)

theorem Tails.append_collect {β : Type} (g : Token → List β) (h : Expr Extent → List β) :
    ∀ {p : Nat} (ts us : Tails p), (ts.append us).collect g h = ts.collect g h ++ us.collect g h
  | _, .nil, us => rfl
  | _, .cons o e rest, us => by
    simp [Tails.append, Tails.collect, rest.append_collect g h us]

theorem Tails.append_denote : ∀ {p : Nat} (ts us : Tails p) (l : Expr Extent),
    (ts.append us).denote l = us.denote (ts.denote l)
  | _, .nil, _, _ => rfl
  | _, .cons _ _ rest, us, _ => rest.append_denote us _

theorem DerivesExpr.unary {op : UnaryOp} {k : Terminal} {w : Text} (sign : Leaf k → Sign)
    (hsign : ∀ t, (sign t).token = t.1 ∧ (sign t).op = op) (hk : k ≠ .number ∧ k ≠ .string)
    (h : Then (Single k w) (DerivesExpr 7 e) ts) : DerivesExpr 7 (.unary a op e) ts := by
  obtain ⟨_, _, ⟨t, -, rfl⟩, ⟨d, rfl, hf, hd⟩, rfl⟩ := h
  obtain ⟨htoken, hop⟩ := hsign t
  refine ⟨.signed (sign t) d, ?_, ?_, ?_⟩
  · simp [ExprTree.collect, htoken]
  · simp [ExprTree.collect, htoken, Leaf.no_faults, hk, hf]
  · simp only [ExprTree.denote, Expr.bare, Expr.map, hop] at hd ⊢
    rw [hd]

/-- The printer goes by the levels of the grammar. -/
theorem mem_operatorsAt_precedence {op : BinaryOp} (h : ∀ s, op ≠ .other s) :
    op ∈ operatorsAt op.precedence := by
  cases op <;> first | exact absurd rfl (h _) | decide

/-- A chain of one level is continued by an operator of that level and an operand of the next. -/
theorem DerivesExpr.binary {op : BinaryOp} {w : Text} (hop : ∀ s, op ≠ .other s)
    (h : Then (Then (DerivesExpr op.precedence l) (Single (.operator op) w))
      (DerivesExpr (op.precedence + 1) r) ts) :
    DerivesExpr op.precedence (.binary a op l r) ts := by
  obtain ⟨_, _, ⟨_, _, ⟨d, rfl, hf, hd⟩, ⟨t, -, rfl⟩, rfl⟩, ⟨d', rfl, hf', hd'⟩, rfl⟩ := h
  have hmem := mem_operatorsAt_precedence hop
  generalize op.precedence = p at *
  cases d with
  | signed | suffixed => exact absurd (lt_of_mem_operatorsAt hmem) (Nat.lt_irrefl 7)
  | chain hlevel first tails =>
    refine ⟨.chain hlevel first (tails.append (.cons ⟨op, hmem, t⟩ d' .nil)), ?_, ?_, ?_⟩
    · simp [ExprTree.collect, Tails.append_collect, Tails.collect]
    · simp only [ExprTree.collect, List.append_eq_nil_iff] at hf
      simp [ExprTree.collect, Tails.append_collect, Tails.collect, hf, hf', Leaf.no_faults]
    · simp only [ExprTree.denote, Tails.append_denote, Tails.denote, Expr.bare,
        Expr.map] at hd hd' ⊢
      rw [hd, hd']

/-! ## Suffixes -/

/-- Suffixes and further ones. -/
def Suffixes.append : Suffixes → Suffixes → Suffixes
  | .nil, ss => ss
  | .call lp args rp rest, ss => .call lp args rp (rest.append ss)
  | .index lb i rb rest, ss => .index lb i rb (rest.append ss)

theorem Suffixes.append_collect {β : Type} (g : Token → List β) (h : Expr Extent → List β) :
    ∀ ss ss' : Suffixes, (ss.append ss').collect g h = ss.collect g h ++ ss'.collect g h
  | .nil, _ => rfl
  | .call _ _ _ rest, ss' => by
    simp [Suffixes.append, Suffixes.collect, rest.append_collect g h ss']
  | .index _ _ _ rest, ss' => by
    simp [Suffixes.append, Suffixes.collect, rest.append_collect g h ss']

theorem Suffixes.append_denote : ∀ (ss ss' : Suffixes) (f : Expr Extent),
    (ss.append ss').denote f = ss'.denote (ss.denote f)
  | .nil, _, _ => rfl
  | .call _ _ _ rest, ss', _ => rest.append_denote ss' _
  | .index _ _ _ rest, ss', _ => rest.append_denote ss' _

/-- A call is one more suffix. -/
theorem DerivesPostfix.call
    (h : Then (Then (Then (DerivesPostfix f) (Single .leftParen "(")) (DerivesArgs es))
      (Single .rightParen ")") ts) : DerivesPostfix (.call a f es) ts := by
  obtain ⟨_, _, ⟨_, _, ⟨_, _, ⟨⟨x, ss⟩, rfl, hf, hd⟩, ⟨lp, -, rfl⟩, rfl⟩,
    ⟨args, rfl, hf', hd'⟩, rfl⟩, ⟨rp, -, rfl⟩, rfl⟩ := h
  refine ⟨(x, ss.append (.call lp args rp .nil)), ?_, ?_, ?_⟩
  · simp [Suffixes.append_collect, Suffixes.collect]
  · simp only [List.append_eq_nil_iff] at hf
    simp [Suffixes.append_collect, Suffixes.collect, hf, hf', Leaf.no_faults]
  · simp only [Suffixes.append_denote, Suffixes.denote, Expr.bare, Expr.map] at hd hd' ⊢
    rw [hd, hd']

/-- An index is one more suffix. -/
theorem DerivesPostfix.index
    (h : Then (Then (Then (DerivesPostfix f) (Single .leftBracket "[")) (DerivesExpr 1 e))
      (Single .rightBracket "]") ts) : DerivesPostfix (.index a f e) ts := by
  obtain ⟨_, _, ⟨_, _, ⟨_, _, ⟨⟨x, ss⟩, rfl, hf, hd⟩, ⟨lb, -, rfl⟩, rfl⟩, ⟨i, rfl, hf', hd'⟩, rfl⟩,
    ⟨rb, -, rfl⟩, rfl⟩ := h
  refine ⟨(x, ss.append (.index lb i rb .nil)), ?_, ?_, ?_⟩
  · simp [Suffixes.append_collect, Suffixes.collect]
  · simp only [List.append_eq_nil_iff] at hf
    simp [Suffixes.append_collect, Suffixes.collect, hf, hf', Leaf.no_faults]
  · simp only [Suffixes.append_denote, Suffixes.denote, Expr.bare, Expr.map] at hd hd' ⊢
    rw [hd, hd']

/-! ## Atoms -/

/-- An atom without suffixes. -/
theorem DerivesPostfix.atom (d : AtomTree) (hf : d.faults = [])
    (hd : d.denote.bare = e.bare) : DerivesPostfix e d.tokens :=
  ⟨(d, .nil), by simp [Suffixes.collect], by simpa [Suffixes.collect] using hf, hd⟩

theorem DerivesPostfix.name {n : Name} (h : Single .name n ts) : DerivesPostfix (.name a n) ts := by
  obtain ⟨t, rfl, rfl⟩ := h
  exact .atom (.name t) (t.no_faults (by simp)) rfl

theorem DerivesPostfix.array
    (h : Then (Then (Single .leftBracket "[") (DerivesArgs es)) (Single .rightBracket "]") ts) :
    DerivesPostfix (.array a es) ts := by
  obtain ⟨_, _, ⟨_, _, ⟨lb, -, rfl⟩, ⟨args, rfl, hf, hd⟩, rfl⟩, ⟨rb, -, rfl⟩, rfl⟩ := h
  have h := DerivesPostfix.atom (e := .array a es) (.array lb args rb)
    (by simp [AtomTree.collect, hf, Leaf.no_faults])
    (congrArg (Expr.array ()) hd)
  simpa [AtomTree.collect] using h

theorem DerivesPostfix.function {ps : List Name} {b : Block Extent}
    (h : Then (Then (Then (Then (Single .kwFunction "function") (Single .leftParen "("))
      (DerivesParams ps)) (Single .rightParen ")")) (DerivesBlock b) ts) :
    DerivesPostfix (.function a ps b) ts := by
  obtain ⟨_, _, ⟨_, _, ⟨_, _, ⟨_, _, ⟨w, -, rfl⟩, ⟨lp, -, rfl⟩, rfl⟩, ⟨d, rfl, hf, rfl⟩, rfl⟩,
    ⟨rp, -, rfl⟩, rfl⟩, ⟨d', rfl, hf', hd'⟩, rfl⟩ := h
  have h := DerivesPostfix.atom (e := .function a (paramNames d) b) (.function w lp d rp d')
    (by simp [AtomTree.collect, hf, hf', Leaf.no_faults])
    (congrArg (Expr.function () _) hd')
  simpa [AtomTree.collect] using h

/-! ## Lists -/

theorem DerivesMore.nil : DerivesMore [] [] := ⟨.nil, rfl, rfl, rfl⟩

theorem DerivesMore.cons
    (h : Then (Then (Single .comma ",") (DerivesExpr 1 e)) (DerivesMore es) ts) :
    DerivesMore (e :: es) ts := by
  obtain ⟨_, _, ⟨_, _, ⟨c, -, rfl⟩, ⟨d, rfl, hf, hd⟩, rfl⟩, ⟨ds, rfl, hfs, hds⟩, rfl⟩ := h
  refine ⟨.cons c d ds, ?_, ?_, List.cons_eq_cons.mpr ⟨hd, hds⟩⟩
  · simp [MoreArgs.collect]
  · simp [MoreArgs.collect, hf, hfs, Leaf.no_faults]

theorem DerivesArgs.nil : DerivesArgs [] [] := ⟨.none, rfl, rfl, rfl⟩

theorem DerivesArgs.cons (h : Then (DerivesExpr 1 e) (DerivesMore es) ts) :
    DerivesArgs (e :: es) ts := by
  obtain ⟨_, _, ⟨d, rfl, hf, hd⟩, ⟨ds, rfl, hfs, hds⟩, rfl⟩ := h
  refine ⟨.some d ds, rfl, ?_, List.cons_eq_cons.mpr ⟨hd, hds⟩⟩
  simp [Args.collect, hf, hfs]

/-! ## Parameters -/

/-- Tokens of names, a comma before each. -/
abbrev DerivesMoreNames (ns : List Name) : List Token → Prop :=
  Derives (fun xs : List (Leaf .comma × Leaf .name) => xs.flatMap fun x => own x.1.1 ++ own x.2.1)
    (fun xs => xs.flatMap fun x => literalFaults x.1.1 ++ literalFaults x.2.1)
    (fun xs => xs.map (·.2.1.text)) ns

theorem DerivesMoreNames.nil : DerivesMoreNames [] [] := ⟨[], rfl, rfl, rfl⟩

theorem DerivesMoreNames.cons {n : Name} {ns : List Name}
    (h : Then (Then (Single .comma ",") (Single .name n)) (DerivesMoreNames ns) ts) :
    DerivesMoreNames (n :: ns) ts := by
  obtain ⟨_, _, ⟨_, _, ⟨c, -, rfl⟩, ⟨t, rfl, rfl⟩, rfl⟩, ⟨xs, rfl, -, rfl⟩, rfl⟩ := h
  exact ⟨(c, t) :: xs, by simp, by simp [Leaf.no_faults], by simp⟩

theorem DerivesParams.nil : DerivesParams [] [] := ⟨none, rfl, rfl, rfl⟩

theorem DerivesParams.cons {n : Name} {ns : List Name}
    (h : Then (Single .name n) (DerivesMoreNames ns) ts) : DerivesParams (n :: ns) ts := by
  obtain ⟨_, _, ⟨t, rfl, rfl⟩, ⟨xs, rfl, -, rfl⟩, rfl⟩ := h
  exact ⟨some ⟨t, xs⟩, rfl, by simp [collectParams, Params.collect, Leaf.no_faults], rfl⟩

end Expressions

section Statements

variable {a : Extent} {e c : Expr Extent} {s : Stmt Extent} {ss : List (Stmt Extent)}
  {b t : Block Extent} {n : Name} {k : DeclKind} {ts : List Token}

/-! ## Clauses -/

/-- Whether an expression can be assigned to does not depend on its spans. -/
theorem isTarget_of_bare {d e : Expr Extent} (h : d.bare = e.bare) (he : Parser.isTarget e) :
    Parser.isTarget d := by
  cases e with
  | name | index =>
    cases d with
    | signal _ _ v => cases v <;> simp [Expr.bare, Expr.map] at h
    | _ => first | rfl | simp [Expr.bare, Expr.map] at h
  | _ => simp [Parser.isTarget] at he

theorem DerivesSimple.assignment {t v : Expr Extent} (ht : Parser.isTarget t)
    (h : Then (Then (DerivesExpr 1 t) (Single .equals "=")) (DerivesExpr 1 v) ts) :
    DerivesSimple (.assignment a t v) ts := by
  obtain ⟨_, _, ⟨_, _, ⟨d, rfl, hf, hd⟩, ⟨eq, -, rfl⟩, rfl⟩, ⟨d', rfl, hf', hd'⟩, rfl⟩ := h
  refine ⟨.assignment d eq d', ?_, ?_, ?_⟩
  · simp [SimpleTree.collect]
  · simp [SimpleTree.collect, hf, hf', Leaf.no_faults, targetFaults, isTarget_of_bare hd ht]
  · simp only [SimpleTree.denote, Stmt.bare, Stmt.map, Expr.bare] at hd hd' ⊢
    rw [hd, hd']

theorem DerivesSimple.expression (h : DerivesExpr 1 e ts) : DerivesSimple (.expression a e) ts := by
  obtain ⟨d, rfl, hf, hd⟩ := h
  exact ⟨.expression d, rfl, hf, congrArg (Stmt.expression ()) hd⟩

theorem DerivesSimple.clause (h : DerivesSimple s ts) : DerivesClause s ts := by
  obtain ⟨d, rfl, hf, hd⟩ := h
  exact ⟨.simple d, rfl, hf, hd⟩

theorem DeclKind.terminal_ne (k : DeclKind) : k.terminal ≠ .number ∧ k.terminal ≠ .string := by
  cases k <;> simp [DeclKind.terminal]

theorem DerivesClause.declaration (h : Then (Single k.terminal k.keyword) (Single .name n) ts) :
    DerivesClause (.declaration a n k none) ts := by
  obtain ⟨_, _, ⟨w, -, rfl⟩, ⟨t, rfl, rfl⟩, rfl⟩ := h
  refine ⟨.declaration ⟨k, w⟩ t, by simp [ClauseTree.collect], ?_, rfl⟩
  simp [ClauseTree.collect, w.no_faults (DeclKind.terminal_ne k), Leaf.no_faults]

theorem DerivesClause.initialized
    (h : Then (Then (Then (Single k.terminal k.keyword) (Single .name n)) (Single .equals "="))
      (DerivesExpr 1 e) ts) : DerivesClause (.declaration a n k (some e)) ts := by
  obtain ⟨_, _, ⟨_, _, ⟨_, _, ⟨w, -, rfl⟩, ⟨t, rfl, rfl⟩, rfl⟩, ⟨eq, -, rfl⟩, rfl⟩,
    ⟨d, rfl, hf, hd⟩, rfl⟩ := h
  refine ⟨.initialized ⟨k, w⟩ t eq d, by simp [ClauseTree.collect], ?_,
    congrArg (fun e => Stmt.declaration () _ k (some e)) hd⟩
  simp [ClauseTree.collect, w.no_faults (DeclKind.terminal_ne k), Leaf.no_faults, hf]

/-! ## Blocks and branches -/

theorem DerivesStmts.nil : DerivesStmts [] [] := ⟨.nil, rfl, rfl, rfl⟩

theorem DerivesStmts.cons (h : Then (DerivesStmt s) (DerivesStmts ss) ts) :
    DerivesStmts (s :: ss) ts := by
  obtain ⟨_, _, ⟨d, rfl, hf, hd⟩, ⟨ds, rfl, hfs, hds⟩, rfl⟩ := h
  refine ⟨.cons d ds, rfl, ?_, List.cons_eq_cons.mpr ⟨hd, hds⟩⟩
  simp [StmtTrees.collect, hf, hfs]

theorem DerivesBlock.mk
    (h : Then (Then (Single .leftBrace openBrace) (DerivesStmts ss))
      (Single .rightBrace closeBrace) ts) : DerivesBlock (.mk a ss) ts := by
  obtain ⟨_, _, ⟨_, _, ⟨lb, -, rfl⟩, ⟨ds, rfl, hf, hd⟩, rfl⟩, ⟨rb, -, rfl⟩, rfl⟩ := h
  refine ⟨.mk lb ds rb, ?_, ?_, congrArg (Block.mk ()) hd⟩
  · simp [BlockTree.collect]
  · simp [BlockTree.collect, hf, Leaf.no_faults]

theorem DerivesElse.none : DerivesElse none [] := ⟨.none, rfl, rfl, rfl⟩

theorem DerivesElse.block (h : Then (Single .kwElse "else") (DerivesBlock b) ts) :
    DerivesElse (some b) ts := by
  obtain ⟨_, _, ⟨w, -, rfl⟩, ⟨d, rfl, hf, hd⟩, rfl⟩ := h
  refine ⟨.block w d, ?_, ?_, congrArg some hd⟩
  · simp [ElseTree.collect]
  · simp [ElseTree.collect, hf, Leaf.no_faults]

theorem DerivesElse.elseIf (h : Then (Single .kwElse "else") (DerivesIf s) ts) :
    DerivesElse (some (.mk a [s])) ts := by
  obtain ⟨_, _, ⟨w, -, rfl⟩, ⟨d, rfl, hf, hd⟩, rfl⟩ := h
  refine ⟨.elseIf w d, ?_, ?_, congrArg (fun s => some (Block.mk () [s])) hd⟩
  · simp [ElseTree.collect]
  · simp [ElseTree.collect, hf, Leaf.no_faults]

theorem DerivesIf.mk {o : Option (Block Extent)}
    (h : Then (Then (Then
    (Then (Then (Single .kwIf "if") (Single .leftParen "(")) (DerivesExpr 1 c))
      (Single .rightParen ")")) (DerivesBlock t)) (DerivesElse o) ts) :
    DerivesIf (.branch a c t o) ts := by
  obtain ⟨_, _, ⟨_, _, ⟨_, _, ⟨_, _, ⟨_, _, ⟨w, -, rfl⟩, ⟨lp, -, rfl⟩, rfl⟩,
    ⟨dc, rfl, hfc, hc⟩, rfl⟩, ⟨rp, -, rfl⟩, rfl⟩, ⟨dt, rfl, hft, ht⟩, rfl⟩,
    ⟨d, rfl, hfo, ho⟩, rfl⟩ := h
  refine ⟨.mk w lp dc rp dt d, ?_, ?_, ?_⟩
  · simp [IfTree.collect]
  · simp [IfTree.collect, hfc, hft, hfo, Leaf.no_faults]
  · simp only [IfTree.denote, Stmt.map_branch, Stmt.branch.injEq]
    exact ⟨trivial, hc, ht, ho⟩

/-! ## Loops -/

theorem DerivesHeader.whileTrue
    (h : Then (Then (Then (Single .kwWhile "while") (Single .leftParen "(")) (DerivesExpr 1 c))
      (Single .rightParen ")") ts) : DerivesHeader (.whileTrue a c) ts := by
  obtain ⟨_, _, ⟨_, _, ⟨_, _, ⟨w, -, rfl⟩, ⟨lp, -, rfl⟩, rfl⟩, ⟨d, rfl, hf, hd⟩, rfl⟩, ⟨rp, -, rfl⟩,
    rfl⟩ := h
  refine ⟨.whileLoop w lp d rp, fun b => ⟨?_, ?_, ?_⟩⟩
  · simp [StmtTree.collect]
  · simp [StmtTree.collect, hf, Leaf.no_faults]
  · exact congrArg (fun c => Stmt.loop () (.whileTrue () c) b.denote.bare) hd

/-- Tokens of the first clause of a `for`. -/
abbrev DerivesInit (i : Option (Stmt Extent)) : List Token → Prop :=
  Derives MaybeClause.tokens MaybeClause.faults (fun d => d.denote.map Stmt.bare) (i.map Stmt.bare)

/-- Tokens of the second clause of a `for`. -/
abbrev DerivesCondition (c : Option (Expr Extent)) : List Token → Prop :=
  Derives MaybeExpr.tokens MaybeExpr.faults (fun d => d.denote.map Expr.bare) (c.map Expr.bare)

/-- Tokens of the last clause of a `for`. -/
abbrev DerivesUpdate (u : Option (Stmt Extent)) : List Token → Prop :=
  Derives MaybeSimple.tokens MaybeSimple.faults (fun d => d.denote.map Stmt.bare) (u.map Stmt.bare)

theorem DerivesHeader.counting {i u : Option (Stmt Extent)} {c : Option (Expr Extent)}
    (h : Then (Then (Then (Then (Then (Then (Then (Single .kwFor "for") (Single .leftParen "("))
      (DerivesInit i)) (Single .semicolon ";")) (DerivesCondition c)) (Single .semicolon ";"))
      (DerivesUpdate u)) (Single .rightParen ")") ts) : DerivesHeader (.counting a i c u) ts := by
  obtain ⟨_, _, ⟨_, _, ⟨_, _, ⟨_, _, ⟨_, _, ⟨_, _, ⟨_, _, ⟨w, -, rfl⟩, ⟨lp, -, rfl⟩, rfl⟩,
    ⟨di, rfl, hfi, hi⟩, rfl⟩, ⟨sc, -, rfl⟩, rfl⟩, ⟨dc, rfl, hfc, hc⟩, rfl⟩, ⟨sc', -, rfl⟩, rfl⟩,
    ⟨du, rfl, hfu, hu⟩, rfl⟩, ⟨rp, -, rfl⟩, rfl⟩ := h
  refine ⟨.forLoop w lp di sc dc sc' du rp, fun b => ⟨?_, ?_, ?_⟩⟩
  · simp [StmtTree.collect]
  · simp [StmtTree.collect, hfi, hfc, hfu, Leaf.no_faults]
  · simp only [StmtTree.denote, Stmt.bare, Stmt.map, Header.bare,
      Header.map_counting] at hi hc hu ⊢
    rw [hi, hc, hu]

/-- Tokens of the word that declares the variable of a `for`, if there is one. -/
abbrev DerivesWord (k : Option DeclKind) : List Token → Prop :=
  Derives (collectWord own) (collectWord literalFaults) (fun d => d.map DeclWord.kind) k

theorem DerivesHeader.forOf {k : Option DeclKind}
    (h : Then (Then (Then (Then (Then (Then (Single .kwFor "for") (Single .leftParen "("))
      (DerivesWord k)) (Single .name n)) (Single .kwOf "of")) (DerivesExpr 1 e))
      (Single .rightParen ")") ts) : DerivesHeader (.forOf a n k e) ts := by
  obtain ⟨_, _, ⟨_, _, ⟨_, _, ⟨_, _, ⟨_, _, ⟨_, _, ⟨w, -, rfl⟩, ⟨lp, -, rfl⟩, rfl⟩,
    ⟨dw, rfl, hfw, rfl⟩, rfl⟩, ⟨t, rfl, rfl⟩, rfl⟩, ⟨o, -, rfl⟩, rfl⟩, ⟨d, rfl, hf, hd⟩, rfl⟩,
    ⟨rp, -, rfl⟩, rfl⟩ := h
  refine ⟨.forOf w lp dw t o d rp, fun b => ⟨?_, ?_, ?_⟩⟩
  · simp [StmtTree.collect]
  · simp [StmtTree.collect, hf, hfw, Leaf.no_faults]
  · exact congrArg (fun e => Stmt.loop () (.forOf () _ _ e) b.denote.bare) hd

/-! ## Statements -/

theorem DerivesStmt.clause (h : Then (DerivesClause s) (Single .semicolon ";") ts) :
    DerivesStmt s ts := by
  obtain ⟨_, _, ⟨d, rfl, hf, hd⟩, ⟨sc, -, rfl⟩, rfl⟩ := h
  refine ⟨.clause d sc, rfl, ?_, hd⟩
  simp [StmtTree.collect, hf, Leaf.no_faults]

theorem DerivesStmt.ret (h : Then (Single .kwReturn "return") (Single .semicolon ";") ts) :
    DerivesStmt (.ret a none) ts := by
  obtain ⟨_, _, ⟨w, -, rfl⟩, ⟨sc, -, rfl⟩, rfl⟩ := h
  refine ⟨.ret w .none sc, ?_, ?_, rfl⟩
  · simp [StmtTree.collect, MaybeExpr.collect]
  · simp [StmtTree.collect, MaybeExpr.collect, Leaf.no_faults]

theorem DerivesStmt.retValue
    (h : Then (Then (Single .kwReturn "return") (DerivesExpr 1 e)) (Single .semicolon ";") ts) :
    DerivesStmt (.ret a (some e)) ts := by
  obtain ⟨_, _, ⟨_, _, ⟨w, -, rfl⟩, ⟨d, rfl, hf, hd⟩, rfl⟩, ⟨sc, -, rfl⟩, rfl⟩ := h
  refine ⟨.ret w (.some d) sc, ?_, ?_, congrArg (fun e => Stmt.ret () (some e)) hd⟩
  · simp [StmtTree.collect, MaybeExpr.collect]
  · simp [StmtTree.collect, MaybeExpr.collect, hf, Leaf.no_faults]

theorem DerivesStmt.brk (h : Then (Single .kwBreak "break") (Single .semicolon ";") ts) :
    DerivesStmt (.brk a) ts := by
  obtain ⟨_, _, ⟨w, -, rfl⟩, ⟨sc, -, rfl⟩, rfl⟩ := h
  exact ⟨.brk w sc, rfl, by simp [StmtTree.collect, Leaf.no_faults], rfl⟩

theorem DerivesStmt.cont (h : Then (Single .kwContinue "continue") (Single .semicolon ";") ts) :
    DerivesStmt (.cont a) ts := by
  obtain ⟨_, _, ⟨w, -, rfl⟩, ⟨sc, -, rfl⟩, rfl⟩ := h
  exact ⟨.cont w sc, rfl, by simp [StmtTree.collect, Leaf.no_faults], rfl⟩

theorem DerivesStmt.branch (h : DerivesIf s ts) : DerivesStmt s ts := by
  obtain ⟨d, rfl, hf, hd⟩ := h
  exact ⟨.branch d, rfl, hf, hd⟩

theorem DerivesStmt.block (h : DerivesBlock b ts) : DerivesStmt (.block b) ts := by
  obtain ⟨d, rfl, hf, hd⟩ := h
  exact ⟨.block d, rfl, hf, congrArg Stmt.block hd⟩

theorem DerivesStmt.loop {h : Header Extent} (hts : Then (DerivesHeader h) (DerivesBlock b) ts) :
    DerivesStmt (.loop a h b) ts := by
  obtain ⟨_, _, ⟨loop, hloop⟩, ⟨d, rfl, hf, hd⟩, rfl⟩ := hts
  obtain ⟨htokens, hfaults, htree⟩ := hloop d
  exact ⟨loop d, htokens.symm, hfaults.trans hf, htree.trans (congrArg (Stmt.loop () _) hd)⟩

end Statements

/-! ## Programs -/

/-- The tokens of a function at the top of a program. -/
def DerivesFunction (fn : FunctionDef Extent) : List Token → Prop :=
  Derives (FunctionTree.collect own ignored) (FunctionTree.collect literalFaults targetFaults)
    (fun d => d.denote.map fun _ => ()) (fn.map fun _ => ())

theorem DerivesFunction.mk {fn : FunctionDef Extent} {ts : List Token}
    (h : Then (Then (Then (Then (Then (Single .kwFunction "function") (Single .name fn.name))
      (Single .leftParen "(")) (DerivesParams fn.params)) (Single .rightParen ")"))
      (DerivesBlock fn.body) ts) : DerivesFunction fn ts := by
  obtain ⟨_, _, ⟨_, _, ⟨_, _, ⟨_, _, ⟨_, _, ⟨w, -, rfl⟩, ⟨t, hname, rfl⟩, rfl⟩, ⟨lp, -, rfl⟩, rfl⟩,
    ⟨d, rfl, hf, hparams⟩, rfl⟩, ⟨rp, -, rfl⟩, rfl⟩, ⟨d', rfl, hf', hbody⟩, rfl⟩ := h
  refine ⟨⟨w, t, lp, d, rp, d'⟩, ?_, ?_, ?_⟩
  · simp [FunctionTree.collect]
  · simp [FunctionTree.collect, hf, hf', Leaf.no_faults]
  · simp only [FunctionTree.denote, FunctionDef.map, hname, hparams]
    exact congrArg (FunctionDef.mk () _ _) hbody

/-- The tokens of items at the top of a program. -/
def DerivesProgram (fns : List (FunctionDef Extent)) (ss : List (Stmt Extent)) :
    List Token → Prop :=
  Derives ProgramTree.tokens ProgramTree.faults (fun d => d.denote.map fun _ => ())
    ((Program.mk fns ss).map fun _ => ())

theorem DerivesProgram.function {fn : FunctionDef Extent} {fns : List (FunctionDef Extent)}
    {ss : List (Stmt Extent)} {ts : List Token}
    (h : Then (DerivesFunction fn) (DerivesProgram fns ss) ts) :
    DerivesProgram (fn :: fns) ss ts := by
  obtain ⟨_, _, ⟨d, rfl, hf, hd⟩, ⟨ds, rfl, hfs, hds⟩, rfl⟩ := h
  refine ⟨.function d :: ds, ?_, ?_, ?_⟩
  · simp [ProgramTree.tokens, ProgramTree.collect, Item.collect]
  · simpa [ProgramTree.faults, ProgramTree.collect, Item.collect, hf] using hfs
  · simp only [ProgramTree.denote, Program.map, Item.function?, Item.stmt?, List.filterMap_cons,
      List.map_cons, Program.mk.injEq] at hds ⊢
    exact ⟨List.cons_eq_cons.mpr ⟨hd, hds.1⟩, hds.2⟩

/-- Statements at the top of a program. -/
theorem DerivesProgram.statements {ss : List (Stmt Extent)} {ts : List Token}
    (h : DerivesStmts ss ts) : DerivesProgram [] ss ts := by
  obtain ⟨d, rfl, hf, hd⟩ := h
  induction ss generalizing d with
  | nil =>
    cases d with
    | nil => exact ⟨[], rfl, rfl, rfl⟩
    | cons => exact nomatch hd
  | cons s ss ih =>
    cases d with
    | nil => exact nomatch hd
    | cons d ds =>
      simp only [StmtTrees.collect, List.append_eq_nil_iff] at hf
      obtain ⟨hd, hds⟩ := List.cons_eq_cons.mp hd
      obtain ⟨is, his, hfs, htree⟩ := ih ds hf.2 hds
      refine ⟨.stmt d :: is, ?_, ?_, ?_⟩
      · simp [ProgramTree.tokens, ProgramTree.collect, Item.collect, StmtTrees.collect] at his ⊢
        exact his
      · simpa [ProgramTree.faults, ProgramTree.collect, Item.collect, hf.1] using hfs
      · simp only [ProgramTree.denote, Program.map, Item.function?, Item.stmt?, List.filterMap_cons,
          Stmt.mapList, Program.mk.injEq] at htree ⊢
        exact ⟨htree.1, List.cons_eq_cons.mpr ⟨hd, htree.2⟩⟩

end Grammar

end FlatScope
