import FlatScope.Proofs.Grammar.Complete

/-!
# What is read has a derivation

The parser refuses every source that is not derivable. The proof goes backwards: to every stack
belongs the set of the sources with which what has been begun on it can go on to the end of a
program (`Allows`), which is described with the rules of the grammar. If a step takes a stack over a
token to another stack, then that token, followed by anything that the other stack allows, is
allowed by the first one (`step_allows`). At the end nothing is left, and that is allowed; so, step
by step, the whole source is allowed by the stack on which nothing has been read, whose allowed
sources are the programs.

Of an operand that is complete it does not matter here which operators are pending: whatever they
are, what may follow is suffixes, and then further operands, those of the higher levels first.
-/

namespace FlatScope.Grammar

open FlatScope.Parser (Operand Stack Frame State reduce step run beginExpr endExpr complete
  closeBlock endSimple)

/-! ## Sets of sources -/

/-- A token, and then what `K` allows. -/
def leaf (k : Terminal) (K : List Token → Prop) (ts : List Token) : Prop :=
  ∃ (t : Leaf k) (r : List Token), ts = t.1 :: r ∧ K r

/-- The tokens of a derivation, and then what `K` allows. -/
def tree {α : Type} (tokens : α → List Token) (K : List Token → Prop) (ts : List Token) : Prop :=
  ∃ (d : α) (r : List Token), ts = tokens d ++ r ∧ K r

abbrev expr {p : Nat} := tree (ExprTree.tokens (p := p))

abbrev block := tree BlockTree.tokens

abbrev params := tree (collectParams own)

/-- The parameters after the first. -/
abbrev moreParams :=
  tree fun ns : List (Leaf .comma × Leaf .name) => ns.flatMap fun x => own x.1.1 ++ own x.2.1

/-- Further operands of the levels from `p` down to 1. -/
def chains : Nat → (List Token → Prop) → List Token → Prop
  | 0, K => K
  | p + 1, K => tree (Tails.tokens (p := p + 1)) (chains p K)

/-- Suffixes and further operands of all levels. -/
def operators (K : List Token → Prop) : List Token → Prop := tree Suffixes.tokens (chains 6 K)

/-- Statements up to a closing brace. -/
def statements (K : List Token → Prop) : List Token → Prop :=
  tree StmtTrees.tokens (leaf .rightBrace K)

/-- Perhaps an equals sign and a value, and then what `K` allows. -/
def withValue (K : List Token → Prop) (ts : List Token) : Prop :=
  K ts ∨ leaf .equals (expr (p := 1) K) ts

/-- The rest of the header of a loop over a sequence, and its body. -/
def ofRest (K : List Token → Prop) : List Token → Prop :=
  expr (p := 1) (leaf .rightParen (block K))

/-- The third clause of a `for`, and its body. -/
def updateRest (K : List Token → Prop) : List Token → Prop :=
  tree MaybeSimple.tokens (leaf .rightParen (block K))

/-- The second and the third clause of a `for`, and its body. -/
def conditionRest (K : List Token → Prop) : List Token → Prop :=
  tree MaybeExpr.tokens (leaf .semicolon (updateRest K))

/-! ## What a stack allows -/

mutual

/-- What may come after a complete statement. -/
def afterStmt : Stack → List Token → Prop
  | .program _ _ :: _ => tree ProgramTree.tokens (· = [])
  | .block _ _ :: S => statements (afterBlock S)
  | .elseIf _ :: S => afterStmt S
  | _ => fun _ => False

/-- What may come after a complete block. -/
def afterBlock : Stack → List Token → Prop
  | .program _ _ :: _ => tree ProgramTree.tokens (· = [])
  | .block _ _ :: S => statements (afterBlock S)
  | .elseIf _ :: S => afterStmt S
  | .body ⟨_, none⟩ _ :: S => operators (afterExpr S)
  | .body ⟨_, some _⟩ _ :: S => afterStmt S
  | .ifThen _ _ :: S => tree ElseTree.tokens (afterStmt S)
  | .elseBlock _ :: S => afterStmt S
  | .loopBody _ _ :: S => afterStmt S
  | _ => fun _ => False

/-- What may come after a complete assignment, declaration or expression. -/
def afterClause : Stack → List Token → Prop
  | .program _ _ :: _ => leaf .semicolon (tree ProgramTree.tokens (· = []))
  | .block _ _ :: S => leaf .semicolon (statements (afterBlock S))
  | .elseIf _ :: S => leaf .semicolon (afterStmt S)
  | .forOpen _ :: S => leaf .semicolon (conditionRest (afterStmt S))
  | .forUpdate _ _ _ :: S => leaf .rightParen (block (afterStmt S))
  | _ => fun _ => False

/-- What may come after a complete expression, to which nothing is left to apply. -/
def afterExpr : Stack → List Token → Prop
  | .unary _ _ :: S => afterExpr S
  | .binary _ _ _ :: S => afterExpr S
  | .paren _ :: S => leaf .rightParen (operators (afterExpr S))
  | .call _ _ _ :: S => tree MoreArgs.tokens (leaf .rightParen (operators (afterExpr S)))
  | .index _ _ :: S => leaf .rightBracket (operators (afterExpr S))
  | .array _ _ :: S => tree MoreArgs.tokens (leaf .rightBracket (operators (afterExpr S)))
  | .simple :: S => withValue (afterClause S)
  | .assign _ :: S => afterClause S
  | .declareValue _ _ _ :: S => afterClause S
  | .returnWord _ :: S => leaf .semicolon (afterStmt S)
  | .ifOpen _ :: S => leaf .rightParen (block (tree ElseTree.tokens (afterStmt S)))
  | .whileOpen _ :: S => leaf .rightParen (block (afterStmt S))
  | .forCondition _ _ :: S => leaf .semicolon (updateRest (afterStmt S))
  | .forOf _ _ _ :: S => leaf .rightParen (block (afterStmt S))
  | _ => fun _ => False

end

/-- The header of a `for` after its parenthesis, and its body. -/
def forRest (K : List Token → Prop) (ts : List Token) : Prop :=
  tree MaybeClause.tokens (leaf .semicolon (conditionRest K)) ts ∨
    tree (collectWord own) (leaf .name (leaf .kwOf (ofRest K))) ts

/-- The level of the expression that a stack awaits, less one. -/
def level : Stack → Nat
  | .unary _ _ :: _ => 6
  | .binary _ op _ :: _ => op.level
  | _ => 0

/-- An expression, and what may come after it. -/
def awaitedExpr (S : Stack) : List Token → Prop :=
  expr (p := level S + 1) (chains (level S) (afterExpr S))

/-- What may come on a stack up to the end of the program. -/
def Allows : Stack → List Token → Prop
  | .program fs ss :: S => afterStmt (.program fs ss :: S)
  | .block start done :: S => afterStmt (.block start done :: S)
  | .operand _ :: S => operators (afterExpr S)
  | .call _ _ [] :: S => tree Args.tokens (leaf .rightParen (operators (afterExpr S)))
  | .array _ [] :: S => tree Args.tokens (leaf .rightBracket (operators (afterExpr S)))
  | .functionWord _ false :: S =>
    leaf .leftParen (params (leaf .rightParen (block (operators (afterExpr S)))))
  | .functionWord _ true :: S => fun ts =>
    leaf .name (leaf .leftParen (params (leaf .rightParen (block (afterStmt S))))) ts ∨
    leaf .leftParen (params (leaf .rightParen (block (operators (afterExpr (.simple :: S)))))) ts
  | .functionName head :: S =>
    leaf .leftParen (params (leaf .rightParen (block (afterBlock (.body head [] :: S)))))
  | .paramsOpen head :: S =>
    params (leaf .rightParen (block (afterBlock (.body head [] :: S))))
  | .params head _ :: S =>
    moreParams (leaf .rightParen (block (afterBlock (.body head [] :: S))))
  | .paramsComma head _ :: S =>
    leaf .name (moreParams (leaf .rightParen (block (afterBlock (.body head [] :: S)))))
  | .paramsClosed head _ :: S => block (afterBlock (.body head [] :: S))
  | .declareWord _ _ :: S => leaf .name (withValue (afterClause S))
  | .declareName _ _ _ :: S => withValue (afterClause S)
  | .returnWord _ :: S => tree MaybeExpr.tokens (leaf .semicolon (afterStmt S))
  | .jump _ :: S => leaf .semicolon (afterStmt S)
  | .ifWord _ :: S =>
    leaf .leftParen (expr (p := 1) (leaf .rightParen (block (tree ElseTree.tokens (afterStmt S)))))
  | .ifCondition _ _ :: S => block (tree ElseTree.tokens (afterStmt S))
  | .ifElse _ :: S => tree ElseTree.tokens (afterStmt S)
  | .elseWord _ :: S => fun ts =>
    block (afterStmt S) ts ∨ tree IfTree.tokens (afterStmt S) ts
  | .whileWord _ :: S => leaf .leftParen (expr (p := 1) (leaf .rightParen (block (afterStmt S))))
  | .forWord _ :: S => leaf .leftParen (forRest (afterStmt S))
  | .forOpen _ :: S => forRest (afterStmt S)
  | .forName start _ :: S => fun ts =>
    leaf .kwOf (ofRest (afterStmt S)) ts ∨
    operators (afterExpr (.simple :: .forOpen start :: S)) ts
  | .forDeclare start _ _ :: S => leaf .name fun ts =>
    leaf .kwOf (ofRest (afterStmt S)) ts ∨ withValue (afterClause (.forOpen start :: S)) ts
  | .forDeclareName start _ _ _ :: S => fun ts =>
    leaf .kwOf (ofRest (afterStmt S)) ts ∨ withValue (afterClause (.forOpen start :: S)) ts
  | .forCondition _ _ :: S => conditionRest (afterStmt S)
  | .forUpdate _ _ _ :: S => updateRest (afterStmt S)
  | .loopHead _ _ :: S => block (afterStmt S)
  | S => awaitedExpr S

/-! ## Expressions -/

variable {K : List Token → Prop} {S S' : Stack} {r : List Token}

theorem leaf_cons {k : Terminal} {t : Token} (ht : t.terminal = k) (h : K r) :
    leaf k K (t :: r) :=
  ⟨⟨t, ht⟩, r, rfl, h⟩

theorem tree_append {α : Type} {tokens : α → List Token} (d : α) (h : K r) :
    tree tokens K (tokens d ++ r) :=
  ⟨d, r, rfl, h⟩

/-- Operands of lower levels may follow an expression of a level; together they are one of a lower
    level. -/
theorem climb {p l : Nat} (e : ExprTree (p + 1)) (hl : l ≤ p) (hp : p < 7)
    (h : chains p K r) : expr (p := l + 1) (chains l K) (e.tokens ++ r) := by
  induction p generalizing r with
  | zero =>
    obtain rfl : l = 0 := Nat.le_zero.mp hl
    exact tree_append e h
  | succ p ih =>
    rcases Nat.lt_or_eq_of_le hl with hlt | rfl
    · obtain ⟨ts, r', rfl, h⟩ := h
      have := ih (.chain ⟨Nat.succ_pos p, hp⟩ e ts) (Nat.le_of_lt_succ hlt) (Nat.lt_of_succ_lt hp) h
      rwa [ExprTree.tokens, ExprTree.collect, List.append_assoc] at this
    · exact tree_append e h

theorem level_le (S : Stack) : level S ≤ 6 := by
  unfold level
  split
  · exact Nat.le_refl 6
  · rename_i op _ _
    cases op <;> simp [BinaryOp.level]
  · exact Nat.zero_le 6

theorem signed_awaited (s : Sign) (h : expr (p := 7) (chains 6 (afterExpr S)) r) :
    awaitedExpr S (s.token :: r) := by
  obtain ⟨e, r, rfl, h⟩ := h
  exact climb (.signed s e) (level_le S) (by decide) h

theorem atom_awaited (a : AtomTree) (h : operators (afterExpr S) r) :
    awaitedExpr S (a.tokens ++ r) := by
  obtain ⟨ss, r, rfl, h⟩ := h
  have := climb (.suffixed a ss) (level_le S) (by decide) h
  rwa [ExprTree.tokens, ExprTree.collect, List.append_assoc] at this

theorem pushLiteral_allows {s : State} {t : Token} {v : Except Token.LiteralFault Literal}
    {r : List Token} (h : Allows (Parser.pushLiteral s S t v).stack r) :
    operators (afterExpr S) r := by
  unfold Parser.pushLiteral at h
  split at h <;> exact h

/-- What begins an expression is followed by the rest of one. -/
theorem beginExpr_allows {s s' : State} {t : Token} (h : beginExpr s S t = some s')
    (hr : Allows s'.stack r) : awaitedExpr S (t :: r) := by
  unfold beginExpr at h
  split at h <;> cases h
  case h_1 ht => exact atom_awaited (.constant (.number ⟨t, ht⟩)) (pushLiteral_allows hr)
  case h_2 ht => exact atom_awaited (.constant (.string ⟨t, ht⟩)) (pushLiteral_allows hr)
  case h_3 ht => exact atom_awaited (.constant (.true ⟨t, ht⟩)) (pushLiteral_allows hr)
  case h_4 ht => exact atom_awaited (.constant (.false ⟨t, ht⟩)) (pushLiteral_allows hr)
  case h_5 ht => exact atom_awaited (.constant (.undefined ⟨t, ht⟩)) (pushLiteral_allows hr)
  case h_6 ht => exact atom_awaited (.name ⟨t, ht⟩) hr
  case h_7 ht =>
    obtain ⟨es, _, rfl, rb, _, rfl, hr⟩ := hr
    simpa [AtomTree.collect] using atom_awaited (.array ⟨t, ht⟩ es rb) hr
  case h_8 ht =>
    obtain ⟨e, _, rfl, rp, _, rfl, hr⟩ : expr (p := 1) (leaf .rightParen _) r := hr
    simpa [AtomTree.collect] using atom_awaited (.paren ⟨t, ht⟩ e rp) hr
  case h_9 ht =>
    obtain ⟨lp, _, rfl, ps, _, rfl, rp, _, rfl, b, _, rfl, hr⟩ := hr
    simpa [AtomTree.collect] using atom_awaited (.function ⟨t, ht⟩ lp ps rp b) hr
  case h_10 ht => exact signed_awaited (.bang ⟨t, ht⟩) hr
  case h_11 ht => exact signed_awaited (.minus ⟨t, ht⟩) hr

/-! ## Complete constructs -/

/-- Where a statement may come, so may several. -/
theorem stmt_append (s : StmtTree) (h : afterStmt S r) : afterStmt S (s.tokens ++ r) := by
  induction S with
  | nil => exact h
  | cons F S ih =>
    cases F with
    | program fs ss =>
      obtain ⟨p, _, rfl, rfl⟩ := h
      exact ⟨.stmt s :: p, [], by simp [ProgramTree.tokens, ProgramTree.collect, Item.collect], rfl⟩
    | block start done =>
      obtain ⟨ss, r, rfl, h⟩ := h
      exact ⟨.cons s ss, r, by simp [StmtTrees.collect], h⟩
    | elseIf head => exact ih h
    | _ => exact h

theorem complete_after {s : Stmt Extent} (h : complete s S = some S') (hr : afterStmt S' r) :
    afterStmt S r := by
  induction S generalizing s with
  | nil => cases h
  | cons F S ih =>
    cases F with
    | program fs ss => cases h; exact hr
    | block start done => cases h; exact hr
    | elseIf head => exact ih h
    | _ => cases h

/-- After a complete statement a statement may come, or the end of what is around it. -/
theorem complete_among {s : Stmt Extent} (h : complete s S = some S') : Among S' := by
  induction S generalizing s with
  | nil => cases h
  | cons F S ih =>
    cases F with
    | program fs ss => cases h; exact .program _ _ _
    | block start done => cases h; exact .block _ _ _
    | elseIf head => exact ih h
    | _ => cases h

theorem allows_among (hS : Among S) : Allows S r ↔ afterStmt S r := by
  cases hS <;> exact Iff.rfl

/-- A complete statement is followed by what its context allows. -/
theorem complete_allows {s : Stmt Extent} (h : complete s S = some S') (hr : Allows S' r) :
    afterStmt S r :=
  complete_after h ((allows_among (complete_among h)).mp hr)

theorem afterBlock_of_stmt (h : afterStmt S r) : afterBlock S r := by
  cases S with
  | nil => exact h
  | cons F S =>
    cases F with
    | program | block | elseIf => exact h
    | _ => cases h

/-- A complete block is followed by what its context allows. -/
theorem closeBlock_allows {b : Block Extent} (h : closeBlock b S = some S') (hr : Allows S' r) :
    afterBlock S r := by
  unfold closeBlock at h
  split at h
  · cases h; exact hr
  · cases h; exact hr
  · cases h; exact hr
  · exact complete_allows h hr
  · exact complete_allows h hr
  · exact afterBlock_of_stmt (complete_allows h hr)

theorem afterClause_of_stmt (h : leaf .semicolon (afterStmt S) r) : afterClause S r := by
  cases S with
  | nil => obtain ⟨_, _, _, h⟩ := h; exact h
  | cons F S =>
    cases F with
    | program | block | elseIf => exact h
    | _ => obtain ⟨_, _, _, h⟩ := h; cases h

/-- The token that ends a simple statement or clause is followed by what its context allows. -/
theorem endSimple_allows {stmt : Stmt Extent} {t : Token} (h : endSimple stmt S t = some S')
    (hr : Allows S' r) : afterClause S (t :: r) := by
  unfold endSimple at h
  split at h
  case h_1 ht => cases h; exact leaf_cons ht hr
  case h_2 ht => cases h; exact leaf_cons ht hr
  case h_3 ht => exact afterClause_of_stmt (leaf_cons ht (complete_allows h hr))
  case h_4 => cases h

/-! ## Steps -/

theorem withStack_map {s s' : State} {o : Option Stack} (h : s.withStack <$> o = some s') :
    o = some s'.stack := by
  cases o with
  | none => cases h
  | some S => cases h; rfl

theorem endAssignment_stack {s s' : State} {target value : Operand} {t : Token}
    (h : Parser.endAssignment s target value S t = some s') :
    ∃ stmt, endSimple stmt S t = some s'.stack := by
  unfold Parser.endAssignment at h
  obtain ⟨S', hS', h⟩ := Option.bind_eq_some_iff.mp h
  refine ⟨_, hS'.trans ?_⟩
  split at h <;> cases h <;> rfl

/-- A token that ends an expression is followed by what the context allows. -/
theorem endExpr_allows {s s' : State} {e : Operand} {t : Token} (h : endExpr s e S t = some s')
    (hr : Allows s'.stack r) : afterExpr S (t :: r) := by
  unfold endExpr at h
  split at h
  case h_1 ht => cases h; exact leaf_cons ht hr
  case h_2 ht =>
    cases h
    obtain ⟨e', _, rfl, es, r, rfl, hr⟩ : expr (p := 1) (tree MoreArgs.tokens _) r := hr
    exact ⟨.cons ⟨t, ht⟩ e' es, r, by simp [MoreArgs.collect], hr⟩
  case h_3 ht => cases h; exact ⟨.nil, _, rfl, leaf_cons ht hr⟩
  case h_4 ht => cases h; exact leaf_cons ht hr
  case h_5 ht =>
    cases h
    obtain ⟨e', _, rfl, es, r, rfl, hr⟩ : expr (p := 1) (tree MoreArgs.tokens _) r := hr
    exact ⟨.cons ⟨t, ht⟩ e' es, r, by simp [MoreArgs.collect], hr⟩
  case h_6 ht => cases h; exact ⟨.nil, _, rfl, leaf_cons ht hr⟩
  case h_7 ht => cases h; exact .inr (leaf_cons ht hr)
  case h_8 => exact .inl (endSimple_allows (withStack_map h) hr)
  case h_9 =>
    obtain ⟨stmt, h⟩ := endAssignment_stack h
    exact endSimple_allows h hr
  case h_10 => exact endSimple_allows (withStack_map h) hr
  case h_11 ht => exact leaf_cons ht (complete_allows (withStack_map h) hr)
  case h_12 ht => cases h; exact leaf_cons ht hr
  case h_13 ht => cases h; exact leaf_cons ht hr
  case h_14 ht => cases h; exact leaf_cons ht hr
  case h_15 ht => cases h; exact leaf_cons ht hr
  case h_16 => cases h

/-- An operator of a level is followed by its right operand and by operands of lower levels. -/
theorem chains_cons {p : Nat} {op : BinaryOp} {t : Token} (ht : t.terminal = .operator op)
    (hop : op ∈ operatorsAt (p + 1))
    (h : expr (p := p + 2) (chains (p + 1) K) r) : chains (p + 1) K (t :: r) := by
  obtain ⟨e, _, rfl, ts, r, rfl, h⟩ := h
  exact ⟨.cons ⟨op, hop, ⟨t, ht⟩⟩ e ts, r, by simp [Tails.collect], h⟩

theorem chains_nil {p q : Nat} (hpq : p ≤ q) (h : chains p K r) : chains q K r := by
  induction hpq with
  | refl => exact h
  | step _ ih => exact ⟨.nil, r, rfl, ih⟩

/-- Which operators are pending makes no difference to what may come after an expression. -/
theorem afterExpr_reduce (p : Nat) (e : Operand) (S : Stack) :
    afterExpr (reduce p e S).2 = afterExpr S := by
  induction S generalizing e with
  | nil => rfl
  | cons F S ih =>
    cases F with
    | unary start op => exact ih _
    | binary l op place =>
      rw [reduce]
      split
      · exact ih _
      · rfl
    | _ => rfl

/-- A token of one of the terminals of the grammar. -/
def Known (k : Terminal) : Prop := ∀ s, k ≠ .operator (.other s)

/-- Every operator of the grammar is of a level. -/
theorem exists_level {o : BinaryOp} (h : ∀ s, o ≠ .other s) :
    ∃ p, o ∈ operatorsAt (p + 1) ∧ p < 6 := by
  have hall : ∀ o ∈ BinaryOp.all, ∃ p < 6, o ∈ operatorsAt (p + 1) := by decide
  obtain ⟨p, hp, hmem⟩ := hall o (by cases o <;> first | exact absurd rfl (h _) | decide)
  exact ⟨p, hmem, hp⟩

/-- The token after an operand goes on with it. -/
theorem afterOperand_allows {s s' : State} {e : Operand} {t : Token}
    (ht : Known t.terminal) (h : Parser.afterOperand s e S t = some s')
    (hr : Allows s'.stack r) : operators (afterExpr S) (t :: r) := by
  unfold Parser.afterOperand at h
  split at h
  case h_1 hk =>
    cases h
    obtain ⟨es, _, rfl, rp, _, rfl, ss, r, rfl, hr⟩ := hr
    exact ⟨.call ⟨t, hk⟩ es rp ss, r, by simp [Suffixes.collect], hr⟩
  case h_2 hk =>
    cases h
    obtain ⟨i, _, rfl, rb, _, rfl, ss, r, rfl, hr⟩ : expr (p := 1) _ r := hr
    exact ⟨.index ⟨t, hk⟩ i rb ss, r, by simp [Suffixes.collect], hr⟩
  case h_3 op hk =>
    cases h
    obtain ⟨p, hp, hlt⟩ := exists_level (o := op) fun s hs => ht s (hk.trans (by rw [hs]))
    have hr : expr (p := op.level + 1)
      (chains op.level (afterExpr (reduce op.level e S).2)) r := hr
    rw [afterExpr_reduce, level_of_mem hp] at hr
    exact ⟨.nil, _, rfl, chains_nil hlt (chains_cons hk hp hr)⟩
  case h_4 =>
    have hr : afterExpr (reduce 0 e S).2 (t :: r) := endExpr_allows h hr
    rw [afterExpr_reduce] at hr
    exact ⟨.nil, _, rfl, chains_nil (Nat.zero_le 6) hr⟩

/-! ## Statements -/

theorem afterClause_among (hS : Among S) (h : afterClause S r) :
    leaf .semicolon (afterStmt S) r := by
  cases hS <;> exact h

theorem afterBlock_among (hS : Among S) (h : afterBlock S r) : afterStmt S r := by
  cases hS <;> exact h

/-- A simple statement that begins with an expression. -/
theorem simple_allows (hS : Among S) (h : awaitedExpr (.simple :: S) r) : afterStmt S r := by
  obtain ⟨e, r, rfl, hc⟩ : expr (p := 1) (withValue (afterClause S)) r := h
  rcases hc with hc | ⟨eq, _, rfl, v, r, rfl, hc⟩
  · obtain ⟨sc, r, rfl, h⟩ := afterClause_among hS hc
    simpa [StmtTree.collect, ClauseTree.collect, SimpleTree.collect] using
      stmt_append (.clause (.simple (.expression e)) sc) h
  · obtain ⟨sc, r, rfl, h⟩ := afterClause_among hS hc
    simpa [StmtTree.collect, ClauseTree.collect, SimpleTree.collect] using
      stmt_append (.clause (.simple (.assignment e eq v)) sc) h

/-- A declaration after its first word. -/
theorem declaration_allows (hS : Among S) (w : DeclWord)
    (h : leaf .name (withValue (afterClause S)) r) : afterStmt S (w.token.1 :: r) := by
  obtain ⟨n, r, rfl, hc⟩ := h
  rcases hc with hc | ⟨eq, _, rfl, v, r, rfl, hc⟩
  · obtain ⟨sc, r, rfl, h⟩ := afterClause_among hS hc
    exact stmt_append (.clause (.declaration w n) sc) h
  · obtain ⟨sc, r, rfl, h⟩ := afterClause_among hS hc
    simpa [StmtTree.collect, ClauseTree.collect] using
      stmt_append (.clause (.initialized w n eq v) sc) h

/-- The first token of a statement is followed by the rest of it and by further statements. -/
theorem beginStmt_allows {s s' : State} {t : Token} (hS : Among S)
    (h : Parser.beginStmt s S t = some s') (hr : Allows s'.stack r) : afterStmt S (t :: r) := by
  unfold Parser.beginStmt at h
  split at h
  case h_1 ht => cases h; exact declaration_allows hS ⟨.var, ⟨t, ht⟩⟩ hr
  case h_2 ht => cases h; exact declaration_allows hS ⟨.letVar, ⟨t, ht⟩⟩ hr
  case h_3 ht => cases h; exact declaration_allows hS ⟨.const, ⟨t, ht⟩⟩ hr
  case h_4 ht =>
    cases h
    obtain ⟨e, _, rfl, sc, r, rfl, hr⟩ := hr
    simpa [StmtTree.collect] using stmt_append (.ret ⟨t, ht⟩ e sc) hr
  case h_5 ht =>
    cases h
    obtain ⟨sc, r, rfl, hr⟩ := hr
    exact stmt_append (.brk ⟨t, ht⟩ sc) hr
  case h_6 ht =>
    cases h
    obtain ⟨sc, r, rfl, hr⟩ := hr
    exact stmt_append (.cont ⟨t, ht⟩ sc) hr
  case h_7 ht =>
    cases h
    obtain ⟨lp, _, rfl, c, _, rfl, rp, _, rfl, b, _, rfl, o, r, rfl, hr⟩ := hr
    simpa [StmtTree.collect, IfTree.collect] using
      stmt_append (.branch (.mk ⟨t, ht⟩ lp c rp b o)) hr
  case h_8 ht =>
    cases h
    obtain ⟨lp, _, rfl, c, _, rfl, rp, _, rfl, b, r, rfl, hr⟩ := hr
    simpa [StmtTree.collect] using stmt_append (.whileLoop ⟨t, ht⟩ lp c rp b) hr
  case h_9 ht =>
    cases h
    obtain ⟨lp, _, rfl, hr⟩ := hr
    rcases hr with
      ⟨i, _, rfl, sc, _, rfl, c, _, rfl, sc', _, rfl, u, _, rfl, rp, _, rfl, b, r, rfl, hr⟩ |
      ⟨d, _, rfl, n, _, rfl, o, _, rfl, e, _, rfl, rp, _, rfl, b, r, rfl, hr⟩
    · simpa [StmtTree.collect] using stmt_append (.forLoop ⟨t, ht⟩ lp i sc c sc' u rp b) hr
    · simpa [StmtTree.collect] using stmt_append (.forOf ⟨t, ht⟩ lp d n o e rp b) hr
  case h_10 ht =>
    cases h
    obtain ⟨ss, _, rfl, rb, r, rfl, hr⟩ := hr
    simpa [StmtTree.collect, BlockTree.collect] using
      stmt_append (.block (.mk ⟨t, ht⟩ ss rb)) (afterBlock_among hS hr)
  case h_11 => exact simple_allows hS (beginExpr_allows h hr)

theorem amongStatements_allows {s s' : State} {t : Token}
    (h : Parser.amongStatements s S t = some s') (hr : Allows s'.stack r) :
    afterStmt S (t :: r) := by
  unfold Parser.amongStatements at h
  split at h
  case h_1 ht =>
    exact ⟨.nil, _, rfl, leaf_cons ht (closeBlock_allows (withStack_map h) hr)⟩
  case h_2 ht =>
    cases h
    rcases hr with ⟨n, _, rfl, lp, _, rfl, ps, _, rfl, rp, _, rfl, b, r, rfl, p, _, rfl, rfl⟩ |
      ⟨lp, _, rfl, ps, _, rfl, rp, _, rfl, b, r, rfl, hr⟩
    · refine ⟨.function ⟨⟨t, ht⟩, n, lp, ps, rp, b⟩ :: p, [], ?_, rfl⟩
      simp [ProgramTree.tokens, ProgramTree.collect, Item.collect, FunctionTree.collect]
    · refine simple_allows (.program _ _ _) ?_
      simpa [AtomTree.collect] using atom_awaited (.function ⟨t, ht⟩ lp ps rp b) hr
  case h_3 => exact beginStmt_allows (.program _ _ _) h hr
  case h_4 => exact beginStmt_allows (.block _ _ _) h hr
  case h_5 => cases h

/-- The first clause of a `for` that begins with an expression. -/
theorem forOpen_simple {start : Position}
    (h : awaitedExpr (.simple :: .forOpen start :: S) r) : Allows (.forOpen start :: S) r := by
  obtain ⟨e, r, rfl, hc⟩ :
    expr (p := 1) (withValue (leaf .semicolon (conditionRest (afterStmt S)))) r := h
  rcases hc with hc | ⟨eq, _, rfl, v, r, rfl, hc⟩
  · exact .inl ⟨.some (.simple (.expression e)), _, rfl, hc⟩
  · exact .inl ⟨.some (.simple (.assignment e eq v)), r,
      by simp [MaybeClause.collect, ClauseTree.collect, SimpleTree.collect], hc⟩

/-- A declaration or the variable of a loop over a sequence, after its first word. -/
theorem forOpen_declared {start : Position} (w : DeclWord)
    (h : leaf .name (fun ts => leaf .kwOf (ofRest (afterStmt S)) ts ∨
      withValue (afterClause (.forOpen start :: S)) ts) r) :
    Allows (.forOpen start :: S) (w.token.1 :: r) := by
  obtain ⟨n, r, rfl, h⟩ := h
  rcases h with h | h | ⟨eq, _, rfl, v, r, rfl, h⟩
  · exact .inr ⟨some w, _, rfl, n, _, rfl, h⟩
  · exact .inl ⟨.some (.declaration w n), _, rfl, h⟩
  · exact .inl ⟨.some (.initialized w n eq v), r,
      by simp [MaybeClause.collect, ClauseTree.collect], h⟩

/-- The third clause of a `for`. -/
theorem forUpdate_simple {start : Position} {init : Option (Stmt Extent)}
    {condition : Option (Expr Extent)}
    (h : awaitedExpr (.simple :: .forUpdate start init condition :: S) r) :
    updateRest (afterStmt S) r := by
  obtain ⟨e, r, rfl, hc⟩ :
    expr (p := 1) (withValue (leaf .rightParen (block (afterStmt S)))) r := h
  rcases hc with hc | ⟨eq, _, rfl, v, r, rfl, hc⟩
  · exact ⟨.some (.expression e), _, rfl, hc⟩
  · exact ⟨.some (.assignment e eq v), r, by simp [MaybeSimple.collect, SimpleTree.collect], hc⟩

theorem declKind?_eq {k : Terminal} {kind : DeclKind} (h : Parser.declKind? k = some kind) :
    k = kind.terminal := by
  unfold Parser.declKind? at h
  split at h <;> cases h <;> rfl

/-- In the header of a `for`. -/
theorem inForHeader_allows {s s' : State} {t : Token} (ht : Known t.terminal)
    (h : Parser.inForHeader s S t = some s') (hr : Allows s'.stack r) : Allows S (t :: r) := by
  unfold Parser.inForHeader at h
  split at h
  case h_1 hk => cases h; exact .inl ⟨.none, _, rfl, leaf_cons hk hr⟩
  case h_2 hk =>
    cases h
    rcases hr with hr | hr
    · exact .inr ⟨none, _, rfl, leaf_cons hk hr⟩
    · exact forOpen_simple (atom_awaited (.name ⟨t, hk⟩) hr)
  case h_3 =>
    split at h
    case h_1 kind hk =>
      cases h
      exact forOpen_declared ⟨kind, ⟨t, declKind?_eq hk⟩⟩ hr
    case h_2 => exact forOpen_simple (beginExpr_allows h hr)
  case h_4 hk => cases h; exact .inl (leaf_cons hk hr)
  case h_5 => exact .inr (afterOperand_allows ht h hr)
  case h_6 hk => cases h; exact leaf_cons hk hr
  case h_7 hk => cases h; exact .inl (leaf_cons hk hr)
  case h_8 hk => cases h; exact .inr (.inr (leaf_cons hk hr))
  case h_9 hk => exact .inr (.inl (endSimple_allows (withStack_map h) hr))
  case h_10 hk => cases h; exact ⟨.none, _, rfl, leaf_cons hk hr⟩
  case h_11 =>
    obtain ⟨e, r', he, hr⟩ :
      expr (p := 1) (leaf .semicolon (updateRest _)) (t :: r) := beginExpr_allows h hr
    exact ⟨.some e, r', he, hr⟩
  case h_12 hk => cases h; exact ⟨.none, _, rfl, leaf_cons hk hr⟩
  case h_13 => exact forUpdate_simple (beginExpr_allows h hr)
  case h_14 => cases h

theorem afterBlock_names (head : Parser.FunctionHead) (ns ns' : List Name) (S : Stack) :
    afterBlock (.body head ns :: S) = afterBlock (.body head ns' :: S) := by
  obtain ⟨start, name⟩ := head
  cases name <;> rfl

theorem inFunctionHead_allows {s s' : State} {t : Token}
    (h : Parser.inFunctionHead s S t = some s') (hr : Allows s'.stack r) : Allows S (t :: r) := by
  unfold Parser.inFunctionHead at h
  split at h
  case h_1 hk => cases h; exact .inl (leaf_cons hk hr)
  case h_2 start top rest hk =>
    cases h
    cases top
    · exact leaf_cons hk hr
    · exact .inr (leaf_cons hk hr)
  case h_3 hk => cases h; exact leaf_cons hk hr
  case h_4 hk =>
    cases h
    obtain ⟨ns, r, rfl, hr⟩ := hr
    exact ⟨some ⟨⟨t, hk⟩, ns⟩, r, by simp [collectParams, Params.collect], hr⟩
  case h_5 hk => cases h; exact ⟨none, _, rfl, leaf_cons hk hr⟩
  case h_6 hk =>
    cases h
    obtain ⟨n, _, rfl, ns, r, rfl, hr⟩ := hr
    exact ⟨(⟨t, hk⟩, n) :: ns, r, by simp, hr⟩
  case h_7 hk => cases h; exact ⟨[], _, rfl, leaf_cons hk hr⟩
  case h_8 hk => cases h; exact leaf_cons hk hr
  case h_9 hk =>
    cases h
    obtain ⟨ss, _, rfl, rb, r, rfl, hr⟩ := hr
    exact ⟨.mk ⟨t, hk⟩ ss rb, r, by simp [BlockTree.collect], by rwa [afterBlock_names]⟩
  case h_10 => cases h

/-- The brace that opens a block is followed by the rest of it. -/
theorem block_allows {lb : Token} (hk : lb.terminal = .leftBrace) (h : statements K r) :
    block K (lb :: r) := by
  obtain ⟨ss, _, rfl, rb, r, rfl, h⟩ := h
  exact ⟨.mk ⟨lb, hk⟩ ss rb, r, by simp [BlockTree.collect], h⟩

/-- After an argument or an element with a comma another has to come; at first there need not be
    any. -/
theorem args_allow {k : Terminal}
    (h : expr (p := 1) (tree MoreArgs.tokens (leaf k K)) r) : tree Args.tokens (leaf k K) r := by
  obtain ⟨e, _, rfl, es, r, rfl, h⟩ := h
  exact ⟨.some e es, r, by simp [Args.collect], h⟩

/-- A step goes from a stack that allows the token, followed by what the next stack allows. -/
theorem step_allows {s s' : State} {t : Token} (ht : Known t.terminal)
    (h : step s t = some s') (hr : Allows s'.stack r) : Allows s.stack (t :: r) := by
  obtain ⟨S, f⟩ := s
  unfold step at h
  split at h
  -- an operand, statements
  case h_1 hS => cases hS; exact afterOperand_allows ht h hr
  case h_2 hS => cases hS; exact amongStatements_allows h hr
  case h_3 hS => cases hS; exact amongStatements_allows h hr
  -- expressions
  case h_4 hS hk => cases hS; cases h; exact ⟨.none, _, rfl, leaf_cons hk hr⟩
  case h_5 hS hk => cases hS; cases h; exact ⟨.none, _, rfl, leaf_cons hk hr⟩
  case h_9 args _ hS _ =>
    cases hS
    cases args with
    | nil => exact args_allow (beginExpr_allows h hr)
    | cons => exact beginExpr_allows h hr
  case h_11 args _ hS _ =>
    cases hS
    cases args with
    | nil => exact args_allow (beginExpr_allows h hr)
    | cons => exact beginExpr_allows h hr
  case h_6 hS | h_7 hS | h_8 hS | h_10 hS | h_12 hS | h_13 hS | h_14 hS | h_15 hS | h_16 hS
    | h_17 hS => cases hS; exact beginExpr_allows h hr
  -- functions
  case h_18 hS | h_19 hS | h_20 hS | h_21 hS | h_22 hS | h_23 hS =>
    cases hS; exact inFunctionHead_allows h hr
  -- declarations
  case h_24 hS hk => cases hS; cases h; exact leaf_cons hk hr
  case h_25 hS hk => cases hS; cases h; exact .inr (leaf_cons hk hr)
  case h_26 hS hk =>
    cases hS
    exact .inl (afterClause_of_stmt (leaf_cons hk (complete_allows (withStack_map h) hr)))
  -- jumps
  case h_27 hS hk =>
    cases hS; exact ⟨.none, _, rfl, leaf_cons hk (complete_allows (withStack_map h) hr)⟩
  case h_28 hS _ =>
    cases hS
    obtain ⟨e, r', he, hr⟩ : expr (p := 1) (leaf .semicolon _) (t :: r) := beginExpr_allows h hr
    exact ⟨.some e, r', he, hr⟩
  case h_29 hS hk => cases hS; exact leaf_cons hk (complete_allows (withStack_map h) hr)
  -- conditionals
  case h_30 hS hk => cases hS; cases h; exact leaf_cons hk hr
  case h_31 hS hk => cases hS; cases h; exact block_allows hk hr
  case h_32 hS hk =>
    cases hS; cases h
    rcases hr with ⟨b, r, rfl, hr⟩ | ⟨i, r, rfl, hr⟩
    · exact ⟨.block ⟨t, hk⟩ b, r, rfl, hr⟩
    · exact ⟨.elseIf ⟨t, hk⟩ i, r, rfl, hr⟩
  case h_33 hS _ =>
    cases hS
    obtain ⟨S', hS', h⟩ := Option.bind_eq_some_iff.mp h
    exact ⟨.none, _, rfl, complete_after hS' (amongStatements_allows h hr)⟩
  case h_34 hS hk => cases hS; cases h; exact .inl (block_allows hk hr)
  case h_35 hS hk =>
    cases hS; cases h
    obtain ⟨lp, _, rfl, c, _, rfl, rp, _, rfl, b, _, rfl, o, r, rfl, hr⟩ := hr
    exact .inr ⟨.mk ⟨t, hk⟩ lp c rp b o, r, by simp [IfTree.collect], hr⟩
  -- loops
  case h_36 hS hk => cases hS; cases h; exact leaf_cons hk hr
  case h_37 hS hk => cases hS; cases h; exact leaf_cons hk hr
  case h_38 hS | h_39 hS | h_40 hS | h_41 hS | h_42 hS | h_43 hS =>
    cases hS; exact inForHeader_allows ht h hr
  case h_44 hS hk => cases hS; cases h; exact block_allows hk hr
  case h_45 => cases h

/-! ## Sources -/

/-- The tokens that are read, followed by what the stack then allows, are allowed by the stack on
    which they are read. -/
theorem run_allows {s s' : State} {ts : List Token} (hts : ∀ t ∈ ts, Known t.terminal)
    (h : run s ts = .ok s') (hr : Allows s'.stack r) : Allows s.stack (ts ++ r) := by
  induction ts generalizing s with
  | nil => cases h; exact hr
  | cons t ts ih =>
    rw [run] at h
    split at h
    case h_1 s₁ hstep =>
      exact step_allows (hts t List.mem_cons_self) hstep
        (ih (fun t' ht' => hts t' (List.mem_cons_of_mem t ht')) h)
    case h_2 => cases h

theorem finish_allows {s : State} {P : Program Extent} (h : Parser.finish s = some P) :
    Allows s.stack [] := by
  obtain ⟨S, f⟩ := s
  have hnil : ∀ fs ss, afterStmt [Frame.program fs ss] [] := fun _ _ => ⟨[], [], rfl, rfl⟩
  unfold Parser.finish at h
  dsimp only at h
  split at h
  case h_1 head rest =>
    obtain ⟨S', hS', h⟩ := Option.bind_eq_some_iff.mp h
    split at h
    case h_1 => exact ⟨.none, [], rfl, complete_after hS' (hnil _ _)⟩
    case h_2 => cases h
  case h_2 =>
    simp only [bind, Option.bind] at h
    split at h
    case h_1 fs ss _ => exact hnil fs ss
    case h_2 => cases h

/-- A source that is read to the end has a derivation. -/
theorem exists_derivation {s : State} {ts : List Token} {P : Program Extent}
    (hts : ∀ t ∈ ts, Known t.terminal) (h : run .initial ts = .ok s)
    (hend : Parser.finish s = some P) : ∃ p : ProgramTree, p.tokens = ts := by
  obtain ⟨p, _, hp, rfl⟩ := run_allows hts h (finish_allows hend)
  rw [List.append_nil, List.append_nil] at hp
  exact ⟨p, hp.symm⟩

end FlatScope.Grammar
