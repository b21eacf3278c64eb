import FlatScope.Proofs.Grammar.Sound

/-!
# The beginnings of programs

What the parser has read can always be continued to a program (`viable_of_run`), so that it refuses
a token just when no program has that token there (`step_eq_none_iff`).

What a stack allows (`Allows`) is put together from what the rest of the stack allows after a
statement, a block, a clause or an expression, by tokens and trees, of which there are some for
every rule. So a stack allows something if what is below its topmost frame does (`Live`), and every
step keeps it so (`step_live`).
-/

namespace FlatScope.Grammar

open FlatScope.Parser (Operand Stack Frame State reduce step run beginExpr endExpr complete
  closeBlock endSimple)

/-- The tokens are the beginning of a program. -/
def Viable (ts : List Token) : Prop := ∃ d : ProgramTree, ts <+: d.tokens

/-! ## Something that is derived from every rule -/

/-- Some token of a terminal. -/
def someLeaf (k : Terminal) : Leaf k := ⟨⟨k, [], default⟩, rfl⟩

instance (k : Terminal) : Inhabited (Leaf k) := ⟨someLeaf k⟩

instance : Inhabited AtomTree := ⟨.name default⟩

instance : Inhabited Suffixes := ⟨.nil⟩

instance {p : Nat} : Inhabited (Tails p) := ⟨.nil⟩

theorem nonempty_exprTree {p : Nat} (hp : p ≤ 6) : Nonempty (ExprTree (p + 1)) := by
  obtain ⟨k, hk⟩ := Nat.exists_eq_add_of_le hp
  induction k generalizing p with
  | zero =>
    obtain rfl : p = 6 := hk.symm
    exact ⟨.suffixed default default⟩
  | succ k ih =>
    obtain ⟨e⟩ := ih (p := p + 1) (by omega) (by omega)
    exact ⟨.chain (by omega) e .nil⟩

instance : Nonempty (ExprTree 1) := nonempty_exprTree (Nat.zero_le 6)

instance : Inhabited Args := ⟨.none⟩

instance : Inhabited MoreArgs := ⟨.nil⟩

instance : Inhabited StmtTrees := ⟨.nil⟩

instance : Inhabited BlockTree := ⟨.mk default default default⟩

instance : Inhabited MaybeExpr := ⟨.none⟩

instance : Inhabited MaybeClause := ⟨.none⟩

instance : Inhabited MaybeSimple := ⟨.none⟩

instance : Inhabited ElseTree := ⟨.none⟩

instance : Nonempty IfTree := by
  obtain ⟨e⟩ : Nonempty (ExprTree 1) := inferInstance
  exact ⟨.mk default default e default default .none⟩

/-! ## Sets of sources that hold something -/

/-- There is a source in the set. -/
def Possible (K : List Token → Prop) : Prop := ∃ ts, K ts

namespace Possible

variable {K : List Token → Prop}

@[simp] theorem leaf_iff {k : Terminal} : Possible (leaf k K) ↔ Possible K := by
  constructor
  · rintro ⟨_, _, r, rfl, hr⟩
    exact ⟨r, hr⟩
  · rintro ⟨r, hr⟩
    exact ⟨_, someLeaf k, r, rfl, hr⟩

@[simp] theorem tree_iff {α : Type} [hα : Nonempty α] {tokens : α → List Token} :
    Possible (tree tokens K) ↔ Possible K := by
  constructor
  · rintro ⟨_, _, r, rfl, hr⟩
    exact ⟨r, hr⟩
  · rintro ⟨r, hr⟩
    obtain ⟨d⟩ := hα
    exact ⟨_, d, r, rfl, hr⟩

@[simp] theorem chains_iff {p : Nat} : Possible (chains p K) ↔ Possible K := by
  induction p with
  | zero => exact Iff.rfl
  | succ p ih => exact tree_iff.trans ih

@[simp] theorem operators_iff : Possible (operators K) ↔ Possible K := tree_iff.trans chains_iff

@[simp] theorem statements_iff : Possible (statements K) ↔ Possible K := tree_iff.trans leaf_iff

@[simp] theorem or_iff {L : List Token → Prop} :
    Possible (fun ts => K ts ∨ L ts) ↔ Possible K ∨ Possible L := exists_or

@[simp] theorem withValue_iff : Possible (withValue K) ↔ Possible K := by
  refine or_iff.trans ?_
  simp

@[simp] theorem ofRest_iff : Possible (ofRest K) ↔ Possible K := by simp [ofRest]

@[simp] theorem updateRest_iff : Possible (updateRest K) ↔ Possible K := by simp [updateRest]

@[simp] theorem conditionRest_iff : Possible (conditionRest K) ↔ Possible K := by
  simp [conditionRest]

@[simp] theorem forRest_iff : Possible (forRest K) ↔ Possible K := by
  refine or_iff.trans ?_
  simp

@[simp] theorem awaitedExpr_iff {S : Stack} : Possible (awaitedExpr S) ↔ Possible (afterExpr S) :=
  have := nonempty_exprTree (level_le S)
  tree_iff.trans chains_iff

end Possible

/-! ## Stacks on which something may come -/

/-- Something may come on the stack up to the end of the program; after the word that begins a
    function at the top of a program that is a name as well as a parenthesis. -/
def Live : Stack → Prop
  | .functionWord _ true :: S => Possible (afterStmt S)
  | S => Possible (Allows S)

variable {S S' : Stack} {s s' : State} {t : Token}

attribute [local simp] Live Allows afterExpr afterStmt afterBlock afterClause

@[simp] theorem withStack_stack (s : State) (S : Stack) : (s.withStack S).stack = S := rfl

@[simp] theorem note_stack (s : State) (fault : Parser.Fault) (place : Extent) :
    (s.note fault place).stack = s.stack := rfl

theorem Possible.clause_of_stmt (h : Possible (afterStmt S)) : Possible (afterClause S) := by
  obtain ⟨r, hr⟩ := h
  exact ⟨_, afterClause_of_stmt (leaf_cons (someLeaf .semicolon).2 hr)⟩

theorem Live.possible (h : Live S) : Possible (Allows S) := by
  unfold Live at h
  split at h
  case h_1 => simp [Possible.clause_of_stmt h]
  case h_2 => exact h

/-! ## Complete constructs -/

/-- Where a statement is complete, as much may come as before it. -/
theorem complete_eq {stmt : Stmt Extent} (h : complete stmt S = some S') :
    afterStmt S' = afterStmt S := by
  induction S generalizing stmt with
  | nil => cases h
  | cons F S ih =>
    cases F with
    | program fs ss => cases h; rfl
    | block start done => cases h; rfl
    | elseIf head => exact ih h
    | _ => cases h

/-- A statement is complete where blocks and clauses that end with a semicolon may stand. -/
theorem complete_places {stmt : Stmt Extent} (h : complete stmt S = some S') :
    afterBlock S = afterStmt S ∧ afterClause S = leaf .semicolon (afterStmt S) := by
  cases S with
  | nil => cases h
  | cons F S =>
    cases F with
    | program | block | elseIf => exact ⟨rfl, rfl⟩
    | _ => cases h

theorem live_among (hS : Among S) : Live S ↔ Possible (afterStmt S) := by
  cases hS <;> exact Iff.rfl

theorem complete_live {stmt : Stmt Extent} (h : complete stmt S = some S')
    (hS : Possible (afterStmt S)) : Live S' := by
  rwa [live_among (complete_among h), complete_eq h]

theorem closeBlock_live {b : Block Extent} (h : closeBlock b S = some S')
    (hS : Possible (afterBlock S)) : Live S' := by
  unfold closeBlock at h
  split at h
  case h_1 => cases h; exact hS
  case h_2 => cases h; exact hS
  case h_3 => cases h; exact hS
  case h_4 => exact complete_live h hS
  case h_5 => exact complete_live h hS
  case h_6 => exact complete_live h (by rwa [← (complete_places h).1])

theorem endSimple_live {stmt : Stmt Extent} (h : endSimple stmt S t = some S')
    (hS : Possible (afterClause S)) : Live S' := by
  unfold endSimple at h
  split at h
  case h_1 =>
    cases h
    simpa using hS
  case h_2 =>
    cases h
    simpa using hS
  case h_3 =>
    rw [(complete_places h).2, Possible.leaf_iff] at hS
    exact complete_live h hS
  case h_4 => cases h

/-! ## Steps -/

theorem beginExpr_live (h : beginExpr s S t = some s') (hS : Possible (afterExpr S)) :
    Live s'.stack := by
  have hlit : ∀ v, Live (Parser.pushLiteral s S t v).stack := by
    intro v
    unfold Parser.pushLiteral
    split <;> simpa using hS
  have hawaits : ∀ F, afterExpr (F :: S) = afterExpr S → Possible (awaitedExpr (F :: S)) := by
    intro F hF
    rwa [Possible.awaitedExpr_iff, hF]
  unfold beginExpr at h
  split at h <;> cases h
  case h_1 | h_2 | h_3 | h_4 | h_5 => exact hlit _
  case h_6 => exact Possible.operators_iff.mpr hS
  case h_7 => simpa using hS
  case h_8 =>
    refine Possible.awaitedExpr_iff.mpr ?_
    simpa using hS
  case h_9 => simpa using hS
  case h_10 => exact hawaits _ rfl
  case h_11 => exact hawaits _ rfl

/-- After an operand that nothing is left to apply to. -/
theorem endExpr_live {e : Operand} (h : endExpr s e S t = some s') (hS : Possible (afterExpr S)) :
    Live s'.stack := by
  unfold endExpr at h
  split at h
  case h_1 => cases h; simpa using hS
  case h_2 =>
    cases h
    exact Possible.awaitedExpr_iff.mpr (by simpa using hS)
  case h_3 => cases h; simpa using hS
  case h_4 => cases h; simpa using hS
  case h_5 =>
    cases h
    exact Possible.awaitedExpr_iff.mpr (by simpa using hS)
  case h_6 => cases h; simpa using hS
  case h_7 =>
    cases h
    exact Possible.awaitedExpr_iff.mpr (by simpa using hS)
  case h_8 =>
    exact endSimple_live (withStack_map h) (by simpa using hS)
  case h_9 =>
    obtain ⟨stmt, h⟩ := endAssignment_stack h
    exact endSimple_live h hS
  case h_10 => exact endSimple_live (withStack_map h) hS
  case h_11 => exact complete_live (withStack_map h) (by simpa using hS)
  case h_12 => cases h; simpa using hS
  case h_13 => cases h; simpa using hS
  case h_14 => cases h; simpa using hS
  case h_15 => cases h; simpa using hS
  case h_16 => cases h

theorem afterOperand_live {e : Operand} (h : Parser.afterOperand s e S t = some s')
    (hS : Possible (afterExpr S)) : Live s'.stack := by
  unfold Parser.afterOperand at h
  split at h
  case h_1 => cases h; simpa using hS
  case h_2 =>
    cases h
    exact Possible.awaitedExpr_iff.mpr (by simpa using hS)
  case h_3 op _ =>
    cases h
    refine Possible.awaitedExpr_iff.mpr ?_
    change Possible (afterExpr (reduce op.level e S).2)
    rwa [afterExpr_reduce]
  case h_4 =>
    refine endExpr_live h ?_
    rwa [afterExpr_reduce]

theorem beginStmt_live (hamong : Among S) (h : Parser.beginStmt s S t = some s')
    (hS : Possible (afterStmt S)) : Live s'.stack := by
  have hclause := hS.clause_of_stmt
  unfold Parser.beginStmt at h
  split at h
  case h_11 => exact beginExpr_live h (by simpa using hclause)
  case h_10 =>
    cases h
    have hblock : afterBlock S = afterStmt S := by cases hamong <;> rfl
    change Possible (statements (afterBlock S))
    rwa [hblock, Possible.statements_iff]
  case h_1 | h_2 | h_3 => cases h; simpa using hclause
  all_goals cases h; simpa using hS

theorem amongStatements_live (h : Parser.amongStatements s S t = some s')
    (hS : Possible (afterStmt S)) : Live s'.stack := by
  unfold Parser.amongStatements at h
  split at h
  case h_1 =>
    exact closeBlock_live (withStack_map h) (by simpa using hS)
  case h_2 => cases h; exact hS
  case h_3 => exact beginStmt_live (.program _ _ _) h hS
  case h_4 => exact beginStmt_live (.block _ _ _) h hS
  case h_5 => cases h

theorem inForHeader_live (h : Parser.inForHeader s S t = some s') (hS : Live S) :
    Live s'.stack := by
  unfold Parser.inForHeader at h
  split at h
  case h_1 => cases h; simpa using hS
  case h_2 => cases h; simpa using hS
  case h_3 =>
    split at h
    case h_1 => cases h; simpa using hS
    case h_2 => exact beginExpr_live h (by simpa using hS)
  case h_4 => cases h; simpa using hS
  case h_5 => exact afterOperand_live h (by simpa using hS)
  case h_6 => cases h; simpa using hS
  case h_7 => cases h; simpa using hS
  case h_8 =>
    cases h
    exact Possible.awaitedExpr_iff.mpr (by simpa using hS)
  case h_9 => exact endSimple_live (withStack_map h) (by simpa using hS)
  case h_10 => cases h; simpa using hS
  case h_11 => exact beginExpr_live h (by simpa using hS)
  case h_12 => cases h; simpa using hS
  case h_13 => exact beginExpr_live h (by simpa using hS)
  case h_14 => cases h

theorem inFunctionHead_live (h : Parser.inFunctionHead s S t = some s') (hS : Live S) :
    Live s'.stack := by
  unfold Parser.inFunctionHead at h
  split at h
  case h_1 => cases h; simpa using hS
  case h_2 start top rest _ =>
    cases h
    cases top
    · simpa using hS
    · simpa using Possible.clause_of_stmt hS
  case h_10 => cases h
  all_goals
    cases h
    simpa [Live, Allows, afterStmt, afterBlock_names _ _ []] using hS

/-- What begins with an expression, on a stack that awaits one. -/
theorem beginExpr_top_live {F : Frame} (h : beginExpr s (F :: S) t = some s')
    (hS : Live (F :: S)) (hF : Allows (F :: S) = awaitedExpr (F :: S)) : Live s'.stack := by
  have hpossible := hS.possible
  rw [hF, Possible.awaitedExpr_iff] at hpossible
  exact beginExpr_live h hpossible

/-- Every step keeps it so that something may come. -/
theorem step_live (h : step s t = some s') (hS : Live s.stack) : Live s'.stack := by
  obtain ⟨S, f⟩ := s
  unfold step at h
  split at h
  -- an operand, statements
  case h_1 hstack => cases hstack; exact afterOperand_live h (Possible.operators_iff.mp hS)
  case h_2 hstack => cases hstack; exact amongStatements_live h hS
  case h_3 hstack => cases hstack; exact amongStatements_live h hS
  -- expressions
  case h_4 hstack _ => cases hstack; cases h; simpa using hS
  case h_5 hstack _ => cases hstack; cases h; simpa using hS
  case h_9 args _ hstack _ =>
    cases hstack
    refine beginExpr_live h ?_
    cases args <;> simpa using hS
  case h_11 args _ hstack _ =>
    cases hstack
    refine beginExpr_live h ?_
    cases args <;> simpa using hS
  case h_6 hstack | h_7 hstack | h_8 hstack | h_10 hstack | h_12 hstack | h_13 hstack | h_14 hstack
    | h_15 hstack | h_16 hstack | h_17 hstack =>
    cases hstack; exact beginExpr_top_live h hS rfl
  -- functions
  case h_18 hstack | h_19 hstack | h_20 hstack | h_21 hstack | h_22 hstack | h_23 hstack =>
    cases hstack; exact inFunctionHead_live h hS
  -- declarations
  case h_24 hstack _ => cases hstack; cases h; simpa using hS
  case h_25 hstack _ => cases hstack; cases h; simpa using hS
  case h_26 hstack _ =>
    cases hstack
    have h := withStack_map h
    exact complete_live h (by simpa [(complete_places h).2] using hS)
  -- jumps
  case h_27 hstack _ =>
    cases hstack
    exact complete_live (withStack_map h) (by simpa using hS)
  case h_28 hstack _ =>
    cases hstack
    exact beginExpr_live h (by simpa using hS)
  case h_29 hstack _ =>
    cases hstack
    exact complete_live (withStack_map h) (by simpa using hS)
  -- conditionals
  case h_30 hstack _ => cases hstack; cases h; simpa using hS
  case h_31 hstack _ => cases hstack; cases h; simpa using hS
  case h_32 hstack _ => cases hstack; cases h; simpa using hS
  case h_33 hstack _ =>
    cases hstack
    obtain ⟨U, hU, h⟩ := Option.bind_eq_some_iff.mp h
    refine amongStatements_live h ?_
    rw [complete_eq hU]
    simpa using hS
  case h_34 hstack _ => cases hstack; cases h; simpa using hS
  case h_35 hstack _ => cases hstack; cases h; simpa using hS
  -- loops
  case h_36 hstack _ => cases hstack; cases h; simpa using hS
  case h_37 hstack _ => cases hstack; cases h; simpa using hS
  case h_38 hstack | h_39 hstack | h_40 hstack | h_41 hstack | h_42 hstack | h_43 hstack =>
    cases hstack; exact inForHeader_live h hS
  case h_44 hstack _ => cases hstack; cases h; simpa using hS
  case h_45 => cases h

/-! ## Sources -/

theorem run_live {ts : List Token} (h : run s ts = .ok s') (hS : Live s.stack) :
    Live s'.stack := by
  induction ts generalizing s with
  | nil => cases h; exact hS
  | cons t ts ih =>
    rw [run] at h
    split at h
    case h_1 hstep => exact ih h (step_live hstep hS)
    case h_2 => cases h

theorem live_initial : Live State.initial.stack := Possible.tree_iff.mpr ⟨[], rfl⟩

/-- What is read without a refusal is the beginning of a program. -/
theorem viable_of_run {ts : List Token} (hts : ∀ t ∈ ts, Known t.terminal)
    (h : run .initial ts = .ok s) : Viable ts := by
  obtain ⟨r, hr⟩ := (run_live h live_initial).possible
  obtain ⟨d, _, hd, rfl⟩ := run_allows hts h hr
  rw [List.append_nil] at hd
  exact ⟨d, r, hd⟩

/-- The beginning of a program is read without a refusal. -/
theorem Viable.run {ts : List Token} (h : Viable ts) : ∃ s, run .initial ts = .ok s := by
  obtain ⟨d, r, hd⟩ := h
  obtain ⟨U, htakes, -⟩ := d.takes [] []
  have hrun := htakes none
  rw [← hd, run_append] at hrun
  cases hts : Parser.run ⟨[.program [] []], none⟩ ts with
  | error e => rw [hts] at hrun; cases hrun
  | ok s => exact ⟨s, hts⟩

/-- A token is refused just when no program has it after the tokens that were read. -/
theorem step_eq_none_iff {ts : List Token} (hts : ∀ t' ∈ ts ++ [t], Known t'.terminal)
    (h : run .initial ts = .ok s) : step s t = none ↔ ¬ Viable (ts ++ [t]) := by
  have hrun : run .initial (ts ++ [t]) = run s [t] := by
    rw [run_append, h]
    rfl
  constructor
  · rintro hnone hviable
    obtain ⟨s', hs'⟩ := hviable.run
    rw [hrun, run, hnone] at hs'
    cases hs'
  · intro hviable
    rw [Option.eq_none_iff_forall_ne_some]
    intro s' hs'
    refine hviable (viable_of_run hts (s := s') ?_)
    simp only [hrun, run, hs']

end FlatScope.Grammar
