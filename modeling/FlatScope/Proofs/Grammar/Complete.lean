import FlatScope.Parser
import FlatScope.Proofs.Grammar.Unique

/-!
# Every derivation is read

The parser takes the tokens of a derivation without refusing one of them, and what it has on its
stack afterwards is the tree that the derivation denotes.

What it does with a construct depends on the stack only through a few of its properties. A chain of
operators is complete on the stack only when a token shows that it does not go on; until then the
top of the stack *yields* its tree: applying the pending operators would leave it there (`Yields`).
A statement that ends with an `if` is pending until a token other than `else` is read (`Settles`).
An expression that stands as a statement or as a clause of a `for` begins on a stack where its
first tokens could begin something else (`Opens`).

The faults that are noted on the way are those of the literals and targets of the derivation, and
it is the first one that is kept.
-/

namespace FlatScope.Grammar

open FlatScope.Parser (Operand Stack Frame State Fault reduce step run beginExpr endExpr complete
  closeBlock endSimple)

/-! ## Faults -/

/-- A literal token without a value. -/
def literalFaults (t : Token) : List (Fault × Extent) :=
  match t.terminal with
  | .number =>
    match Token.numberValue t.text with
    | .ok _ => []
    | .error fault => [(.literal fault, t.extent)]
  | .string =>
    match Token.stringValue t.text with
    | .ok _ => []
    | .error fault => [(.literal fault, t.extent)]
  | _ => []

/-- A target that cannot be assigned to. -/
def targetFaults (target : Expr Extent) : List (Fault × Extent) :=
  if Parser.isTarget target then [] else [(.target, target.mark)]

/-- What is wrong with a program, in the order in which the parser meets it. -/
def ProgramTree.faults (p : ProgramTree) : List (Fault × Extent) :=
  p.collect literalFaults targetFaults

abbrev ExprTree.faults {p : Nat} (d : ExprTree p) : List (Fault × Extent) :=
  d.collect literalFaults targetFaults

abbrev Tails.faults {p : Nat} (d : Tails p) : List (Fault × Extent) :=
  d.collect literalFaults targetFaults

abbrev Suffixes.faults (d : Suffixes) : List (Fault × Extent) :=
  d.collect literalFaults targetFaults

abbrev Args.faults (d : Args) : List (Fault × Extent) := d.collect literalFaults targetFaults

abbrev MoreArgs.faults (d : MoreArgs) : List (Fault × Extent) :=
  d.collect literalFaults targetFaults

abbrev AtomTree.faults (d : AtomTree) : List (Fault × Extent) :=
  d.collect literalFaults targetFaults

abbrev BlockTree.faults (d : BlockTree) : List (Fault × Extent) :=
  d.collect literalFaults targetFaults

abbrev StmtTrees.faults (d : StmtTrees) : List (Fault × Extent) :=
  d.collect literalFaults targetFaults

abbrev StmtTree.faults (d : StmtTree) : List (Fault × Extent) :=
  d.collect literalFaults targetFaults

abbrev ClauseTree.faults (d : ClauseTree) : List (Fault × Extent) :=
  d.collect literalFaults targetFaults

abbrev SimpleTree.faults (d : SimpleTree) : List (Fault × Extent) :=
  d.collect literalFaults targetFaults

abbrev MaybeExpr.faults (d : MaybeExpr) : List (Fault × Extent) :=
  d.collect literalFaults targetFaults

abbrev MaybeClause.faults (d : MaybeClause) : List (Fault × Extent) :=
  d.collect literalFaults targetFaults

abbrev MaybeSimple.faults (d : MaybeSimple) : List (Fault × Extent) :=
  d.collect literalFaults targetFaults

abbrev IfTree.faults (d : IfTree) : List (Fault × Extent) := d.collect literalFaults targetFaults

abbrev ElseTree.faults (d : ElseTree) : List (Fault × Extent) :=
  d.collect literalFaults targetFaults

theorem Leaf.no_faults {k : Terminal} (t : Leaf k) (hk : k ≠ .number ∧ k ≠ .string) :
    literalFaults t.1 = [] := by
  obtain ⟨t, rfl⟩ := t
  unfold literalFaults
  split
  · exact absurd ‹_› hk.1
  · exact absurd ‹_› hk.2
  · rfl

/-! ## What the parser builds -/

/-- The levels that the parser goes by are those of the grammar. -/
theorem level_of_mem {p : Nat} {op : BinaryOp} (h : op ∈ operatorsAt p) : op.level = p := by
  have hall : ∀ p < 7, ∀ op ∈ operatorsAt p, op.level = p := by decide
  exact hall p (lt_of_mem_operatorsAt h) op h

theorem Infix.level_eq {p : Nat} (o : Infix p) : o.op.level = p := level_of_mem o.mem

/-- A call of `f`. -/
def callOf (f : Operand) (args : List (Expr Extent)) (opening : Leaf .leftParen)
    (closing : Leaf .rightParen) : Operand :=
  ⟨.call ⟨opening.start, closing.stop⟩ f.expr args, ⟨f.outer.start, closing.stop⟩⟩

/-- An access to `b`. -/
def accessOf (b : Operand) (position : Expr Extent) (opening : Leaf .leftBracket)
    (closing : Leaf .rightBracket) : Operand :=
  ⟨.index ⟨opening.start, closing.stop⟩ b.expr position, ⟨b.outer.start, closing.stop⟩⟩

/-- The operand that is complete with a derivation: its tree, and the extent of its text. -/
def ExprTree.operand {p : Nat} (d : ExprTree p) : Operand := ⟨d.denote, ⟨d.start, d.stop⟩⟩

def AtomTree.operand (a : AtomTree) : Operand := ⟨a.denote, ⟨a.start, a.stop⟩⟩

/-- The operand that further operands of a chain make of the first ones. -/
def Tails.operand {p : Nat} (ts : Tails p) (l : Operand) : Operand :=
  ⟨ts.denote l.expr, ⟨l.outer.start, ts.stop l.outer.stop⟩⟩

/-- The operand that suffixes make of what they follow. -/
def Suffixes.operand (ss : Suffixes) (f : Operand) : Operand :=
  ⟨ss.denote f.expr, ⟨f.outer.start, ss.stop f.outer.stop⟩⟩

@[simp] theorem ExprTree.operand_expr {p : Nat} (d : ExprTree p) : d.operand.expr = d.denote := rfl

@[simp] theorem ExprTree.operand_outer {p : Nat} (d : ExprTree p) :
    d.operand.outer = ⟨d.start, d.stop⟩ := rfl

theorem ExprTree.operand_signed (s : Sign) (e : ExprTree 7) :
    (ExprTree.signed s e).operand = Operand.unary s.token.extent.start s.op e.operand := rfl

theorem Tails.operand_cons {p : Nat} (o : Infix p) (e : ExprTree (p + 1)) (rest : Tails p)
    (l : Operand) : (Tails.cons o e rest).operand l =
      rest.operand (l.binary o.op o.token.1.extent e.operand) := rfl

theorem Suffixes.operand_call (lp : Leaf .leftParen) (args : Args) (rp : Leaf .rightParen)
    (rest : Suffixes) (f : Operand) : (Suffixes.call lp args rp rest).operand f =
      rest.operand (callOf f args.denote lp rp) := rfl

theorem Suffixes.operand_index (lb : Leaf .leftBracket) (i : ExprTree 1) (rb : Leaf .rightBracket)
    (rest : Suffixes) (b : Operand) : (Suffixes.index lb i rb rest).operand b =
      rest.operand (accessOf b i.denote lb rb) := rfl

theorem BlockTree.mark_denote (b : BlockTree) : b.denote.mark = ⟨b.start, b.stop⟩ := by
  cases b; rfl

theorem AtomTree.operand_function (w : Leaf .kwFunction) (lp : Leaf .leftParen)
    (ps : Option Params) (rp : Leaf .rightParen) (b : BlockTree) :
    (AtomTree.function w lp ps rp b).operand =
      .plain (.function ⟨w.start, b.denote.mark.stop⟩ (paramNames ps) b.denote) := by
  rw [b.mark_denote]
  rfl

/-- A loop over the block of a derivation. -/
theorem loopOf_denote (start : Position) (header : Extent → Header Extent) (b : BlockTree) :
    Parser.loopOf start header b.denote =
      .loop ⟨start, b.stop⟩ (header ⟨start, b.stop⟩) b.denote := by
  rw [Parser.loopOf, b.mark_denote]

theorem closeBlock_loopBody (start : Position) (header : Extent → Header Extent) (b : BlockTree)
    (S : Stack) : closeBlock b.denote (.loopBody start header :: S) =
      complete (.loop ⟨start, b.stop⟩ (header ⟨start, b.stop⟩) b.denote) S := by
  rw [closeBlock, loopOf_denote]

theorem IfTree.mark_denote (i : IfTree) : i.denote.mark.stop = i.stop := by
  cases i; rfl

/-- An `if` with the `else` of a derivation, if there is one. -/
theorem build_denote (w : Leaf .kwIf) (c : Expr Extent) (b : BlockTree) (o : ElseTree) :
    Parser.IfHead.build ⟨w.start, c, b.denote⟩ o.denote =
      .branch ⟨w.start, o.stop b.stop⟩ c b.denote o.denote := by
  cases o with
  | none => simp [Parser.IfHead.build, ElseTree.denote, ElseTree.stop, b.mark_denote]
  | block w b' => simp [Parser.IfHead.build, ElseTree.denote, ElseTree.stop, b'.mark_denote]
  | elseIf w i =>
    simp [Parser.IfHead.build, ElseTree.denote, ElseTree.stop, Block.mark, i.mark_denote]

/-- The targets that the parser accepts are those that can be assigned to. -/
theorem isTarget_iff {e : Expr Extent} : Parser.isTarget e ↔ Assignable e := by
  constructor
  · intro h
    cases e with
    | name a n => exact .name a n
    | index a b i => exact .index a b i
    | _ => cases h
  · rintro ⟨⟩ <;> rfl

/-! ## Reading some tokens -/

/-- Reading the tokens leads from one stack to another and meets the given faults. -/
def Takes (S : Stack) (ts : List Token) (fs : List (Fault × Extent)) (U : Stack) : Prop :=
  ∀ f, run ⟨S, f⟩ ts = .ok ⟨U, f.or fs.head?⟩

theorem run_append (s : State) (ts ts' : List Token) :
    run s (ts ++ ts') = run s ts >>= fun s' => run s' ts' := by
  induction ts generalizing s with
  | nil => rfl
  | cons t ts ih =>
    simp only [List.cons_append, run]
    cases step s t with
    | none => rfl
    | some s' => exact ih s'

theorem head?_or {α : Type} (f : Option α) (fs gs : List α) :
    (f.or fs.head?).or gs.head? = f.or (fs ++ gs).head? := by
  rw [List.head?_append, Option.or_assoc]

namespace Takes

variable {S U V : Stack} {ts ts' : List Token} {fs fs' : List (Fault × Extent)}

theorem nil (S : Stack) : Takes S [] [] S := fun f => by simp [run]

theorem append (h : Takes S ts fs U) (h' : Takes U ts' fs' V) :
    Takes S (ts ++ ts') (fs ++ fs') V := by
  intro f
  rw [run_append, h f]
  exact (h' _).trans (by rw [head?_or])

/-- What ends with a token, and what follows. -/
theorem closed {t : Token} (h : Takes S (ts ++ own t) (fs ++ literalFaults t) U)
    (h' : Takes U ts' fs' V) :
    Takes S (ts ++ (own t ++ ts')) (fs ++ (literalFaults t ++ fs')) V := by
  rw [← List.append_assoc, ← List.append_assoc]
  exact h.append h'

/-- A token that meets no fault, and further tokens. -/
theorem cons {k : Terminal} {t : Leaf k} (hk : k ≠ .number ∧ k ≠ .string)
    (hstep : ∀ f, step ⟨S, f⟩ t.1 = some ⟨U, f⟩) (h : Takes U ts fs V) :
    Takes S (own t.1 ++ ts) (literalFaults t.1 ++ fs) V := by
  intro f
  rw [t.no_faults hk]
  simp only [List.cons_append, List.nil_append, run, hstep]
  exact h f

/-- A token that meets no fault. -/
theorem single {k : Terminal} {t : Leaf k} (hk : k ≠ .number ∧ k ≠ .string)
    (hstep : ∀ f, step ⟨S, f⟩ t.1 = some ⟨U, f⟩) :
    Takes S (own t.1) (literalFaults t.1) U := by
  simpa using cons hk hstep (nil U)

end Takes

/-- Reading tokens of which the first one begins an expression. -/
def enter (S : Stack) (f : Option (Fault × Extent)) : List Token → Except Parser.SyntaxError State
  | [] => .ok ⟨S, f⟩
  | t :: ts =>
    match beginExpr ⟨S, f⟩ S t with
    | some s => run s ts
    | none => .error (.unexpected t)

/-- Reading the tokens of an expression leads from one stack to another and meets the given
    faults. -/
def Enters (S : Stack) (ts : List Token) (fs : List (Fault × Extent)) (U : Stack) : Prop :=
  ts ≠ [] ∧ ∀ f, enter S f ts = .ok ⟨U, f.or fs.head?⟩

namespace Enters

variable {S U V : Stack} {ts ts' : List Token} {fs fs' : List (Fault × Extent)}

theorem append (h : Enters S ts fs U) (h' : Takes U ts' fs' V) :
    Enters S (ts ++ ts') (fs ++ fs') V := by
  obtain ⟨hne, h⟩ := h
  refine ⟨by simp [hne], fun f => ?_⟩
  obtain ⟨t, ts, rfl⟩ := List.exists_cons_of_ne_nil hne
  have hf := h f
  simp only [List.cons_append, enter] at hf ⊢
  cases hb : beginExpr ⟨S, f⟩ S t with
  | none => rw [hb] at hf; exact nomatch hf
  | some s =>
    rw [hb] at hf
    simp only [run_append, hf]
    exact (h' _).trans (by rw [head?_or])

theorem cons {k : Terminal} {t : Leaf k} (hk : k ≠ .number ∧ k ≠ .string)
    (hbegin : ∀ f, beginExpr ⟨S, f⟩ S t.1 = some ⟨U, f⟩) (h : Takes U ts fs V) :
    Enters S (own t.1 ++ ts) (literalFaults t.1 ++ fs) V := by
  refine ⟨by simp, fun f => ?_⟩
  rw [t.no_faults hk]
  simp only [List.cons_append, List.nil_append, enter, hbegin]
  exact h f

end Enters

/-! ## What the stack has to be like -/

/-- On the stack no operator is pending that binds as tightly as one of precedence `p`. -/
def Settled (p : Nat) (S : Stack) : Prop := p < 7 → ∀ e q, p ≤ q → reduce q e S = (e, S)

theorem Settled.mono {p q : Nat} {S : Stack} (h : Settled p S) (hpq : p ≤ q) : Settled q S :=
  fun hq e q' hq' => h (Nat.lt_of_le_of_lt hpq hq) e q' (Nat.le_trans hpq hq')

/-- Applying the pending operators that bind at most as tightly as those of precedence `p` leaves
    the same as for the operand `e` above `S`. -/
def Yields (p : Nat) (x : Operand) (T : Stack) (e : Operand) (S : Stack) : Prop :=
  ∀ q, q ≤ p → reduce q x T = reduce q e S

/-- On the stack `Z` the first tokens of an expression are read as if the stack were `S` and an
    expression had to come. -/
def Opens (Z S : Stack) : Prop :=
  ∀ (d : ExprTree 1) (t : Token) (r : List Token) f, t.terminal ≠ .kwOf →
    run ⟨Z, f⟩ (d.tokens ++ t :: r) = enter S f (d.tokens ++ t :: r)

/-- On the stack an expression has to come. -/
def AwaitsExpr (S : Stack) : Prop :=
  ∀ f t, t.terminal.beginsExpr → step ⟨S, f⟩ t = beginExpr ⟨S, f⟩ S t

theorem AwaitsExpr.run_eq {S : Stack} (h : AwaitsExpr S) {ts : List Token} (hts : Begins
    (·.beginsExpr) ts) (f) : run ⟨S, f⟩ ts = enter S f ts := by
  obtain ⟨t, r, rfl, ht⟩ := hts
  have hstep := h f t ht
  cases hb : beginExpr ⟨S, f⟩ S t <;> simp only [run, enter, hstep, hb]

theorem AwaitsExpr.takes {S U : Stack} {p : Nat} {d : ExprTree p} {fs : List (Fault × Extent)}
    (h : AwaitsExpr S) (hd : Enters S d.tokens fs U) : Takes S d.tokens fs U :=
  fun f => (h.run_eq d.begins f).trans (hd.2 f)

/-- The stack awaits a statement in a block or at the top of a program. -/
inductive Among : Stack → Prop
  | block (start : Position) (done : List (Stmt Extent)) (S : Stack) :
    Among (.block start done :: S)
  | program (fs : List (FunctionDef Extent)) (ss : List (Stmt Extent)) (S : Stack) :
    Among (.program fs ss :: S)

/-- The stack is `U`, or is so after any token but `else`. -/
def Settles (S U : Stack) : Prop :=
  S = U ∨ ∃ head rest, S = .ifElse head :: rest ∧ complete (head.build none) rest = some U

/-! ## Single steps -/

section Steps

variable {S T : Stack} {f : Option (Fault × Extent)}

theorem Yields.refl (p : Nat) (e : Operand) (S : Stack) : Yields p e S e S := fun _ _ => rfl

theorem Yields.mono {p q : Nat} {x e : Operand} (h : Yields q x T e S) (hpq : p ≤ q) :
    Yields p x T e S :=
  fun q' hq' => h q' (Nat.le_trans hq' hpq)

/-- A base of an expression: no operator is pending on it. -/
def Base (S : Stack) : Prop := ∀ e q, reduce q e S = (e, S)

theorem Base.settled {p : Nat} (h : Base S) : Settled p S := fun _ e q _ => h e q

/-- The token after an expression ends it. -/
theorem step_end {x e : Operand} {t : Token} (hS : Base S) (hy : Yields 1 x T e S)
    (ht : t.terminal ≠ .leftParen ∧ t.terminal ≠ .leftBracket ∧ ∀ op, t.terminal ≠ .operator op) :
    step ⟨.operand x :: T, f⟩ t = Parser.endExpr ⟨.operand x :: T, f⟩ e S t := by
  have hall : Parser.reduceAll x T = (e, S) := (hy 0 (Nat.zero_le 1)).trans (hS e 0)
  simp only [step, Parser.afterOperand]
  split
  · exact absurd ‹_› ht.1
  · exact absurd ‹_› ht.2.1
  · exact absurd ‹_› (ht.2.2 _)
  · rw [hall]

/-- An operator after an operand of its chain. -/
theorem step_operator {p : Nat} {o : Infix p} {x l : Operand} (hp : p < 7) (hS : Settled p S)
    (hy : Yields p x T l S) :
    step ⟨.operand x :: T, f⟩ o.token.1 = some ⟨.binary l o.op o.token.1.extent :: S, f⟩ := by
  have hred : reduce o.op.level x T = (l, S) := by
    rw [o.level_eq, hy p (Nat.le_refl p), hS hp l p (Nat.le_refl p)]
  simp only [step, Parser.afterOperand, o.token.2, hred, State.withStack]

theorem settled_binary {p : Nat} (l : Operand) (o : Infix p) (place : Extent) :
    Settled (p + 1) (.binary l o.op place :: S) := by
  intro _ e q hq
  rw [reduce, if_neg (by rw [o.level_eq]; omega)]

theorem yields_binary {p : Nat} {l e x : Operand} {o : Infix p} {place : Extent}
    (hy : Yields (p + 1) x T e (.binary l o.op place :: S)) :
    Yields p x T (l.binary o.op place e) S := by
  intro q hq
  rw [hy q (Nat.le_succ_of_le hq), reduce, if_pos (by rw [o.level_eq]; exact hq)]

theorem yields_unary {start : Position} {op : UnaryOp} {e x : Operand}
    (hy : Yields 7 x T e (.unary start op :: S)) :
    Yields 7 x T (Operand.unary start op e) S := by
  intro q hq
  rw [hy q hq, reduce]

end Steps

/-! ## Frames that await an expression -/

/-- A frame on which an expression has to come that no operator is pending on. -/
structure Awaiting (F : Frame) : Prop where
  awaits : ∀ S, AwaitsExpr (F :: S)
  base : ∀ S, Base (F :: S)

namespace Awaiting

theorem paren (start : Position) : Awaiting (.paren start) := ⟨fun _ _ _ _ => rfl, fun _ _ _ => rfl⟩

theorem index (b : Operand) (start : Position) : Awaiting (.index b start) :=
  ⟨fun _ _ _ _ => rfl, fun _ _ _ => rfl⟩

theorem call (g : Operand) (start : Position) (es : List (Expr Extent)) :
    Awaiting (.call g start es) where
  awaits S f t ht := by
    obtain ⟨k, text, place⟩ := t
    cases es <;> cases k <;> first | rfl | exact nomatch ht
  base _ _ _ := rfl

theorem array (start : Position) (es : List (Expr Extent)) : Awaiting (.array start es) where
  awaits S f t ht := by
    obtain ⟨k, text, place⟩ := t
    cases es <;> cases k <;> first | rfl | exact nomatch ht
  base _ _ _ := rfl

theorem assign (target : Operand) : Awaiting (.assign target) :=
  ⟨fun _ _ _ _ => rfl, fun _ _ _ => rfl⟩

theorem declareValue (start : Position) (kind : DeclKind) (name : Token) :
    Awaiting (.declareValue start kind name) :=
  ⟨fun _ _ _ _ => rfl, fun _ _ _ => rfl⟩

theorem returnWord (place : Extent) : Awaiting (.returnWord place) where
  awaits S f t ht := by
    obtain ⟨k, text, place⟩ := t
    cases k <;> first | rfl | exact nomatch ht
  base _ _ _ := rfl

theorem ifOpen (start : Position) : Awaiting (.ifOpen start) :=
  ⟨fun _ _ _ _ => rfl, fun _ _ _ => rfl⟩

theorem whileOpen (start : Position) : Awaiting (.whileOpen start) :=
  ⟨fun _ _ _ _ => rfl, fun _ _ _ => rfl⟩

theorem forOf (start : Position) (kind : Option DeclKind) (name : Token) :
    Awaiting (.forOf start kind name) :=
  ⟨fun _ _ _ _ => rfl, fun _ _ _ => rfl⟩

theorem forCondition (start : Position) (init : Option (Stmt Extent)) :
    Awaiting (.forCondition start init) where
  awaits S f t ht := by
    obtain ⟨k, text, place⟩ := t
    cases k <;> first | rfl | exact nomatch ht
  base _ _ _ := rfl

end Awaiting

theorem awaits_unary (start : Position) (op : UnaryOp) (S : Stack) :
    AwaitsExpr (.unary start op :: S) :=
  fun _ _ _ => rfl

theorem awaits_binary (l : Operand) (op : BinaryOp) (place : Extent) (S : Stack) :
    AwaitsExpr (.binary l op place :: S) :=
  fun _ _ _ => rfl

theorem base_simple (S : Stack) : Base (.simple :: S) := fun _ _ => rfl

/-- The terminals after which nothing of an expression can come. -/
def Closing (k : Terminal) : Prop :=
  (k ≠ .leftParen ∧ k ≠ .leftBracket ∧ ∀ op, k ≠ .operator op) ∧ k ≠ .number ∧ k ≠ .string

/-- The token after an expression, which is complete by it. -/
theorem takes_end {S U T : Stack} {x e : Operand} {k : Terminal} {t : Leaf k} (hk : Closing k)
    (hS : Base S) (hy : Yields 1 x T e S)
    (hend : ∀ s, endExpr s e S t.1 = some (s.withStack U)) :
    Takes (.operand x :: T) (own t.1) (literalFaults t.1) U :=
  .single hk.2 fun f => (step_end hS hy (by rw [t.2]; exact hk.1)).trans (hend _)

/-- A list of expressions in brackets: the frame with the elements that are complete, and the
    operand that the closing token makes of them. -/
structure Listing (F : List (Expr Extent) → Frame) (R : List (Expr Extent) → Operand)
    {k : Terminal} (c : Leaf k) : Prop where
  closing : Closing k
  awaits : ∀ es, Awaiting (F es)
  empty : ∀ S f, step ⟨F [] :: S, f⟩ c.1 = some ⟨.operand (R []) :: S, f⟩
  comma : ∀ es e S s (t : Leaf .comma),
    endExpr s e (F es :: S) t.1 = some (s.withStack (F (e.expr :: es) :: S))
  close : ∀ es e S s,
    endExpr s e (F es :: S) c.1 = some (s.withStack (.operand (R (e.expr :: es).reverse) :: S))

theorem Listing.call (g : Operand) (lp : Leaf .leftParen) (rp : Leaf .rightParen) :
    Listing (.call g lp.start) (callOf g · lp rp) rp where
  closing := by simp [Closing]
  awaits es := .call g lp.start es
  empty S f := by simp [step, rp.2, State.withStack, callOf, Leaf.stop]
  comma es e S s t := by simp [endExpr, t.2]
  close es e S s := by simp [endExpr, rp.2, callOf, Leaf.stop]

theorem Listing.array (lb : Leaf .leftBracket) (rb : Leaf .rightBracket) :
    Listing (.array lb.start) (fun es => .plain (.array ⟨lb.start, rb.stop⟩ es)) rb where
  closing := by simp [Closing]
  awaits es := .array lb.start es
  empty S f := by simp [step, rb.2, State.withStack, Leaf.stop]
  comma es e S s t := by simp [endExpr, t.2]
  close es e S s := by simp [endExpr, rb.2, Leaf.stop]

/-! ## Contexts of statements -/

/-- What a step does with a token depends on the stack only as far as it is given. -/
theorem afterOperand_stack (S U R : Stack) (f) (e : Operand) (t : Token) :
    Parser.afterOperand ⟨S, f⟩ e R t = Parser.afterOperand ⟨U, f⟩ e R t := rfl

theorem Among.step_block {start : Position} {done : List (Stmt Extent)} {S : Stack} {f} {t : Token}
    (ht : t.terminal ≠ .rightBrace) :
    step ⟨.block start done :: S, f⟩ t =
      Parser.beginStmt ⟨.block start done :: S, f⟩ (.block start done :: S) t := by
  obtain ⟨k, text, place⟩ := t
  cases k <;> first | rfl | exact absurd rfl ht

theorem Among.step_program {fs : List (FunctionDef Extent)} {ss : List (Stmt Extent)} {S : Stack}
    {f} {t : Token} (ht : t.terminal ≠ .kwFunction) :
    step ⟨.program fs ss :: S, f⟩ t =
      Parser.beginStmt ⟨.program fs ss :: S, f⟩ (.program fs ss :: S) t := by
  obtain ⟨k, text, place⟩ := t
  cases k <;> first | rfl | exact absurd rfl ht

/-- Among statements a token begins one, unless it is a closing brace or begins a function at the
    top of a program. -/
theorem Among.step_eq {S : Stack} (hS : Among S) {f} {t : Token}
    (ht : t.terminal ≠ .rightBrace ∧ t.terminal ≠ .kwFunction) :
    step ⟨S, f⟩ t = Parser.beginStmt ⟨S, f⟩ S t := by
  cases hS with
  | block => exact Among.step_block ht.1
  | program => exact Among.step_program ht.2

theorem beginStmt_expr {S : Stack} {f} {t : Token} (ht : t.terminal.beginsExpr) :
    Parser.beginStmt ⟨S, f⟩ S t = beginExpr ⟨.simple :: S, f⟩ (.simple :: S) t := by
  obtain ⟨k, text, place⟩ := t
  cases k <;> first | rfl | exact nomatch ht

/-- Tokens that are read as an expression where one may begin. -/
theorem run_enter {S U : Stack} {f} {t : Token}
    (h : step ⟨S, f⟩ t = beginExpr ⟨U, f⟩ U t) (ts : List Token) :
    run ⟨S, f⟩ (t :: ts) = enter U f (t :: ts) := by
  cases hb : beginExpr ⟨U, f⟩ U t <;> simp only [run, enter, h, hb]

theorem Among.opens {S : Stack} (hS : Among S) : Opens S (.simple :: S) := by
  intro d t r f _
  obtain ⟨w, ts, hts, hw⟩ := d.begins.append (r := t :: r)
  rw [hts]
  cases hS with
  | block start done S =>
    exact run_enter ((Among.step_block (by rintro h; simp [h, Terminal.beginsExpr,
      Terminal.beginsAtom] at hw)).trans (beginStmt_expr hw)) ts
  | program fs ss S =>
    by_cases hword : w.terminal = .kwFunction
    · -- the next token tells the expression from a function at the top of the program
      obtain ⟨lp, ts, rfl⟩ := d.after_function (w := ⟨w, hword⟩) hts
      simp [run, enter, step, Parser.amongStatements, Parser.inFunctionHead, beginExpr, hword,
        lp.2, State.withStack]
    · exact run_enter ((Among.step_program hword).trans (beginStmt_expr hw)) ts

/-- After a name that begins a header, everything but `of` continues an expression. -/
theorem step_forName {t : Token} (ht : t.terminal ≠ .kwOf) (start : Position) (w : Token)
    (S : Stack) (f) : step ⟨.forName start w :: S, f⟩ t =
      Parser.afterOperand ⟨.forName start w :: S, f⟩ (.plain (.name w.extent w.text))
        (.simple :: .forOpen start :: S) t := by
  obtain ⟨k, text, place⟩ := t
  cases k <;> first | rfl | exact absurd rfl ht

/-- Where a header begins, what begins an expression is read as one, but for names. -/
theorem step_forOpen {w : Token} (hw : w.terminal.beginsExpr) (hname : w.terminal ≠ .name)
    (start : Position) (S : Stack) (f) : step ⟨.forOpen start :: S, f⟩ w =
      beginExpr ⟨.simple :: .forOpen start :: S, f⟩ (.simple :: .forOpen start :: S) w := by
  obtain ⟨k, text, place⟩ := w
  cases k <;> first | rfl | exact absurd rfl hname | exact nomatch hw

theorem opens_forOpen (start : Position) (S : Stack) :
    Opens (.forOpen start :: S) (.simple :: .forOpen start :: S) := by
  intro d t r f ht
  obtain ⟨w, ts, hts, hw⟩ := d.begins
  rw [hts]
  by_cases hname : w.terminal = .name
  · -- the next token is not the word `of`
    obtain ⟨t', ts', hts'⟩ : ∃ t' ts', ts ++ t :: r = t' :: ts' := by
      cases ts <;> exact ⟨_, _, rfl⟩
    have hof : t'.terminal ≠ .kwOf := by
      intro h
      have := d.of_after (n := ⟨w, hname⟩) (o := ⟨t', h⟩) (r := t :: r) (s := ts')
        (by rw [hts, ← hts']; rfl)
      rw [List.cons.injEq] at this
      exact ht (this.1 ▸ h)
    have h₁ : step ⟨.forOpen start :: S, f⟩ w = some ⟨.forName start w :: S, f⟩ := by
      simp [step, Parser.inForHeader, hname, State.withStack]
    have h₂ : step ⟨.forName start w :: S, f⟩ t' =
        step ⟨.operand (.plain (.name w.extent w.text)) :: .simple :: .forOpen start :: S, f⟩ t' :=
      (step_forName hof start w S f).trans (afterOperand_stack _ _ _ f _ t')
    have hb : beginExpr ⟨.simple :: .forOpen start :: S, f⟩ (.simple :: .forOpen start :: S) w =
        some ⟨.operand (.plain (.name w.extent w.text)) :: .simple :: .forOpen start :: S, f⟩ := by
      simp [beginExpr, hname, State.withStack]
    simp only [List.cons_append, hts', run, enter, h₁, h₂, hb]
  · exact run_enter (step_forOpen hw hname start S f) _

theorem opens_forUpdate (start : Position) (init : Option (Stmt Extent))
    (condition : Option (Expr Extent)) (S : Stack) :
    Opens (.forUpdate start init condition :: S)
      (.simple :: .forUpdate start init condition :: S) := by
  intro d t r f ht
  obtain ⟨w, ts, hts, hw⟩ := d.begins
  rw [hts]
  refine run_enter ?_ _
  obtain ⟨k, text, place⟩ := w
  cases k <;> first | rfl | exact nomatch hw

/-- An expression on a stack where other things may begin as well, and the token after it. -/
theorem Opens.takes {Z S U V : Stack} {d : ExprTree 1} {fs gs : List (Fault × Extent)}
    {ts : List Token} {k : Terminal} {t : Leaf k} (ho : Opens Z S) (hk : k ≠ .kwOf)
    (hd : Enters S d.tokens fs U) (h : Takes U (own t.1 ++ ts) gs V) :
    Takes Z (d.tokens ++ (own t.1 ++ ts)) (fs ++ gs) V :=
  fun f => (ho d t.1 ts f (by rwa [t.2])).trans ((hd.append h).2 f)

/-! ## Statements that may go on -/

namespace Settles

variable {S U : Stack}

theorem step_eq (h : Settles S U) (hS' : Among U) {f} {t : Token} (ht : t.terminal ≠ .kwElse) :
    step ⟨S, f⟩ t = step ⟨U, f⟩ t := by
  rcases h with rfl | ⟨head, rest, rfl, h⟩
  · rfl
  · have h₁ : step ⟨.ifElse head :: rest, f⟩ t =
        Parser.amongStatements ⟨.ifElse head :: rest, f⟩ U t := by
      obtain ⟨k, text, place⟩ := t
      cases k <;> first | exact absurd rfl ht | simp [step, h]
    rw [h₁]
    cases hS' <;> rfl

theorem takes {V S₃ : Stack} {ts : List Token} {fs : List (Fault × Extent)} (h : Settles S U)
    (hS' : Among U) (ht : Takes U ts fs V) (hs : Settles V S₃) (hts : NoElse ts) :
    ∃ S₂, Takes S ts fs S₂ ∧ Settles S₂ S₃ := by
  cases ts with
  | nil =>
    have hnil := ht none
    simp only [run, Option.none_or, Except.ok.injEq, State.mk.injEq] at hnil
    obtain ⟨rfl, hfs⟩ := hnil
    refine ⟨S, fun f => by simp [run, ← hfs], ?_⟩
    rcases hs with rfl | ⟨head, rest, rfl, _⟩
    · exact h
    · exact nomatch hS'
  | cons t r =>
    refine ⟨V, fun f => ?_, hs⟩
    rw [← ht f]
    simp only [run, h.step_eq hS' (hts t rfl)]

end Settles

theorem StmtTrees.noElse_tokens (ss : StmtTrees) : NoElse ss.tokens := by
  cases ss with
  | nil => exact fun t ht => nomatch ht
  | cons s ss => exact s.begins.append.noElse nofun

/-- A token that completes a statement. -/
theorem Takes.complete {S₁ S U : Stack} {s : Stmt Extent} {k : Terminal} {t : Leaf k}
    (hk : k ≠ .number ∧ k ≠ .string)
    (hstep : ∀ f, step ⟨S₁, f⟩ t.1 = State.withStack ⟨S₁, f⟩ <$> Parser.complete s S)
    (h : Parser.complete s S = some U) : Takes S₁ (own t.1) (literalFaults t.1) U :=
  .single hk fun f => by rw [hstep, h]; rfl

theorem endSimple_among {S : Stack} (hS : Among S) {s : Stmt Extent} {sc : Leaf .semicolon} :
    endSimple s S sc.1 = complete s S := by
  cases hS <;> simp [endSimple, sc.2]

theorem closeBlock_among {S : Stack} (hS : Among S) {b : Block Extent} :
    closeBlock b S = complete (.block b) S := by
  cases hS <;> rfl

theorem step_loopHead {start : Position} {header : Extent → Header Extent} {S : Stack}
    (lb : Leaf .leftBrace) (f) : step ⟨.loopHead start header :: S, f⟩ lb.1 =
      some ⟨.block lb.start [] :: .loopBody start header :: S, f⟩ := by
  simp [step, lb.2, State.withStack, Leaf.start]

/-- Where a declaration, an assignment or an expression may begin that a semicolon ends. -/
def BeginsClause (S : Stack) : Prop := Among S ∨ ∃ start rest, S = .forOpen start :: rest

/-- A declaration up to its name: what may come next is its end or its value. -/
theorem exists_declared {S : Stack} (hS : BeginsClause S) (w : DeclWord) (n : Leaf .name) :
    ∃ D, (∀ {ts fs U}, Takes D ts fs U →
        Takes S (own w.token.1 ++ (own n.1 ++ ts))
          (literalFaults w.token.1 ++ (literalFaults n.1 ++ fs)) U) ∧
      (∀ (sc : Leaf .semicolon) f, step ⟨D, f⟩ sc.1 = State.withStack ⟨D, f⟩ <$>
        endSimple (Parser.declarationOf w.token.start w.kind n.1 none) S sc.1) ∧
      ∀ (eq : Leaf .equals) f, step ⟨D, f⟩ eq.1 =
        some ⟨.declareValue w.token.start w.kind n.1 :: S, f⟩ := by
  obtain ⟨kind, t⟩ := w
  have hk : kind.terminal ≠ .number ∧ kind.terminal ≠ .string := by cases kind <;> decide
  rcases hS with hS | ⟨start, rest, rfl⟩
  · refine ⟨.declareName t.start kind n.1 :: S, fun h => .cons
      (U := .declareWord t.start kind :: S) hk (fun f => ?_) (.cons (by simp) (fun f => ?_) h),
      fun sc f => ?_, fun eq f => ?_⟩
    · rw [hS.step_eq (by rw [t.2]; cases kind <;> decide)]
      cases kind <;> simp [Parser.beginStmt, t.2, DeclKind.terminal, State.withStack, Leaf.start]
    · simp [step, n.2, State.withStack]
    · rw [endSimple_among hS]
      simp [step, sc.2]
    · simp [step, eq.2, State.withStack]
  · refine ⟨.forDeclareName start t.start kind n.1 :: rest, fun h => .cons
      (U := .forDeclare start t.start kind :: rest) hk (fun f => ?_)
      (.cons (by simp) (fun f => ?_) h), fun sc f => ?_, fun eq f => ?_⟩
    · cases kind <;>
        simp [step, Parser.inForHeader, t.2, DeclKind.terminal, Parser.declKind?, State.withStack,
          Leaf.start]
    · simp [step, Parser.inForHeader, n.2, State.withStack]
    · simp [step, Parser.inForHeader, sc.2]
    · simp [step, Parser.inForHeader, eq.2, State.withStack]

/-- The header of a loop over a sequence up to the word `of`. -/
theorem takes_forOf (d : Option DeclWord) (n : Leaf .name) (o : Leaf .kwOf) {start : Position}
    {S U : Stack} {ts : List Token} {fs : List (Fault × Extent)}
    (h : Takes (.forOf start (d.map (·.kind)) n.1 :: S) ts fs U) :
    Takes (.forOpen start :: S) (collectWord own d ++ (own n.1 ++ (own o.1 ++ ts)))
      (collectWord literalFaults d ++ (literalFaults n.1 ++ (literalFaults o.1 ++ fs))) U := by
  cases d with
  | none =>
    refine .cons (U := .forName start n.1 :: S) (by simp) (fun f => ?_)
      (.cons (by simp) (fun f => ?_) h)
    · simp [step, Parser.inForHeader, n.2, State.withStack]
    · simp [step, Parser.inForHeader, o.2, State.withStack]
  | some w =>
    refine .cons (U := .forDeclare start w.token.start w.kind :: S)
      (by cases w.kind <;> simp [DeclKind.terminal]) (fun f => ?_)
      (.cons (U := .forDeclareName start w.token.start w.kind n.1 :: S) (by simp) (fun f => ?_)
        (.cons (by simp) (fun f => ?_) h))
    · obtain ⟨kind, t⟩ := w
      cases kind <;>
        simp [step, Parser.inForHeader, t.2, DeclKind.terminal, Parser.declKind?, State.withStack,
          Leaf.start]
    · simp [step, Parser.inForHeader, n.2, State.withStack]
    · simp [step, Parser.inForHeader, o.2, State.withStack]

/-! ## The induction -/

/-- Constants. -/
theorem Constant.enters (c : Constant) (S : Stack) :
    Enters S (own c.token) (literalFaults c.token)
      (.operand (.plain (.literal c.token.extent c.value)) :: S) := by
  refine ⟨by simp, fun f => ?_⟩
  cases c with
  | number t =>
    cases h : Token.numberValue t.1.text <;>
      simp [enter, beginExpr, t.2, Parser.pushLiteral, h, run, literalFaults, Constant.token,
        Constant.value, State.withStack, State.note, Functor.map, Except.map, Except.toOption]
  | string t =>
    cases h : Token.stringValue t.1.text <;>
      simp [enter, beginExpr, t.2, Parser.pushLiteral, h, run, literalFaults, Constant.token,
        Constant.value, State.withStack, State.note, Functor.map, Except.map, Except.toOption]
  | _ t =>
    simp [enter, beginExpr, t.2, Parser.pushLiteral, run, literalFaults, Constant.token,
      Constant.value, State.withStack]

/-- The parameters after the first ones up to the closing parenthesis. -/
theorem Params.takes_rest (ns : List (Leaf .comma × Leaf .name)) (head : Parser.FunctionHead)
    (done : List Name) (rp : Leaf .rightParen) (S : Stack) :
    Takes (.params head done :: S) (ns.flatMap (fun x => own x.1.1 ++ own x.2.1) ++ own rp.1)
      (ns.flatMap (fun x => literalFaults x.1.1 ++ literalFaults x.2.1) ++ literalFaults rp.1)
      (.paramsClosed head ((ns.map (·.2.1.text)).reverse ++ done) :: S) := by
  induction ns generalizing done with
  | nil =>
    exact .single (by simp) fun f => by
      simp [step, Parser.inFunctionHead, rp.2, State.withStack]
  | cons x ns ih =>
    have h : Takes (.params head done :: S)
        (own x.1.1 ++ (own x.2.1 ++ (ns.flatMap (fun x => own x.1.1 ++ own x.2.1) ++ own rp.1)))
        (literalFaults x.1.1 ++ (literalFaults x.2.1 ++
          (ns.flatMap (fun x => literalFaults x.1.1 ++ literalFaults x.2.1) ++
            literalFaults rp.1)))
        (.paramsClosed head ((ns.map (·.2.1.text)).reverse ++ x.2.1.text :: done) :: S) := by
      refine .cons (U := .paramsComma head done :: S) (by simp) (fun f => ?_)
        (.cons (U := .params head (x.2.1.text :: done) :: S) (by simp) (fun f => ?_) (ih _))
      · simp [step, Parser.inFunctionHead, x.1.2, State.withStack]
      · simp [step, Parser.inFunctionHead, x.2.2, State.withStack]
    simpa using h

/-- The parameters of a function up to the closing parenthesis. -/
theorem Params.takes (ps : Option Params) (head : Parser.FunctionHead) (rp : Leaf .rightParen)
    (S : Stack) :
    Takes (.paramsOpen head :: S) (collectParams own ps ++ own rp.1)
      (collectParams literalFaults ps ++ literalFaults rp.1)
      (.paramsClosed head (paramNames ps).reverse :: S) := by
  cases ps with
  | none =>
    exact .single (by simp) fun f => by
      simp [step, Parser.inFunctionHead, rp.2, State.withStack, paramNames]
  | some ps =>
    have h := Takes.cons (S := .paramsOpen head :: S) (t := ps.first) (by simp) (fun f => by
      simp [step, Parser.inFunctionHead, ps.first.2, State.withStack])
      (Params.takes_rest ps.rest head [ps.first.1.text] rp S)
    simpa [collectParams, Params.collect, paramNames, Params.names] using h

mutual

/-- An expression is read up to operators that are pending. -/
theorem ExprTree.enters : ∀ {p : Nat} (d : ExprTree p) (S : Stack), Settled p S →
    ∃ x T, Enters S d.tokens d.faults (.operand x :: T) ∧ Yields p x T d.operand S
  | p, .chain hp first tails, S, hS => by
    obtain ⟨x, T, h, hy⟩ := first.enters S (hS.mono (Nat.le_succ p))
    obtain ⟨x', T', h', hy'⟩ :=
      tails.takes first.operand x T S hp.2 hS (hy.mono (Nat.le_succ p))
    exact ⟨x', T', h.append h', hy'⟩
  | _, .signed s e, S, _ => by
    rw [ExprTree.operand_signed]
    obtain ⟨x, T, h, hy⟩ := e.enters (.unary s.token.extent.start s.op :: S) (by simp [Settled])
    refine ⟨x, T, ?_, yields_unary hy⟩
    have h' := (awaits_unary s.token.extent.start s.op S).takes h
    cases s with
    | bang t => exact .cons (by simp) (fun f => by simp [beginExpr, t.2]; rfl) h'
    | minus t => exact .cons (by simp) (fun f => by simp [beginExpr, t.2]; rfl) h'
  | _, .suffixed a ss, S, _ =>
    ⟨_, S, (a.enters S).append (ss.takes a.operand S), .refl _ _ _⟩
  termination_by structural _ d => d

/-- The rest of a chain whose first operands make `l`. -/
theorem Tails.takes : ∀ {p : Nat} (ts : Tails p) (l x : Operand) (T S : Stack), p < 7 →
    Settled p S → Yields p x T l S →
    ∃ x' T', Takes (.operand x :: T) ts.tokens ts.faults (.operand x' :: T') ∧
      Yields p x' T' (ts.operand l) S
  | _, .nil, l, x, T, S, _, _, hy => ⟨x, T, .nil _, hy⟩
  | p, .cons o e rest, l, x, T, S, hp, hS, hy => by
    rw [Tails.operand_cons]
    obtain ⟨x₁, T₁, h₁, hy₁⟩ :=
      e.enters (.binary l o.op o.token.1.extent :: S) (settled_binary l o o.token.1.extent)
    obtain ⟨x₂, T₂, h₂, hy₂⟩ := rest.takes (l.binary o.op o.token.1.extent e.operand) x₁ T₁ S hp hS
      (yields_binary hy₁)
    refine ⟨x₂, T₂, ?_, hy₂⟩
    exact .cons (by simp) (fun f => step_operator hp hS hy)
      (((awaits_binary l o.op o.token.1.extent S).takes h₁).append h₂)
  termination_by structural _ ts => ts

theorem Suffixes.takes : ∀ (ss : Suffixes) (g : Operand) (S : Stack),
    Takes (.operand g :: S) ss.tokens ss.faults (.operand (ss.operand g) :: S)
  | .nil, g, S => .nil _
  | .call lp args rp rest, g, S => by
    rw [Suffixes.operand_call]
    have h₁ := args.takes (Listing.call g lp rp) S
    have h₂ := rest.takes (callOf g args.denote lp rp) S
    refine .cons (by simp) (fun f => ?_) (h₁.closed h₂)
    simp [step, Parser.afterOperand, lp.2, State.withStack, Leaf.start]
  | .index lb i rb rest, g, S => by
    rw [Suffixes.operand_index]
    have hF := Awaiting.index g lb.start
    obtain ⟨x, T, h, hy⟩ := i.enters (.index g lb.start :: S) (hF.base S).settled
    have h₁ := (hF.awaits S).takes h
    have h₂ : Takes (.operand x :: T) (own rb.1) (literalFaults rb.1) _ :=
      takes_end (U := .operand (accessOf g i.denote lb rb) :: S) (by simp [Closing])
        (hF.base S) hy fun s => by simp [endExpr, rb.2, accessOf, Leaf.stop]
    have h₃ := rest.takes (accessOf g i.denote lb rb) S
    refine .cons (by simp) (fun f => ?_) (h₁.append (h₂.append h₃))
    simp [step, Parser.afterOperand, lb.2, State.withStack, Leaf.start]
  termination_by structural ss => ss

theorem Args.takes : ∀ (es : Args) {F : List (Expr Extent) → Frame}
    {R : List (Expr Extent) → Operand} {k : Terminal} {c : Leaf k}, Listing F R c →
    ∀ S, Takes (F [] :: S) (es.tokens ++ own c.1) (es.faults ++ literalFaults c.1)
      (.operand (R es.denote) :: S)
  | .none, F, R, k, c, h, S => .single h.closing.2 (h.empty S)
  | .some e rest, F, R, k, c, h, S => by
    obtain ⟨x, T, he, hy⟩ := e.enters (F [] :: S) ((h.awaits []).base S).settled
    have h₁ := ((h.awaits []).awaits S).takes he
    simpa [Args.collect, Args.denote] using h₁.append (rest.takes h [] hy)
  termination_by structural es => es

/-- The elements after `e`, which stands after those of `done`. -/
theorem MoreArgs.takes : ∀ (es : MoreArgs) {F : List (Expr Extent) → Frame}
    {R : List (Expr Extent) → Operand} {k : Terminal} {c : Leaf k}, Listing F R c →
    ∀ done {x e : Operand} {T S : Stack}, Yields 1 x T e (F done :: S) →
      Takes (.operand x :: T) (es.tokens ++ own c.1) (es.faults ++ literalFaults c.1)
        (.operand (R ((e.expr :: done).reverse ++ es.denote)) :: S)
  | .nil, F, R, k, c, h, done, x, e, T, S, hy => by
    rw [MoreArgs.denote, List.append_nil]
    exact takes_end h.closing ((h.awaits done).base S) hy (h.close done e S)
  | .cons c' e' rest, F, R, k, c, h, done, x, e, T, S, hy => by
    have h₁ : Takes (.operand x :: T) (own c'.1) (literalFaults c'.1) _ :=
      takes_end (by simp [Closing]) ((h.awaits done).base S) hy (h.comma done e S · c')
    have hF := h.awaits (e.expr :: done)
    obtain ⟨x', T', he, hy'⟩ := e'.enters (F (e.expr :: done) :: S) (hF.base S).settled
    have h₂ := (hF.awaits S).takes he
    have h₃ := rest.takes h (e.expr :: done) hy'
    simpa [MoreArgs.collect, MoreArgs.denote] using h₁.append (h₂.append h₃)
  termination_by structural es => es

theorem AtomTree.enters : ∀ (a : AtomTree) (S : Stack),
    Enters S a.tokens a.faults (.operand a.operand :: S)
  | .constant c, S => c.enters S
  | .name t, S => by
    have h : Enters S (own t.1 ++ []) (literalFaults t.1 ++ [])
        (.operand (AtomTree.name t).operand :: S) :=
      .cons (by simp) (fun f => by simp [beginExpr, t.2, State.withStack]; rfl) (.nil _)
    rwa [List.append_nil, List.append_nil] at h
  | .array lb es rb, S => by
    refine .cons (by simp) (fun f => ?_) (es.takes (Listing.array lb rb) S)
    simp [beginExpr, lb.2, State.withStack, Leaf.start]
  | .function w lp ps rp b, S => by
    have h₁ := Params.takes ps ⟨w.start, none⟩ rp S
    have h₂ := b.takes (Z := .paramsClosed ⟨w.start, none⟩ (paramNames ps).reverse :: S)
      (S := .body ⟨w.start, none⟩ (paramNames ps).reverse :: S)
      (U := .operand (AtomTree.function w lp ps rp b).operand :: S)
      (fun lb f => by simp [step, Parser.inFunctionHead, lb.2, State.withStack, Leaf.start]) (by
        simp [closeBlock, b.mark_denote, AtomTree.operand_function])
    refine .cons (U := .functionWord w.start false :: S) (by simp) (fun f => ?_)
      (.cons (U := .paramsOpen ⟨w.start, none⟩ :: S) (by simp) (fun f => ?_) ?_)
    · simp [beginExpr, w.2, State.withStack, Leaf.start]
    · simp [step, Parser.inFunctionHead, lp.2, State.withStack]
    · exact h₁.closed h₂
  | .paren lp e rp, S => by
    have hF := Awaiting.paren lp.start
    obtain ⟨x, T, h, hy⟩ := e.enters (.paren lp.start :: S) (hF.base S).settled
    have h₁ := (hF.awaits S).takes h
    have h₂ : Takes (.operand x :: T) (own rp.1) (literalFaults rp.1) _ :=
      takes_end (U := .operand (AtomTree.paren lp e rp).operand :: S) (by simp [Closing])
        (hF.base S) hy fun s => by
          simp only [endExpr, rp.2]; rfl
    refine .cons (by simp) (fun f => ?_) (h₁.append h₂)
    simp [beginExpr, lp.2, State.withStack, Leaf.start]
  termination_by structural a => a

/-- A block is read to its end, where it goes into the construct around it. -/
theorem BlockTree.takes : ∀ (b : BlockTree) {Z S U : Stack},
    (∀ (lb : Leaf .leftBrace) f, step ⟨Z, f⟩ lb.1 = some ⟨.block lb.start [] :: S, f⟩) →
    closeBlock b.denote S = some U → Takes Z b.tokens b.faults U
  | .mk lb ss rb, Z, S, U, hopen, hclose => by
    obtain ⟨S₁, h, hs⟩ := ss.takes lb.start [] S
    refine .cons (by simp) (hopen lb) (h.append (.single (by simp) fun f => ?_))
    rw [BlockTree.denote] at hclose
    rw [hs.step_eq (.block _ _ _) (by rw [rb.2]; nofun)]
    simp only [step, Parser.amongStatements, rb.2, List.append_nil, List.reverse_reverse]
    exact congrArg (State.withStack _ <$> ·) hclose
  termination_by structural b => b

theorem StmtTrees.takes : ∀ (ss : StmtTrees) (start : Position) (done : List (Stmt Extent))
    (S : Stack), ∃ U, Takes (.block start done :: S) ss.tokens ss.faults U ∧
      Settles U (.block start (ss.denote.reverse ++ done) :: S)
  | .nil, start, done, S => ⟨_, .nil _, .inl rfl⟩
  | .cons s ss, start, done, S => by
    obtain ⟨S₁, h₁, hs₁⟩ := s.takes (.block start done S) rfl
    obtain ⟨S₂, h₂, hs₂⟩ := ss.takes start (s.denote :: done) S
    obtain ⟨S₃, h₃, hs₃⟩ := hs₁.takes (.block _ _ _) h₂ hs₂ ss.noElse_tokens
    refine ⟨S₃, h₁.append h₃, ?_⟩
    simpa [StmtTrees.denote] using hs₃
  termination_by structural ss => ss

/-- A statement is read, up to an `if` that may go on. -/
theorem StmtTree.takes : ∀ (s : StmtTree) {S U : Stack}, Among S →
    complete s.denote S = some U → ∃ S₁, Takes S s.tokens s.faults S₁ ∧ Settles S₁ U
  | .clause c sc, S, U, hS, h =>
    ⟨U, c.takes (.inl hS) ((endSimple_among hS).trans h), .inl rfl⟩
  | .ret w .none sc, S, U, hS, h => by
    refine ⟨U, .cons (U := .returnWord w.1.extent :: S) (by simp) (fun f => ?_)
      (.complete (by simp) (fun f => ?_) h), .inl rfl⟩
    · rw [hS.step_eq (by simp [w.2])]
      simp [Parser.beginStmt, w.2, State.withStack]
    · simp [step, sc.2, StmtTree.denote]
  | .ret w (.some e) sc, S, U, hS, h => by
    have hF := Awaiting.returnWord w.1.extent
    obtain ⟨x, T, he, hy⟩ := e.enters (.returnWord w.1.extent :: S) (hF.base S).settled
    have h₁ := (hF.awaits S).takes he
    refine ⟨U, .cons (U := .returnWord w.1.extent :: S) (by simp) (fun f => ?_)
      (h₁.append (takes_end (by simp [Closing]) (hF.base S) hy fun s => ?_)), .inl rfl⟩
    · rw [hS.step_eq (by simp [w.2])]
      simp [Parser.beginStmt, w.2, State.withStack]
    · simp only [endExpr, sc.2]
      exact congrArg (State.withStack _ <$> ·) h
  | .brk w sc, S, U, hS, h => by
    refine ⟨U, .cons (U := .jump (.brk w.1.extent) :: S) (by simp) (fun f => ?_)
      (.complete (by simp) (fun f => ?_) h), .inl rfl⟩
    · rw [hS.step_eq (by simp [w.2])]
      simp [Parser.beginStmt, w.2, State.withStack]
    · simp [step, sc.2, StmtTree.denote]
  | .cont w sc, S, U, hS, h => by
    refine ⟨U, .cons (U := .jump (.cont w.1.extent) :: S) (by simp) (fun f => ?_)
      (.complete (by simp) (fun f => ?_) h), .inl rfl⟩
    · rw [hS.step_eq (by simp [w.2])]
      simp [Parser.beginStmt, w.2, State.withStack]
    · simp [step, sc.2, StmtTree.denote]
  | .branch i, S, U, hS, h => by
    refine i.takes (fun w f => ?_) h
    rw [hS.step_eq (by simp [w.2])]
    simp [Parser.beginStmt, w.2, State.withStack, Leaf.start]
  | .whileLoop w lp c rp b, S, U, hS, h => by
    have hF := Awaiting.whileOpen w.start
    obtain ⟨x, T, hc, hy⟩ := c.enters (.whileOpen w.start :: S) (hF.base S).settled
    have h₁ := (hF.awaits S).takes hc
    have h₂ : Takes (.operand x :: T) (own rp.1) (literalFaults rp.1) _ :=
      takes_end (U := .loopHead w.start (fun _ => .whileTrue c.denote.mark c.denote) :: S)
        (by simp [Closing]) (hF.base S) hy fun s => by simp [endExpr, rp.2]
    refine ⟨U, .cons (U := .whileWord w.start :: S) (by simp) (fun f => ?_)
      (.cons (U := .whileOpen w.start :: S) (by simp) (fun f => ?_)
        (h₁.append (h₂.append (b.takes step_loopHead ((closeBlock_loopBody _ _ b S).trans h))))),
        .inl rfl⟩
    · rw [hS.step_eq (by simp [w.2])]
      simp [Parser.beginStmt, w.2, State.withStack, Leaf.start]
    · simp [step, lp.2, State.withStack]
  | .forLoop w lp i sc c sc₂ u rp b, S, U, hS, h => by
    have h₁ := i.takes w.start sc S
    have h₂ := c.takes w.start i.denote sc₂ S
    have h₃ := u.takes w.start i.denote c.denote rp S
    refine ⟨U, .cons (U := .forWord w.start :: S) (by simp) (fun f => ?_)
      (.cons (U := .forOpen w.start :: S) (by simp) (fun f => ?_)
        (h₁.closed (h₂.closed
        (h₃.closed (b.takes step_loopHead ((closeBlock_loopBody _ _ b S).trans h)))))), .inl rfl⟩
    · rw [hS.step_eq (by simp [w.2])]
      simp [Parser.beginStmt, w.2, State.withStack, Leaf.start]
    · simp [step, lp.2, State.withStack]
  | .forOf w lp d n o e rp b, S, U, hS, h => by
    have hF := Awaiting.forOf w.start (d.map (·.kind)) n.1
    obtain ⟨x, T, he, hy⟩ := e.enters (.forOf w.start (d.map (·.kind)) n.1 :: S) (hF.base S).settled
    have h₁ := (hF.awaits S).takes he
    have h₂ : Takes (.operand x :: T) (own rp.1) (literalFaults rp.1) _ :=
      takes_end (U := .loopHead w.start
          (fun _ => .forOf n.1.extent n.1.text (d.map (·.kind)) e.denote) :: S)
        (by simp [Closing]) (hF.base S) hy fun s => by simp [endExpr, rp.2]
    refine ⟨U, .cons (U := .forWord w.start :: S) (by simp) (fun f => ?_)
      (.cons (U := .forOpen w.start :: S) (by simp) (fun f => ?_)
        (takes_forOf d n o (h₁.append
        (h₂.append (b.takes step_loopHead ((closeBlock_loopBody _ _ b S).trans h)))))), .inl rfl⟩
    · rw [hS.step_eq (by simp [w.2])]
      simp [Parser.beginStmt, w.2, State.withStack, Leaf.start]
    · simp [step, lp.2, State.withStack]
  | .block b, S, U, hS, h => by
    refine ⟨U, b.takes (S := S) (fun lb f => ?_) ((closeBlock_among hS).trans h), .inl rfl⟩
    rw [hS.step_eq (by simp [lb.2])]
    simp [Parser.beginStmt, lb.2, State.withStack, Leaf.start]
  termination_by structural s => s

/-- A clause with the token after it, among statements or as the first clause of a `for`. -/
theorem ClauseTree.takes : ∀ (c : ClauseTree) {S U : Stack} {sc : Leaf .semicolon},
    BeginsClause S → endSimple c.denote S sc.1 = some U →
    Takes S (c.tokens ++ own sc.1) (c.faults ++ literalFaults sc.1) U
  | .declaration w n, S, U, sc, hS, h => by
    obtain ⟨D, hD, hend, _⟩ := exists_declared hS w n
    have h₁ : Takes D (own sc.1) (literalFaults sc.1) U := .single (by simp) fun f => by
      rw [hend]
      exact congrArg (State.withStack _ <$> ·) h
    simpa [ClauseTree.collect] using hD h₁
  | .initialized w n eq e, S, U, sc, hS, h => by
    obtain ⟨D, hD, _, hvalue⟩ := exists_declared hS w n
    have hF := Awaiting.declareValue w.token.start w.kind n.1
    obtain ⟨x, T, he, hy⟩ :=
      e.enters (.declareValue w.token.start w.kind n.1 :: S) (hF.base S).settled
    have h₁ := (hF.awaits S).takes he
    have h₂ : Takes (.operand x :: T) (own sc.1) (literalFaults sc.1) U :=
      takes_end (by simp [Closing]) (hF.base S) hy fun s => by
        simp only [endExpr]
        exact congrArg (s.withStack <$> ·) h
    simpa [ClauseTree.collect] using hD (.cons (by simp) (hvalue eq) (h₁.append h₂))
  | .simple s, S, U, sc, hS, h => by
    refine s.takes ?_ (.inl rfl) h
    rcases hS with hS | ⟨start, rest, rfl⟩
    · exact hS.opens
    · exact opens_forOpen start rest
  termination_by structural c => c

/-- A simple statement or clause with the token after it. -/
theorem SimpleTree.takes : ∀ (s : SimpleTree) {Z S U : Stack} {k : Terminal} {t : Leaf k},
    Opens Z (.simple :: S) → (k = .semicolon ∨ k = .rightParen) →
    endSimple s.denote S t.1 = some U →
    Takes Z (s.tokens ++ own t.1) (s.faults ++ literalFaults t.1) U
  | .assignment tgt eq v, Z, S, U, k, t, ho, hk, h => by
    obtain ⟨x, T, ht, hy⟩ := tgt.enters (.simple :: S) (base_simple S).settled
    have h₁ : Takes (.operand x :: T) (own eq.1) (literalFaults eq.1) _ :=
      takes_end (U := .assign tgt.operand :: S) (by simp [Closing]) (base_simple S) hy fun s => by
        simp [endExpr, eq.2]
    have hF := Awaiting.assign tgt.operand
    obtain ⟨x', T', hv, hy'⟩ := v.enters (.assign tgt.operand :: S) (hF.base S).settled
    have h₂ := (hF.awaits S).takes hv
    have h₃ : Takes (.operand x' :: T') (own t.1)
        (targetFaults tgt.denote ++ literalFaults t.1) U := by
      intro f
      have hstep := (step_end (f := f) (t := t.1) (hF.base S) hy'
        (by rw [t.2]; rcases hk with rfl | rfl <;> simp)).trans
        (show _ = Parser.endAssignment ⟨.operand x' :: T', f⟩ tgt.operand v.operand S t.1 by
          simp only [endExpr])
      rw [SimpleTree.denote] at h
      simp only [Parser.endAssignment, ExprTree.operand_expr, ExprTree.operand_outer, h] at hstep
      rw [t.no_faults (by rcases hk with rfl | rfl <;> simp), List.append_nil]
      simp only [run, hstep, targetFaults]
      by_cases htgt : Parser.isTarget tgt.denote
      · simp [htgt, State.withStack]
      · simp [htgt, State.withStack, State.note]
    have h₄ := ho.takes (by simp) ht (h₁.append (h₂.append h₃))
    simpa [SimpleTree.collect] using h₄
  | .expression e, Z, S, U, k, t, ho, hk, h => by
    obtain ⟨x, T, he, hy⟩ := e.enters (.simple :: S) (base_simple S).settled
    have h₁ : Takes (.operand x :: T) (own t.1) (literalFaults t.1) U :=
      takes_end (by rcases hk with rfl | rfl <;> simp [Closing]) (base_simple S) hy fun s => by
        have h' : endExpr s e.operand (.simple :: S) t.1 = s.withStack <$>
            endSimple (.expression ⟨e.start, e.stop⟩ e.denote) S t.1 := by
          rcases hk with rfl | rfl <;> simp [endExpr, t.2]
        rw [h']
        exact congrArg (s.withStack <$> ·) h
    have h₂ := ho.takes (by rcases hk with rfl | rfl <;> simp) he (h₁.append (.nil U))
    simpa [SimpleTree.collect] using h₂
  termination_by structural s => s

theorem MaybeClause.takes : ∀ (i : MaybeClause) (start : Position) (sc : Leaf .semicolon)
    (S : Stack),
    Takes (.forOpen start :: S) (i.tokens ++ own sc.1) (i.faults ++ literalFaults sc.1)
      (.forCondition start i.denote :: S)
  | .none, start, sc, S =>
    .single (by simp) fun f => by simp [step, Parser.inForHeader, sc.2, State.withStack,
      MaybeClause.denote]
  | .some c, start, sc, S =>
    c.takes (.inr ⟨start, S, rfl⟩) (by simp [endSimple, sc.2, MaybeClause.denote])
  termination_by structural i => i

theorem MaybeExpr.takes : ∀ (c : MaybeExpr) (start : Position) (init : Option (Stmt Extent))
    (sc : Leaf .semicolon) (S : Stack),
    Takes (.forCondition start init :: S) (c.tokens ++ own sc.1) (c.faults ++ literalFaults sc.1)
      (.forUpdate start init c.denote :: S)
  | .none, start, init, sc, S =>
    .single (by simp) fun f => by simp [step, Parser.inForHeader, sc.2, State.withStack,
      MaybeExpr.denote]
  | .some e, start, init, sc, S => by
    have hF := Awaiting.forCondition start init
    obtain ⟨x, T, he, hy⟩ := e.enters (.forCondition start init :: S) (hF.base S).settled
    refine ((hF.awaits S).takes he).append
      (takes_end (by simp [Closing]) (hF.base S) hy fun s => ?_)
    simp [endExpr, sc.2, MaybeExpr.denote]
  termination_by structural c => c

theorem MaybeSimple.takes : ∀ (u : MaybeSimple) (start : Position) (init : Option (Stmt Extent))
    (condition : Option (Expr Extent)) (rp : Leaf .rightParen) (S : Stack),
    Takes (.forUpdate start init condition :: S) (u.tokens ++ own rp.1)
      (u.faults ++ literalFaults rp.1)
      (.loopHead start (.counting · init condition u.denote) :: S)
  | .none, start, init, condition, rp, S =>
    .single (by simp) fun f => by simp [step, Parser.inForHeader, rp.2, State.withStack,
      MaybeSimple.denote]
  | .some s, start, init, condition, rp, S =>
    s.takes (opens_forUpdate start init condition S) (.inr rfl)
      (by simp [endSimple, rp.2, MaybeSimple.denote])
  termination_by structural u => u

/-- An `if`, which may begin a statement or follow an `else`. -/
theorem IfTree.takes : ∀ (i : IfTree) {Z S U : Stack},
    (∀ (w : Leaf .kwIf) f, step ⟨Z, f⟩ w.1 = some ⟨.ifWord w.start :: S, f⟩) →
    complete i.denote S = some U → ∃ S₁, Takes Z i.tokens i.faults S₁ ∧ Settles S₁ U
  | .mk w lp c rp b o, Z, S, U, hword, h => by
    have hF := Awaiting.ifOpen w.start
    obtain ⟨x, T, hc, hy⟩ := c.enters (.ifOpen w.start :: S) (hF.base S).settled
    have h₁ := (hF.awaits S).takes hc
    have h₂ : Takes (.operand x :: T) (own rp.1) (literalFaults rp.1) _ :=
      takes_end (U := .ifCondition w.start c.denote :: S) (by simp [Closing])
        (hF.base S) hy fun s => by simp [endExpr, rp.2]
    have h₃ := b.takes (Z := .ifCondition w.start c.denote :: S)
      (S := .ifThen w.start c.denote :: S)
      (U := .ifElse ⟨w.start, c.denote, b.denote⟩ :: S)
      (fun lb f => by simp [step, lb.2, State.withStack, Leaf.start]) rfl
    rw [IfTree.denote, ← build_denote] at h
    obtain ⟨S₁, h₄, hs⟩ := o.takes ⟨w.start, c.denote, b.denote⟩ h
    refine ⟨S₁, .cons (by simp) (hword w) (.cons (by simp) (fun f => ?_)
      (h₁.append (h₂.append (h₃.append h₄)))), hs⟩
    simp [step, lp.2, State.withStack]
  termination_by structural i => i

theorem ElseTree.takes : ∀ (o : ElseTree) (head : Parser.IfHead) {S U : Stack},
    complete (head.build o.denote) S = some U →
    ∃ S₁, Takes (.ifElse head :: S) o.tokens o.faults S₁ ∧ Settles S₁ U
  | .none, head, S, U, h => ⟨_, .nil _, .inr ⟨head, S, rfl, h⟩⟩
  | .block w b, head, S, U, h => by
    refine ⟨U, .cons (U := .elseWord head :: S) (by simp) (fun f => ?_)
      (b.takes (S := .elseBlock head :: S) (fun lb f => ?_) h), .inl rfl⟩
    · simp [step, w.2, State.withStack]
    · simp [step, lb.2, State.withStack, Leaf.start]
  | .elseIf w i, head, S, U, h => by
    obtain ⟨S₁, h₁, hs⟩ := i.takes (Z := .elseWord head :: S) (S := .elseIf head :: S) (U := U)
      (fun w f => by simp [step, w.2, State.withStack, Leaf.start]) h
    refine ⟨S₁, .cons (by simp) (fun f => ?_) h₁, hs⟩
    simp [step, w.2, State.withStack]
  termination_by structural o => o

end

/-! ## Programs -/

theorem FunctionTree.takes (f : FunctionTree) (fs : List (FunctionDef Extent))
    (ss : List (Stmt Extent)) (S : Stack) :
    Takes (.program fs ss :: S) (f.collect own ignored) (f.collect literalFaults targetFaults)
      (.program (f.denote :: fs) ss :: S) := by
  have h₁ := Params.takes f.params ⟨f.word.start, some f.name.1.text⟩ f.closing
    (.program fs ss :: S)
  have h₂ := f.body.takes
    (Z := .paramsClosed ⟨f.word.start, some f.name.1.text⟩ (paramNames f.params).reverse ::
      .program fs ss :: S)
    (S := .body ⟨f.word.start, some f.name.1.text⟩ (paramNames f.params).reverse ::
      .program fs ss :: S)
    (U := .program (f.denote :: fs) ss :: S)
    (fun lb g => by simp [step, Parser.inFunctionHead, lb.2, State.withStack, Leaf.start])
    (by simp [closeBlock, FunctionTree.denote, BlockTree.mark_denote])
  refine .cons (U := .functionWord f.word.start true :: .program fs ss :: S) (by simp)
    (fun g => ?_) (.cons (U := .functionName ⟨f.word.start, some f.name.1.text⟩ ::
      .program fs ss :: S) (by simp) (fun g => ?_) (.cons (by simp) (fun g => ?_) (h₁.closed h₂)))
  · simp [step, Parser.amongStatements, f.word.2, State.withStack, Leaf.start]
  · simp [step, Parser.inFunctionHead, f.name.2, State.withStack]
  · simp [step, Parser.inFunctionHead, f.opening.2, State.withStack]

/-- A program is read, up to an `if` at its end that may go on. -/
theorem ProgramTree.takes (p : ProgramTree) (fs : List (FunctionDef Extent))
    (ss : List (Stmt Extent)) :
    ∃ U, Takes [.program fs ss] p.tokens p.faults U ∧
      Settles U [.program (p.denote.functions.reverse ++ fs)
      (p.denote.statements.reverse ++ ss)] := by
  induction p generalizing fs ss with
  | nil => exact ⟨_, .nil _, .inl rfl⟩
  | cons i p ih =>
    cases i with
    | function f =>
      obtain ⟨U, h, hs⟩ := ih (f.denote :: fs) ss
      refine ⟨U, (f.takes fs ss []).append h, ?_⟩
      simpa [ProgramTree.denote, Item.function?, Item.stmt?, List.filterMap_cons] using hs
    | stmt s =>
      obtain ⟨S₁, h₁, hs₁⟩ := s.takes (.program fs ss []) rfl
      obtain ⟨S₂, h₂, hs₂⟩ := ih fs (s.denote :: ss)
      obtain ⟨S₃, h₃, hs₃⟩ := hs₁.takes (.program _ _ _) h₂ hs₂ (ProgramTree.noElse p)
      refine ⟨S₃, h₁.append h₃, ?_⟩
      simpa [ProgramTree.denote, Item.function?, Item.stmt?, List.filterMap_cons] using hs₃

theorem Settles.finish_eq {S : Stack} {fs : List (FunctionDef Extent)} {ss : List (Stmt Extent)}
    {f} (h : Settles S [.program fs ss]) :
    Parser.finish ⟨S, f⟩ = some ⟨fs.reverse, ss.reverse⟩ := by
  rcases h with rfl | ⟨head, rest, rfl, h⟩
  · rfl
  · simp [Parser.finish, h]

/-- The tokens of a derivation are read to the end; the program is the one that the derivation
    denotes, unless a fault is found. -/
theorem ProgramTree.parseTokens_eq (p : ProgramTree) :
    Parser.parseTokens p.tokens .finished =
      match p.faults.head? with
      | none => .ok p.denote
      | some (fault, place) => .error (.fault fault place) := by
  obtain ⟨S, h, hs⟩ := p.takes [] []
  have hrun : run .initial p.tokens = .ok ⟨S, p.faults.head?⟩ := by
    rw [State.initial, h none, Option.none_or]
  rw [List.append_nil, List.append_nil] at hs
  unfold Parser.parseTokens
  rw [hrun]
  simp only [bind, Except.bind, hs.finish_eq, List.reverse_reverse]
  cases p.faults.head? <;> rfl

end FlatScope.Grammar
