import FlatScope.Proofs.Grammar.Derivation

/-!
# Derivations are unique

Two derivations with the same tokens are the same derivation. Read from left to right, the first
token of a construct decides between the forms that it can have, and the token after it decides
where it ends: what may follow an expression of a level (`Ends`) is neither a suffix nor an operator
of that level or above it, after an `if` without `else` no `else` can follow. The only place that
needs more than one token is the header of a `for`, where a name may be the variable of a loop over
a sequence or begin an expression.

The statement that is proved by induction is that of a deterministic parser: of two sources that
begin with a derivation of the same rule, each followed by a token that may follow it, both
derivations are the same, and so is what follows.
-/

namespace FlatScope

namespace Terminal

/-- The terminals that an expression without an operator in front begins with. -/
def beginsAtom : Terminal → Bool
  | .number | .string | .kwTrue | .kwFalse | .kwUndefined | .name | .leftBracket | .kwFunction
  | .leftParen => true
  | _ => false

/-- The terminals that an expression begins with. -/
def beginsExpr : Terminal → Bool
  | .bang | .operator .sub => true
  | k => k.beginsAtom

/-- The terminals that a declaration, an assignment or an expression begins with. -/
def beginsClause : Terminal → Bool
  | .kwVar | .kwLet | .kwConst => true
  | k => k.beginsExpr

/-- The terminals that a statement begins with, where all those of declarations, assignments and
    expressions count as one; no statement begins with a terminal for which there is none. -/
def leads (k : Terminal) : Option Terminal :=
  if k.beginsClause then some .name
  else match k with
    | .kwReturn | .kwBreak | .kwContinue | .kwIf | .kwWhile | .kwFor | .leftBrace => some k
    | _ => none

end Terminal

namespace Grammar

/-! ## The tokens of the parts of a program -/

section Tokens

/-- The contribution of a token to the tokens. -/
abbrev own (t : Token) : List Token := [t]

/-- The contribution of a target to the tokens. -/
abbrev ignored (_ : Expr Extent) : List Token := []

/-- The tokens of an expression. -/
abbrev ExprTree.tokens {p : Nat} (e : ExprTree p) : List Token := e.collect own ignored

/-- The tokens of operators with their right operands. -/
abbrev Tails.tokens {p : Nat} (ts : Tails p) : List Token := ts.collect own ignored

/-- The tokens of calls and elements behind an expression. -/
abbrev Suffixes.tokens (ss : Suffixes) : List Token := ss.collect own ignored

/-- The tokens of arguments. -/
abbrev Args.tokens (es : Args) : List Token := es.collect own ignored

/-- The tokens of the arguments behind the first one. -/
abbrev MoreArgs.tokens (es : MoreArgs) : List Token := es.collect own ignored

/-- The tokens of an operand. -/
abbrev AtomTree.tokens (a : AtomTree) : List Token := a.collect own ignored

/-- The tokens of a block. -/
abbrev BlockTree.tokens (b : BlockTree) : List Token := b.collect own ignored

/-- The tokens of statements. -/
abbrev StmtTrees.tokens (ss : StmtTrees) : List Token := ss.collect own ignored

/-- The tokens of a statement. -/
abbrev StmtTree.tokens (s : StmtTree) : List Token := s.collect own ignored

/-- The tokens of what may stand in the first clause of a `for`. -/
abbrev ClauseTree.tokens (c : ClauseTree) : List Token := c.collect own ignored

/-- The tokens of an assignment or expression. -/
abbrev SimpleTree.tokens (s : SimpleTree) : List Token := s.collect own ignored

/-- The tokens of an expression that may be missing. -/
abbrev MaybeExpr.tokens (e : MaybeExpr) : List Token := e.collect own ignored

/-- The tokens of a first clause that may be missing. -/
abbrev MaybeClause.tokens (c : MaybeClause) : List Token := c.collect own ignored

/-- The tokens of a last clause that may be missing. -/
abbrev MaybeSimple.tokens (s : MaybeSimple) : List Token := s.collect own ignored

/-- The tokens of an `if`. -/
abbrev IfTree.tokens (i : IfTree) : List Token := i.collect own ignored

/-- The tokens of an `else` that may be missing. -/
abbrev ElseTree.tokens (o : ElseTree) : List Token := o.collect own ignored

end Tokens

/-! ## First tokens -/

/-- A source begins with a token whose terminal is among those given. -/
def Begins (among : Terminal → Prop) (ts : List Token) : Prop :=
  ∃ t r, ts = t :: r ∧ among t.terminal

namespace Begins

variable {A B : Terminal → Prop} {ts r : List Token}

/-- What comes behind does not change how tokens begin. -/
theorem append (h : Begins A ts) : Begins A (ts ++ r) := by
  obtain ⟨t, r', rfl, ht⟩ := h
  exact ⟨t, r' ++ r, rfl, ht⟩

/-- Tokens that begin by one of some terminals begin by one of more. -/
theorem mono (h : Begins A ts) (le : ∀ k, A k → B k) : Begins B ts := by
  obtain ⟨t, r', rfl, ht⟩ := h
  exact ⟨t, r', rfl, le _ ht⟩

/-- A token of a terminal begins what comes behind it. -/
theorem cons {k : Terminal} (t : Leaf k) (h : A k) : Begins A (t.1 :: ts) :=
  ⟨t.1, ts, rfl, by rwa [t.2]⟩

/-- Two sets of terminals that a source begins with have one in common. -/
theorem meet (h : Begins A ts) (h' : Begins B ts) : ∃ k, A k ∧ B k := by
  obtain ⟨t, r, rfl, ht⟩ := h
  obtain ⟨t', r', heq, ht'⟩ := h'
  rw [List.cons.injEq] at heq
  exact ⟨t.terminal, ht, heq.1 ▸ ht'⟩

end Begins

/-- A constant begins an operand. -/
theorem Constant.begins (c : Constant) (r : List Token) :
    Begins (·.beginsAtom) (c.token :: r) := by
  cases c with
  | _ t => exact .cons t rfl

/-- A sign begins no operand. -/
theorem Sign.begins (s : Sign) (r : List Token) :
    Begins (fun k => k.beginsAtom = false) (s.token :: r) := by
  cases s with
  | _ t => exact .cons t rfl

/-- An operand begins as operands do. -/
theorem AtomTree.begins (a : AtomTree) : Begins (·.beginsAtom) a.tokens := by
  cases a with
  | constant c => exact c.begins _
  | _ t => exact .cons t rfl

/-- An expression begins as expressions do. -/
theorem ExprTree.begins {p : Nat} : (d : ExprTree p) → Begins (·.beginsExpr) d.tokens
  | .chain _ first _ => first.begins.append
  | .signed (.bang t) _ => .cons t rfl
  | .signed (.minus t) _ => .cons t rfl
  | .suffixed a _ => a.begins.append.mono fun k h => by cases k <;> simp_all [Terminal.beginsExpr,
      Terminal.beginsAtom]

/-- An assignment or expression begins as expressions do. -/
theorem SimpleTree.begins (s : SimpleTree) : Begins (·.beginsExpr) s.tokens := by
  cases s with
  | assignment t _ _ => exact t.begins.append
  | expression e => exact e.begins

/-- A first clause begins by a word for declarations or as expressions do. -/
theorem ClauseTree.begins (c : ClauseTree) : Begins (·.beginsClause) c.tokens := by
  cases c with
  | declaration w n => exact .cons w.token (by cases w.kind <;> rfl)
  | initialized w n _ e => exact .cons w.token (by cases w.kind <;> rfl)
  | simple s => exact s.begins.mono fun k h => by cases k <;> simp_all [Terminal.beginsClause]

/-- What the first token of a statement says about it. -/
def StmtTree.lead : StmtTree → Terminal
  | .clause _ _ => .name
  | .ret _ _ _ => .kwReturn
  | .brk _ _ => .kwBreak
  | .cont _ _ => .kwContinue
  | .branch _ => .kwIf
  | .whileLoop .. => .kwWhile
  | .forLoop .. => .kwFor
  | .forOf .. => .kwFor
  | .block _ => .leftBrace

/-- The first token of a statement tells its form. -/
theorem StmtTree.begins (s : StmtTree) : Begins (fun k => k.leads = some s.lead) s.tokens := by
  cases s with
  | clause c sc =>
    exact c.begins.append.mono fun k h => by simp [Terminal.leads, h, StmtTree.lead]
  | branch i => cases i with | mk w => exact .cons w rfl
  | block b => cases b with | mk lb => exact .cons lb rfl
  | _ w => exact .cons w rfl

/-! ## Last tokens -/

/-- There are seven levels of operators. -/
theorem lt_of_mem_operatorsAt {p : Nat} {op : BinaryOp} (h : op ∈ operatorsAt p) : p < 7 := by
  refine Nat.lt_of_not_le fun hp => ?_
  obtain ⟨q, rfl⟩ := Nat.exists_eq_add_of_le' hp
  cases h

/-- An operator is of one level only. -/
theorem eq_of_mem_operatorsAt {p q : Nat} {op : BinaryOp} (h : op ∈ operatorsAt p)
    (h' : op ∈ operatorsAt q) : p = q := by
  have hall : ∀ p < 7, ∀ q < 7, ∀ op ∈ operatorsAt p, op ∈ operatorsAt q → p = q := by decide
  exact hall p (lt_of_mem_operatorsAt h) q (lt_of_mem_operatorsAt h') op h h'

/-- What may follow an expression of a level: neither a suffix nor an operator of that level or
    above. -/
def Ends (p : Nat) (r : List Token) : Prop :=
  ∀ t ∈ r.head?, t.terminal ≠ .leftParen ∧ t.terminal ≠ .leftBracket ∧
    ∀ op, t.terminal = .operator op → ∀ q, op ∈ operatorsAt q → q < p

/-- What may follow an `if` without `else`. -/
def NoElse (r : List Token) : Prop := ∀ t ∈ r.head?, t.terminal ≠ .kwElse

/-- What may follow expressions with commas between. -/
def Closes (r : List Token) : Prop :=
  Begins (fun k => k = .rightParen ∨ k = .rightBracket) r

/-- What may follow an assignment or an expression. -/
def EndsSimple (r : List Token) : Prop :=
  Begins (fun k => k = .semicolon ∨ k = .rightParen) r

/-- What ends an expression of a level ends those of the levels above it. -/
theorem Ends.mono {p q : Nat} {r : List Token} (h : Ends p r) (hpq : p ≤ q) : Ends q r :=
  fun t ht => ⟨(h t ht).1, (h t ht).2.1, fun op hop q hq =>
    Nat.lt_of_lt_of_le ((h t ht).2.2 op hop q hq) hpq⟩

/-- A source that begins with a token that can neither continue nor begin an operand. -/
theorem Begins.ends {among : Terminal → Prop} {r : List Token} (h : Begins among r)
    (hne : ∀ k, among k → k ≠ .leftParen ∧ k ≠ .leftBracket ∧ ∀ op, k ≠ .operator op) (p : Nat) :
    Ends p r := by
  obtain ⟨t, r, rfl, ht⟩ := h
  intro t' ht'
  obtain rfl : t = t' := by simpa using ht'
  exact ⟨(hne _ ht).1, (hne _ ht).2.1, fun op hop => absurd hop ((hne _ ht).2.2 op)⟩

/-- A token that is no operator and opens no bracket ends an expression. -/
theorem Leaf.ends {k : Terminal} (t : Leaf k) {r : List Token}
    (hne : k ≠ .leftParen ∧ k ≠ .leftBracket ∧ ∀ op, k ≠ .operator op) (p : Nat) :
    Ends p (t.1 :: r) :=
  (Begins.cons (A := fun k' => k' = k) t rfl).ends (by rintro _ rfl; exact hne) p

/-- What closes arguments ends an expression. -/
theorem Closes.ends {r : List Token} (h : Closes r) (p : Nat) : Ends p r :=
  Begins.ends h (by rintro k (rfl | rfl) <;> simp) p

/-- What ends an assignment ends an expression. -/
theorem EndsSimple.ends {r : List Token} (h : EndsSimple r) (p : Nat) : Ends p r :=
  Begins.ends h (by rintro k (rfl | rfl) <;> simp) p

/-- Tokens that begin otherwise begin by no `else`. -/
theorem Begins.noElse {among : Terminal → Prop} {r : List Token} (h : Begins among r)
    (hne : ¬ among .kwElse) : NoElse r := by
  obtain ⟨t, r, rfl, ht⟩ := h
  rintro t' ht' heq
  obtain rfl : t = t' := by simpa using ht'
  exact hne (heq ▸ ht)

/-- After an operand of a chain comes what may follow the operand. -/
theorem Tails.ends {p : Nat} (ts : Tails p) {r : List Token} (h : Ends p r) :
    Ends (p + 1) (ts.tokens ++ r) := by
  cases ts with
  | nil => exact h.mono (Nat.le_succ p)
  | cons o e rest =>
    intro t ht
    obtain rfl : o.token.1 = t := Option.some.inj ht
    rw [o.token.2]
    refine ⟨nofun, nofun, fun op hop q hq => ?_⟩
    obtain rfl : o.op = op := by simpa using hop
    obtain rfl : p = q := eq_of_mem_operatorsAt o.mem hq
    exact Nat.lt_succ_self p

/-- An argument is ended by the next one, or by what closes the arguments. -/
theorem MoreArgs.ends {es : MoreArgs} {r : List Token} (h : Closes r) (p : Nat) :
    Ends p (es.tokens ++ r) := by
  cases es with
  | nil => exact h.ends p
  | cons c e rest => exact c.ends (by simp) p

/-! ## Equal tokens -/

/-- Two tokens of one terminal at the same place are the same. -/
theorem Leaf.cons_inj {k : Terminal} {t u : Leaf k} {r r' : List Token}
    (h : t.1 :: r = u.1 :: r') : t = u ∧ r = r' := by
  rw [List.cons.injEq] at h
  exact ⟨Subtype.ext h.1, h.2⟩

/-- A token is of one terminal. -/
theorem Leaf.terminal_eq {k k' : Terminal} {t : Leaf k} {u : Leaf k'} {r r' : List Token}
    (h : t.1 :: r = u.1 :: r') : k = k' := by
  rw [List.cons.injEq] at h
  rw [← t.2, h.1, u.2]

/-- A constant is read off its token. -/
theorem Constant.unique {c c' : Constant} {r r' : List Token}
    (h : c.token :: r = c'.token :: r') : c = c' ∧ r = r' := by
  cases c <;> cases c' <;>
    first
    | (obtain ⟨rfl, rfl⟩ := Leaf.cons_inj h; exact ⟨rfl, rfl⟩)
    | exact nomatch Leaf.terminal_eq h

/-- An operator is read off its token. -/
theorem Infix.unique {p : Nat} {o o' : Infix p} {r r' : List Token}
    (h : o.token.1 :: r = o'.token.1 :: r') : o = o' ∧ r = r' := by
  obtain ⟨op, level, t⟩ := o
  obtain ⟨op', level', t'⟩ := o'
  obtain rfl : op = op' := Terminal.operator.inj (Leaf.terminal_eq h)
  obtain ⟨rfl, rfl⟩ := Leaf.cons_inj h
  exact ⟨rfl, rfl⟩

/-- A sign is read off its token. -/
theorem Sign.unique {s s' : Sign} {r r' : List Token} (h : s.token :: r = s'.token :: r') :
    s = s' ∧ r = r' := by
  cases s <;> cases s' <;>
    first
    | (obtain ⟨rfl, rfl⟩ := Leaf.cons_inj h; exact ⟨rfl, rfl⟩)
    | exact nomatch Leaf.terminal_eq h

/-- The words for declarations are different. -/
theorem DeclKind.terminal_inj {kind kind' : DeclKind} (h : kind.terminal = kind'.terminal) :
    kind = kind' := by
  cases kind <;> cases kind' <;> first | rfl | exact nomatch h

/-- The kind of a declaration is read off its word. -/
theorem DeclWord.unique {w w' : DeclWord} {r r' : List Token}
    (h : w.token.1 :: r = w'.token.1 :: r') : w = w' ∧ r = r' := by
  obtain ⟨kind, t⟩ := w
  obtain ⟨kind', t'⟩ := w'
  obtain rfl : kind = kind' := DeclKind.terminal_inj (Leaf.terminal_eq h)
  obtain ⟨rfl, rfl⟩ := Leaf.cons_inj h
  exact ⟨rfl, rfl⟩

/-- The names after the first parameter. -/
theorem Params.unique_rest {ns ns' : List (Leaf .comma × Leaf .name)} {rp rp' : Leaf .rightParen}
    {r r' : List Token}
    (h : ns.flatMap (fun x => [x.1.1, x.2.1]) ++ rp.1 :: r =
      ns'.flatMap (fun x => [x.1.1, x.2.1]) ++ rp'.1 :: r') :
    ns = ns' ∧ rp.1 :: r = rp'.1 :: r' := by
  induction ns generalizing ns' with
  | nil =>
    cases ns' with
    | nil => exact ⟨rfl, h⟩
    | cons x' _ => exact nomatch Leaf.terminal_eq (u := x'.1) h
  | cons x ns ih =>
    cases ns' with
    | nil => exact nomatch Leaf.terminal_eq (t := x.1) h
    | cons x' ns' =>
      obtain ⟨hc, h₁⟩ := Leaf.cons_inj (t := x.1) (u := x'.1) h
      obtain ⟨hn, h₂⟩ := Leaf.cons_inj (t := x.2) (u := x'.2) h₁
      obtain ⟨rfl, h₃⟩ := ih h₂
      exact ⟨by rw [Prod.ext hc hn], h₃⟩

/-- Parameters end at the bracket behind them. -/
theorem Params.unique {ps ps' : Option Params} {rp rp' : Leaf .rightParen} {r r' : List Token}
    (h : collectParams own ps ++ rp.1 :: r = collectParams own ps' ++ rp'.1 :: r') :
    ps = ps' ∧ rp = rp' ∧ r = r' := by
  cases ps with
  | none =>
    cases ps' with
    | none => exact ⟨rfl, Leaf.cons_inj h⟩
    | some ps' => exact nomatch Leaf.terminal_eq (u := ps'.first) h
  | some ps =>
    cases ps' with
    | none => exact nomatch Leaf.terminal_eq (t := ps.first) h
    | some ps' =>
      obtain ⟨first, rest⟩ := ps
      obtain ⟨first', rest'⟩ := ps'
      simp only [collectParams, Params.collect, List.cons_append, List.nil_append] at h
      obtain ⟨rfl, h₁⟩ := Leaf.cons_inj (t := first) (u := first') h
      obtain ⟨rfl, h₂⟩ := Params.unique_rest h₁
      exact ⟨rfl, Leaf.cons_inj h₂⟩

/-! ## What cannot be equal -/

/-- What has a sign in front begins no operand. -/
theorem Sign.ne_atom (s : Sign) (e : ExprTree 7) (a : AtomTree) (ss : Suffixes)
    {r r' : List Token} :
    (ExprTree.signed s e).tokens ++ r ≠ (ExprTree.suffixed a ss).tokens ++ r' := by
  intro h
  obtain ⟨k, hs, ha⟩ := (s.begins _).meet (h ▸ a.begins.append.append)
  exact Bool.false_ne_true (hs.symm.trans ha)

/-- An operator of the level does not end an expression. -/
theorem Tails.ne_ends {p : Nat} (o : Infix p) {r r' : List Token} (hr : Ends p r) :
    r ≠ o.token.1 :: r' := by
  rintro rfl
  exact Nat.lt_irrefl p ((hr o.token.1 rfl).2.2 o.op o.token.2 p o.mem)

/-- An argument does not close the arguments. -/
theorem Args.ne_closes (e : ExprTree 1) (rest : MoreArgs) {r r' : List Token} (hr : Closes r) :
    r ≠ (Args.some e rest).tokens ++ r' := by
  intro h
  obtain ⟨k, hk, he⟩ := hr.meet (h ▸ e.begins.append.append)
  rcases hk with rfl | rfl <;> exact Bool.false_ne_true he

/-- A comma does not close the arguments. -/
theorem MoreArgs.ne_closes (c : Leaf .comma) {r r' : List Token} (hr : Closes r) :
    r ≠ c.1 :: r' := by
  rintro rfl
  obtain ⟨k, hk, hc⟩ := hr.meet (.cons (A := fun k => k = .comma) c rfl)
  rcases hk with rfl | rfl <;> exact nomatch hc

/-- A constant is no token of another terminal. -/
theorem Constant.ne_leaf (c : Constant) {k : Terminal} (t : Leaf k) {r r' : List Token}
    (hk : k ∉ [.number, .string, .kwTrue, .kwFalse, .kwUndefined]) : c.token :: r ≠ t.1 :: r' := by
  intro h
  cases c <;> exact hk (by rw [← Leaf.terminal_eq h]; decide)

/-- A token that does not begin what stands on the other side. -/
theorem Leaf.ne_append {k : Terminal} {t : Leaf k} {among : Terminal → Prop} {ts r r' : List Token}
    (hts : Begins among ts) (hk : ¬ among k) : t.1 :: r ≠ ts ++ r' := by
  intro h
  obtain ⟨k', rfl, hk'⟩ := Begins.meet (.cons (A := fun k' => k' = k) t rfl) (h ▸ hts.append)
  exact hk hk'

/-- A statement does not begin by the brace that ends a block. -/
theorem StmtTrees.ne_brace (s : StmtTree) (ss : StmtTrees) {rb : Leaf .rightBrace}
    {r r' : List Token} : rb.1 :: r ≠ (StmtTrees.cons s ss).tokens ++ r' :=
  Leaf.ne_append s.begins.append nofun

/-- Two statements that begin by the same token are of the same form. -/
theorem StmtTree.lead_eq {s s' : StmtTree} {r r' : List Token}
    (h : s.tokens ++ r = s'.tokens ++ r') : s.lead = s'.lead := by
  obtain ⟨k, hk, hk'⟩ := s.begins.append.meet (h ▸ s'.begins.append)
  exact Option.some.inj (hk.symm.trans hk')

/-- No `else` begins the rest of a block. -/
theorem StmtTrees.noElse (ss : StmtTrees) (rb : Leaf .rightBrace) {r : List Token} :
    NoElse (ss.tokens ++ rb.1 :: r) := by
  cases ss with
  | nil => exact (Begins.cons (A := fun k => k = .rightBrace) rb rfl).noElse nofun
  | cons s ss => exact s.begins.append.append.noElse nofun

/-- An `=` does not end an assignment or expression. -/
theorem EndsSimple.ne_equals {r r' : List Token} (hr : EndsSimple r) (eq : Leaf .equals) :
    r ≠ eq.1 :: r' := by
  rintro rfl
  obtain ⟨k, hk, hc⟩ := hr.meet (.cons (A := fun k => k = .equals) eq rfl)
  rcases hk with rfl | rfl <;> exact nomatch hc

/-- No `else` comes next. -/
theorem NoElse.ne_else {r r' : List Token} (hr : NoElse r) (w : Leaf .kwElse) :
    r ≠ w.1 :: r' := by
  rintro rfl
  exact hr w.1 rfl w.2

/-- An expression does not begin by a word for declarations. -/
theorem DeclWord.ne_simple (w : DeclWord) (s : SimpleTree) {r r' : List Token} :
    w.token.1 :: r ≠ s.tokens ++ r' :=
  Leaf.ne_append s.begins (by cases w.kind <;> nofun)

/-- A block does not begin as an `if` does. -/
theorem BlockTree.ne_if (b : BlockTree) (i : IfTree) {r r' : List Token} :
    b.tokens ++ r ≠ i.tokens ++ r' := by
  intro h
  cases b; cases i
  exact nomatch Leaf.terminal_eq h

/-- A word for declarations is no name. -/
theorem DeclWord.ne_name (w : DeclWord) (n : Leaf .name) {r r' : List Token} :
    w.token.1 :: r ≠ n.1 :: r' := by
  intro h
  have := Leaf.terminal_eq h
  cases hk : w.kind <;> simp [hk, DeclKind.terminal] at this

/-- Whether a variable is declared is read off the token before it. -/
theorem DeclWord.unique_option {d d' : Option DeclWord} {n n' : Leaf .name} {r r' : List Token}
    (h : collectWord own d ++ n.1 :: r = collectWord own d' ++ n'.1 :: r') :
    d = d' ∧ n.1 :: r = n'.1 :: r' := by
  cases d with
  | none =>
    cases d' with
    | none => exact ⟨rfl, h⟩
    | some w' => exact absurd h.symm (w'.ne_name n)
  | some w =>
    cases d' with
    | none => exact absurd h (w.ne_name n')
    | some w' =>
      obtain ⟨rfl, h₁⟩ := DeclWord.unique h
      exact ⟨rfl, h₁⟩

/-- An expression that begins with a name before the word `of` is that name. -/
theorem ExprTree.of_after : ∀ {p : Nat} (e : ExprTree p) {n : Leaf .name} {o : Leaf .kwOf}
    {r s : List Token}, e.tokens ++ r = n.1 :: o.1 :: s → r = o.1 :: s
  | _, .chain _ first tails, n, o, r, r', h => by
    rw [ExprTree.tokens, ExprTree.collect, List.append_assoc] at h
    have h₁ := first.of_after h
    cases tails with
    | nil => exact h₁
    | cons op => exact nomatch Leaf.terminal_eq h₁
  | _, .signed s e, n, o, r, r', h => by
    cases s with
    | _ t => exact nomatch Leaf.terminal_eq h
  | _, .suffixed a ss, n, o, r, r', h => by
    cases a with
    | name t =>
      obtain ⟨_, h₁⟩ := Leaf.cons_inj h
      cases ss with
      | nil => exact h₁
      | _ opening => exact nomatch Leaf.terminal_eq h₁
    | constant c => exact absurd h (Constant.ne_leaf c n (by decide))
    | _ t => exact nomatch Leaf.terminal_eq h
  termination_by structural _ e => e

/-- The first clause of a `for` that counts is not what begins the header of a loop over a
    sequence. -/
theorem MaybeClause.ne_forOf (i : MaybeClause) (sc : Leaf .semicolon) (d : Option DeclWord)
    (n : Leaf .name) (o : Leaf .kwOf) {r r' : List Token} :
    i.tokens ++ sc.1 :: r ≠ collectWord own d ++ (n.1 :: o.1 :: r') := by
  intro h
  cases i with
  | none =>
    cases d with
    | none => exact nomatch Leaf.terminal_eq h
    | some w => exact absurd (Leaf.terminal_eq h) (by cases w.kind <;> nofun)
  | some c =>
    cases c with
    | declaration w' n' =>
      obtain ⟨_, h₁⟩ := DeclWord.unique_option (d := .some w') h
      exact nomatch Leaf.terminal_eq (Leaf.cons_inj h₁).2
    | initialized w' n' eq e =>
      obtain ⟨_, h₁⟩ := DeclWord.unique_option (d := .some w') h
      exact nomatch Leaf.terminal_eq (Leaf.cons_inj h₁).2
    | simple s =>
      cases d with
      | some w => exact absurd h.symm (w.ne_simple s)
      | none =>
        cases s with
        | assignment t eq v =>
          simp only [MaybeClause.tokens, MaybeClause.collect, ClauseTree.collect,
            SimpleTree.collect, List.append_assoc] at h
          exact nomatch Leaf.terminal_eq (t.of_after h)
        | expression e => exact nomatch Leaf.terminal_eq (e.of_after h)

/-! ## The induction -/

mutual

/-- An expression is read off its tokens. -/
theorem ExprTree.unique : ∀ {p : Nat} (d d' : ExprTree p) {r r' : List Token},
    d.tokens ++ r = d'.tokens ++ r' → Ends p r → Ends p r' → d = d' ∧ r = r'
  | p, .chain _ first tails, d', r, r', h, hr, hr' => by
    cases d' with
    | chain _ first' tails' =>
      simp only [ExprTree.tokens, ExprTree.collect, List.append_assoc] at h
      obtain ⟨rfl, h₁⟩ := first.unique first' h (tails.ends hr) (tails'.ends hr')
      obtain ⟨rfl, h₂⟩ := tails.unique tails' h₁ hr hr'
      exact ⟨rfl, h₂⟩
    | signed => omega
    | suffixed => omega
  | _, .signed s e, d', r, r', h, hr, hr' => by
    cases d' with
    | chain level => omega
    | signed s' e' =>
      obtain ⟨rfl, h₁⟩ := Sign.unique h
      obtain ⟨rfl, h₂⟩ := e.unique e' h₁ hr hr'
      exact ⟨rfl, h₂⟩
    | suffixed a' ss' => exact absurd h (Sign.ne_atom s e a' ss')
  | _, .suffixed a ss, d', r, r', h, hr, hr' => by
    cases d' with
    | chain level => omega
    | signed s' e' => exact absurd h.symm (Sign.ne_atom s' e' a ss)
    | suffixed a' ss' =>
      simp only [ExprTree.tokens, ExprTree.collect, List.append_assoc] at h
      obtain ⟨rfl, h₁⟩ := a.unique a' h
      obtain ⟨rfl, h₂⟩ := ss.unique ss' h₁ hr hr'
      exact ⟨rfl, h₂⟩
  termination_by structural _ d => d

/-- Operators with their right operands are read off their tokens. -/
theorem Tails.unique : ∀ {p : Nat} (ts ts' : Tails p) {r r' : List Token},
    ts.tokens ++ r = ts'.tokens ++ r' → Ends p r → Ends p r' → ts = ts' ∧ r = r'
  | p, .nil, ts', r, r', h, hr, _ => by
    cases ts' with
    | nil => exact ⟨rfl, h⟩
    | cons o' e' rest' => exact absurd h (Tails.ne_ends o' hr)
  | p, .cons o e rest, ts', r, r', h, hr, hr' => by
    cases ts' with
    | nil => exact absurd h.symm (Tails.ne_ends o hr')
    | cons o' e' rest' =>
      simp only [Tails.tokens, Tails.collect, List.append_assoc, List.cons_append,
        List.nil_append] at h
      obtain ⟨rfl, h₁⟩ := Infix.unique h
      obtain ⟨rfl, h₂⟩ := e.unique e' h₁ (rest.ends hr) (rest'.ends hr')
      obtain ⟨rfl, h₃⟩ := rest.unique rest' h₂ hr hr'
      exact ⟨rfl, h₃⟩
  termination_by structural _ d => d

/-- Calls and elements are read off their tokens. -/
theorem Suffixes.unique : ∀ (ss ss' : Suffixes) {r r' : List Token},
    ss.tokens ++ r = ss'.tokens ++ r' → Ends 7 r → Ends 7 r' → ss = ss' ∧ r = r'
  | .nil, ss', r, r', h, hr, hr' => by
    cases ss' with
    | nil => exact ⟨rfl, h⟩
    | call lp => exact absurd lp.2 (hr lp.1 (by rw [show r = _ from h]; rfl)).1
    | index lb => exact absurd lb.2 (hr lb.1 (by rw [show r = _ from h]; rfl)).2.1
  | .call lp args rp rest, ss', r, r', h, hr, hr' => by
    cases ss' with
    | nil => exact absurd lp.2 (hr' lp.1 (by rw [show r' = _ from h.symm]; rfl)).1
    | index lb => exact nomatch Leaf.terminal_eq h
    | call lp' args' rp' rest' =>
      simp only [Suffixes.tokens, Suffixes.collect, List.append_assoc, List.cons_append,
        List.nil_append] at h
      obtain ⟨rfl, h₁⟩ := Leaf.cons_inj h
      obtain ⟨rfl, h₂⟩ := args.unique args' h₁ (.cons rp (.inl rfl)) (.cons rp' (.inl rfl))
      obtain ⟨rfl, h₃⟩ := Leaf.cons_inj h₂
      obtain ⟨rfl, h₄⟩ := rest.unique rest' h₃ hr hr'
      exact ⟨rfl, h₄⟩
  | .index lb i rb rest, ss', r, r', h, hr, hr' => by
    cases ss' with
    | nil => exact absurd lb.2 (hr' lb.1 (by rw [show r' = _ from h.symm]; rfl)).2.1
    | call lp => exact nomatch Leaf.terminal_eq h
    | index lb' i' rb' rest' =>
      simp only [Suffixes.tokens, Suffixes.collect, List.append_assoc, List.cons_append,
        List.nil_append] at h
      obtain ⟨rfl, h₁⟩ := Leaf.cons_inj h
      obtain ⟨rfl, h₂⟩ := i.unique i' h₁ (rb.ends (by simp) 1) (rb'.ends (by simp) 1)
      obtain ⟨rfl, h₃⟩ := Leaf.cons_inj h₂
      obtain ⟨rfl, h₄⟩ := rest.unique rest' h₃ hr hr'
      exact ⟨rfl, h₄⟩
  termination_by structural d => d

/-- Arguments are read off their tokens. -/
theorem Args.unique : ∀ (es es' : Args) {r r' : List Token},
    es.tokens ++ r = es'.tokens ++ r' → Closes r → Closes r' → es = es' ∧ r = r'
  | .none, es', r, r', h, hr, hr' => by
    cases es' with
    | none => exact ⟨rfl, h⟩
    | some e' rest' => exact absurd h (Args.ne_closes e' rest' hr)
  | .some e rest, es', r, r', h, hr, hr' => by
    cases es' with
    | none => exact absurd h.symm (Args.ne_closes e rest hr')
    | some e' rest' =>
      simp only [Args.tokens, Args.collect, List.append_assoc] at h
      obtain ⟨rfl, h₁⟩ := e.unique e' h (rest.ends hr 1) (rest'.ends hr' 1)
      obtain ⟨rfl, h₂⟩ := rest.unique rest' h₁ hr hr'
      exact ⟨rfl, h₂⟩
  termination_by structural d => d

/-- Further arguments are read off their tokens. -/
theorem MoreArgs.unique : ∀ (es es' : MoreArgs) {r r' : List Token},
    es.tokens ++ r = es'.tokens ++ r' → Closes r → Closes r' → es = es' ∧ r = r'
  | .nil, es', r, r', h, hr, hr' => by
    cases es' with
    | nil => exact ⟨rfl, h⟩
    | cons c' e' rest' => exact absurd h (MoreArgs.ne_closes c' hr)
  | .cons c e rest, es', r, r', h, hr, hr' => by
    cases es' with
    | nil => exact absurd h.symm (MoreArgs.ne_closes c hr')
    | cons c' e' rest' =>
      simp only [MoreArgs.tokens, MoreArgs.collect, List.append_assoc, List.cons_append,
        List.nil_append] at h
      obtain ⟨rfl, h₁⟩ := Leaf.cons_inj h
      obtain ⟨rfl, h₂⟩ := e.unique e' h₁ (rest.ends hr 1) (rest'.ends hr' 1)
      obtain ⟨rfl, h₃⟩ := rest.unique rest' h₂ hr hr'
      exact ⟨rfl, h₃⟩
  termination_by structural d => d

/-- An operand is read off its tokens. -/
theorem AtomTree.unique : ∀ (a a' : AtomTree) {r r' : List Token},
    a.tokens ++ r = a'.tokens ++ r' → a = a' ∧ r = r'
  | .constant c, a', r, r', h => by
    cases a' with
    | constant c' =>
      obtain ⟨rfl, h₁⟩ := Constant.unique h
      exact ⟨rfl, h₁⟩
    | _ t' => exact absurd h (Constant.ne_leaf c t' (by decide))
  | .name t, a', r, r', h => by
    cases a' with
    | name t' =>
      obtain ⟨rfl, h₁⟩ := Leaf.cons_inj h
      exact ⟨rfl, h₁⟩
    | constant c' => exact absurd h.symm (Constant.ne_leaf c' t (by decide))
    | _ t' => exact nomatch Leaf.terminal_eq h
  | .array lb es rb, a', r, r', h => by
    cases a' with
    | array lb' es' rb' =>
      simp only [AtomTree.tokens, AtomTree.collect, List.append_assoc, List.cons_append,
        List.nil_append] at h
      obtain ⟨rfl, h₁⟩ := Leaf.cons_inj h
      obtain ⟨rfl, h₂⟩ := es.unique es' h₁ (.cons rb (.inr rfl)) (.cons rb' (.inr rfl))
      obtain ⟨rfl, h₃⟩ := Leaf.cons_inj h₂
      exact ⟨rfl, h₃⟩
    | constant c' => exact absurd h.symm (Constant.ne_leaf c' lb (by decide))
    | _ t' => exact nomatch Leaf.terminal_eq h
  | .function w lp ps rp b, a', r, r', h => by
    cases a' with
    | function w' lp' ps' rp' b' =>
      simp only [AtomTree.tokens, AtomTree.collect, List.append_assoc, List.cons_append,
        List.nil_append] at h
      obtain ⟨rfl, h₁⟩ := Leaf.cons_inj h
      obtain ⟨rfl, h₂⟩ := Leaf.cons_inj h₁
      obtain ⟨rfl, rfl, h₃⟩ := Params.unique h₂
      obtain ⟨rfl, h₄⟩ := b.unique b' h₃
      exact ⟨rfl, h₄⟩
    | constant c' => exact absurd h.symm (Constant.ne_leaf c' w (by decide))
    | _ t' => exact nomatch Leaf.terminal_eq h
  | .paren lp e rp, a', r, r', h => by
    cases a' with
    | paren lp' e' rp' =>
      simp only [AtomTree.tokens, AtomTree.collect, List.append_assoc, List.cons_append,
        List.nil_append] at h
      obtain ⟨rfl, h₁⟩ := Leaf.cons_inj h
      obtain ⟨rfl, h₂⟩ := e.unique e' h₁ (rp.ends (by simp) 1) (rp'.ends (by simp) 1)
      obtain ⟨rfl, h₃⟩ := Leaf.cons_inj h₂
      exact ⟨rfl, h₃⟩
    | constant c' => exact absurd h.symm (Constant.ne_leaf c' lp (by decide))
    | _ t' => exact nomatch Leaf.terminal_eq h
  termination_by structural d => d

/-- A block is read off its tokens. -/
theorem BlockTree.unique : ∀ (b b' : BlockTree) {r r' : List Token},
    b.tokens ++ r = b'.tokens ++ r' → b = b' ∧ r = r'
  | .mk lb ss rb, .mk lb' ss' rb', r, r', h => by
    simp only [BlockTree.tokens, BlockTree.collect, List.append_assoc, List.cons_append,
      List.nil_append] at h
    obtain ⟨rfl, h₁⟩ := Leaf.cons_inj h
    obtain ⟨rfl, h₂⟩ := ss.unique ss' rb rb' h₁
    obtain ⟨rfl, h₃⟩ := Leaf.cons_inj h₂
    exact ⟨rfl, h₃⟩
  termination_by structural d => d

/-- Statements are followed by the brace that closes their block. -/
theorem StmtTrees.unique : ∀ (ss ss' : StmtTrees) {r r' : List Token}
    (rb rb' : Leaf .rightBrace),
    ss.tokens ++ rb.1 :: r = ss'.tokens ++ rb'.1 :: r' →
      ss = ss' ∧ rb.1 :: r = rb'.1 :: r'
  | .nil, .nil, r, r', rb, rb', h => ⟨rfl, h⟩
  | .nil, .cons s' ss', r, r', rb, rb', h => absurd h (StmtTrees.ne_brace s' ss')
  | .cons s ss, .nil, r, r', rb, rb', h => absurd h.symm (StmtTrees.ne_brace s ss)
  | .cons s ss, .cons s' ss', r, r', rb, rb', h => by
    simp only [StmtTrees.tokens, StmtTrees.collect, List.append_assoc] at h
    obtain ⟨rfl, h₁⟩ := s.unique s' h (ss.noElse rb) (ss'.noElse rb')
    obtain ⟨rfl, h₂⟩ := ss.unique ss' rb rb' h₁
    exact ⟨rfl, h₂⟩
  termination_by structural d => d

/-- A statement is read off its tokens, if no `else` comes next. -/
theorem StmtTree.unique : ∀ (s s' : StmtTree) {r r' : List Token},
    s.tokens ++ r = s'.tokens ++ r' → NoElse r → NoElse r' → s = s' ∧ r = r'
  | .clause c sc, s', r, r', h, _, _ => by
    cases s' with
    | clause c' sc' =>
      simp only [StmtTree.tokens, StmtTree.collect, List.append_assoc, List.cons_append,
        List.nil_append] at h
      obtain ⟨rfl, h₁⟩ := c.unique c' h (.cons sc (.inl rfl)) (.cons sc' (.inl rfl))
      obtain ⟨rfl, h₂⟩ := Leaf.cons_inj h₁
      exact ⟨rfl, h₂⟩
    | _ => exact nomatch StmtTree.lead_eq h
  | .ret w e sc, s', r, r', h, _, _ => by
    cases s' with
    | ret w' e' sc' =>
      simp only [StmtTree.tokens, StmtTree.collect, List.append_assoc, List.cons_append,
        List.nil_append] at h
      obtain ⟨rfl, h₁⟩ := Leaf.cons_inj h
      obtain ⟨rfl, h₂⟩ := e.unique e' sc sc' h₁
      obtain ⟨rfl, h₃⟩ := Leaf.cons_inj h₂
      exact ⟨rfl, h₃⟩
    | _ => exact nomatch StmtTree.lead_eq h
  | .brk w sc, s', r, r', h, _, _ => by
    cases s' with
    | brk w' sc' =>
      obtain ⟨rfl, h₁⟩ := Leaf.cons_inj h
      obtain ⟨rfl, h₂⟩ := Leaf.cons_inj h₁
      exact ⟨rfl, h₂⟩
    | _ => exact nomatch StmtTree.lead_eq h
  | .cont w sc, s', r, r', h, _, _ => by
    cases s' with
    | cont w' sc' =>
      obtain ⟨rfl, h₁⟩ := Leaf.cons_inj h
      obtain ⟨rfl, h₂⟩ := Leaf.cons_inj h₁
      exact ⟨rfl, h₂⟩
    | _ => exact nomatch StmtTree.lead_eq h
  | .branch i, s', r, r', h, hr, hr' => by
    cases s' with
    | branch i' =>
      obtain ⟨rfl, h₁⟩ := i.unique i' h hr hr'
      exact ⟨rfl, h₁⟩
    | _ => exact nomatch StmtTree.lead_eq h
  | .whileLoop w lp c rp b, s', r, r', h, _, _ => by
    cases s' with
    | whileLoop w' lp' c' rp' b' =>
      simp only [StmtTree.tokens, StmtTree.collect, List.append_assoc, List.cons_append,
        List.nil_append] at h
      obtain ⟨rfl, h₁⟩ := Leaf.cons_inj h
      obtain ⟨rfl, h₂⟩ := Leaf.cons_inj h₁
      obtain ⟨rfl, h₃⟩ := c.unique c' h₂ (rp.ends (by simp) 1) (rp'.ends (by simp) 1)
      obtain ⟨rfl, h₄⟩ := Leaf.cons_inj h₃
      obtain ⟨rfl, h₅⟩ := b.unique b' h₄
      exact ⟨rfl, h₅⟩
    | _ => exact nomatch StmtTree.lead_eq h
  | .forLoop w lp i sc c sc₂ u rp b, s', r, r', h, _, _ => by
    cases s' with
    | forLoop w' lp' i' sc' c' sc₂' u' rp' b' =>
      simp only [StmtTree.tokens, StmtTree.collect, List.append_assoc, List.cons_append,
        List.nil_append] at h
      obtain ⟨rfl, h₁⟩ := Leaf.cons_inj h
      obtain ⟨rfl, h₂⟩ := Leaf.cons_inj h₁
      obtain ⟨rfl, h₃⟩ := i.unique i' sc sc' h₂
      obtain ⟨rfl, h₄⟩ := Leaf.cons_inj h₃
      obtain ⟨rfl, h₅⟩ := c.unique c' sc₂ sc₂' h₄
      obtain ⟨rfl, h₆⟩ := Leaf.cons_inj h₅
      obtain ⟨rfl, h₇⟩ := u.unique u' rp rp' h₆
      obtain ⟨rfl, h₈⟩ := Leaf.cons_inj h₇
      obtain ⟨rfl, h₉⟩ := b.unique b' h₈
      exact ⟨rfl, h₉⟩
    -- both begin with `for (`, but no first clause begins like the variable of a `for`-`of`
    | forOf w' lp' d' n' o' e' rp' b' =>
      obtain ⟨_, h₁⟩ := Leaf.cons_inj h
      obtain ⟨_, h₂⟩ := Leaf.cons_inj h₁
      exact absurd (by simpa using h₂) (MaybeClause.ne_forOf i sc d' n' o')
    | _ => exact nomatch StmtTree.lead_eq h
  | .forOf w lp d n o e rp b, s', r, r', h, _, _ => by
    cases s' with
    | forLoop w' lp' i' sc' c' sc₂' u' rp' b' =>
      obtain ⟨_, h₁⟩ := Leaf.cons_inj h
      obtain ⟨_, h₂⟩ := Leaf.cons_inj h₁
      exact absurd (by simpa using h₂.symm) (MaybeClause.ne_forOf i' sc' d n o)
    | forOf w' lp' d' n' o' e' rp' b' =>
      simp only [StmtTree.tokens, StmtTree.collect, List.append_assoc, List.cons_append,
        List.nil_append] at h
      obtain ⟨rfl, h₁⟩ := Leaf.cons_inj h
      obtain ⟨rfl, h₂⟩ := Leaf.cons_inj h₁
      obtain ⟨rfl, h₃⟩ := DeclWord.unique_option h₂
      obtain ⟨rfl, h₄⟩ := Leaf.cons_inj h₃
      obtain ⟨rfl, h₅⟩ := Leaf.cons_inj h₄
      obtain ⟨rfl, h₆⟩ := e.unique e' h₅ (rp.ends (by simp) 1) (rp'.ends (by simp) 1)
      obtain ⟨rfl, h₇⟩ := Leaf.cons_inj h₆
      obtain ⟨rfl, h₈⟩ := b.unique b' h₇
      exact ⟨rfl, h₈⟩
    | _ => exact nomatch StmtTree.lead_eq h
  | .block b, s', r, r', h, _, _ => by
    cases s' with
    | block b' =>
      obtain ⟨rfl, h₁⟩ := b.unique b' h
      exact ⟨rfl, h₁⟩
    | _ => exact nomatch StmtTree.lead_eq h
  termination_by structural d => d

/-- A first clause is read off its tokens. -/
theorem ClauseTree.unique : ∀ (c c' : ClauseTree) {r r' : List Token},
    c.tokens ++ r = c'.tokens ++ r' → EndsSimple r → EndsSimple r' → c = c' ∧ r = r'
  | .declaration w n, c', r, r', h, hr, _ => by
    cases c' with
    | declaration w' n' =>
      obtain ⟨rfl, h₁⟩ := DeclWord.unique h
      obtain ⟨rfl, h₂⟩ := Leaf.cons_inj h₁
      exact ⟨rfl, h₂⟩
    | initialized w' n' eq' e' =>
      obtain ⟨rfl, h₁⟩ := DeclWord.unique h
      obtain ⟨rfl, h₂⟩ := Leaf.cons_inj h₁
      exact absurd h₂ (EndsSimple.ne_equals hr eq')
    | simple s' => exact absurd h (DeclWord.ne_simple w s')
  | .initialized w n eq e, c', r, r', h, hr, hr' => by
    cases c' with
    | declaration w' n' =>
      obtain ⟨rfl, h₁⟩ := DeclWord.unique h
      obtain ⟨rfl, h₂⟩ := Leaf.cons_inj h₁
      exact absurd h₂.symm (EndsSimple.ne_equals hr' eq)
    | initialized w' n' eq' e' =>
      simp only [ClauseTree.tokens, ClauseTree.collect, List.cons_append, List.nil_append] at h
      obtain ⟨rfl, h₁⟩ := DeclWord.unique h
      obtain ⟨rfl, h₂⟩ := Leaf.cons_inj h₁
      obtain ⟨rfl, h₃⟩ := Leaf.cons_inj h₂
      obtain ⟨rfl, h₄⟩ := e.unique e' h₃ (hr.ends 1) (hr'.ends 1)
      exact ⟨rfl, h₄⟩
    | simple s' => exact absurd h (DeclWord.ne_simple w s')
  | .simple s, c', r, r', h, hr, hr' => by
    cases c' with
    | simple s' =>
      obtain ⟨rfl, h₁⟩ := s.unique s' h hr hr'
      exact ⟨rfl, h₁⟩
    | _ w' => exact absurd h.symm (DeclWord.ne_simple w' s)
  termination_by structural d => d

/-- An assignment or expression is read off its tokens. -/
theorem SimpleTree.unique : ∀ (s s' : SimpleTree) {r r' : List Token},
    s.tokens ++ r = s'.tokens ++ r' → EndsSimple r → EndsSimple r' → s = s' ∧ r = r'
  | .assignment t eq v, s', r, r', h, hr, hr' => by
    cases s' with
    | assignment t' eq' v' =>
      simp only [SimpleTree.tokens, SimpleTree.collect, List.append_assoc, List.cons_append,
        List.nil_append, List.append_nil] at h
      obtain ⟨rfl, h₁⟩ := t.unique t' h (eq.ends (by simp) 1) (eq'.ends (by simp) 1)
      obtain ⟨rfl, h₂⟩ := Leaf.cons_inj h₁
      obtain ⟨rfl, h₃⟩ := v.unique v' h₂ (hr.ends 1) (hr'.ends 1)
      exact ⟨rfl, h₃⟩
    | expression e' =>
      simp only [SimpleTree.tokens, SimpleTree.collect, List.append_assoc, List.cons_append] at h
      obtain ⟨_, h₁⟩ := t.unique e' h (eq.ends (by simp) 1) (hr'.ends 1)
      exact absurd h₁.symm (EndsSimple.ne_equals hr' eq)
  | .expression e, s', r, r', h, hr, hr' => by
    cases s' with
    | assignment t' eq' v' =>
      simp only [SimpleTree.tokens, SimpleTree.collect, List.append_assoc, List.cons_append] at h
      obtain ⟨_, h₁⟩ := e.unique t' h (hr.ends 1) (eq'.ends (by simp) 1)
      exact absurd h₁ (EndsSimple.ne_equals hr eq')
    | expression e' =>
      obtain ⟨rfl, h₁⟩ := e.unique e' h (hr.ends 1) (hr'.ends 1)
      exact ⟨rfl, h₁⟩
  termination_by structural d => d

/-- Whether there is a condition is read off the next token. -/
theorem MaybeExpr.unique : ∀ (e e' : MaybeExpr) {r r' : List Token} (sc sc' : Leaf .semicolon),
    e.tokens ++ sc.1 :: r = e'.tokens ++ sc'.1 :: r' → e = e' ∧ sc.1 :: r = sc'.1 :: r'
  | .none, .none, _, _, _, _, h => ⟨rfl, h⟩
  | .none, .some e', _, _, _, _, h => absurd h (Leaf.ne_append e'.begins nofun)
  | .some e, .none, _, _, _, _, h => absurd h.symm (Leaf.ne_append e.begins nofun)
  | .some e, .some e', _, _, sc, sc', h => by
    obtain ⟨rfl, h₁⟩ := e.unique e' h (sc.ends (by simp) 1) (sc'.ends (by simp) 1)
    exact ⟨rfl, h₁⟩
  termination_by structural d => d

/-- Whether there is a first clause is read off the next token. -/
theorem MaybeClause.unique : ∀ (c c' : MaybeClause) {r r' : List Token}
    (sc sc' : Leaf .semicolon),
    c.tokens ++ sc.1 :: r = c'.tokens ++ sc'.1 :: r' → c = c' ∧ sc.1 :: r = sc'.1 :: r'
  | .none, .none, _, _, _, _, h => ⟨rfl, h⟩
  | .none, .some c', _, _, _, _, h => absurd h (Leaf.ne_append c'.begins nofun)
  | .some c, .none, _, _, _, _, h => absurd h.symm (Leaf.ne_append c.begins nofun)
  | .some c, .some c', _, _, sc, sc', h => by
    obtain ⟨rfl, h₁⟩ := c.unique c' h (.cons sc (.inl rfl)) (.cons sc' (.inl rfl))
    exact ⟨rfl, h₁⟩
  termination_by structural d => d

/-- Whether there is a last clause is read off the next token. -/
theorem MaybeSimple.unique : ∀ (s s' : MaybeSimple) {r r' : List Token}
    (rp rp' : Leaf .rightParen),
    s.tokens ++ rp.1 :: r = s'.tokens ++ rp'.1 :: r' → s = s' ∧ rp.1 :: r = rp'.1 :: r'
  | .none, .none, _, _, _, _, h => ⟨rfl, h⟩
  | .none, .some s', _, _, _, _, h => absurd h (Leaf.ne_append s'.begins nofun)
  | .some s, .none, _, _, _, _, h => absurd h.symm (Leaf.ne_append s.begins nofun)
  | .some s, .some s', _, _, rp, rp', h => by
    obtain ⟨rfl, h₁⟩ := s.unique s' h (.cons rp (.inr rfl)) (.cons rp' (.inr rfl))
    exact ⟨rfl, h₁⟩
  termination_by structural d => d

/-- An `if` is read off its tokens, if no `else` comes next. -/
theorem IfTree.unique : ∀ (i i' : IfTree) {r r' : List Token},
    i.tokens ++ r = i'.tokens ++ r' → NoElse r → NoElse r' → i = i' ∧ r = r'
  | .mk w lp c rp b o, .mk w' lp' c' rp' b' o', r, r', h, hr, hr' => by
    simp only [IfTree.tokens, IfTree.collect, List.append_assoc, List.cons_append,
      List.nil_append] at h
    obtain ⟨rfl, h₁⟩ := Leaf.cons_inj h
    obtain ⟨rfl, h₂⟩ := Leaf.cons_inj h₁
    obtain ⟨rfl, h₃⟩ := c.unique c' h₂ (rp.ends (by simp) 1) (rp'.ends (by simp) 1)
    obtain ⟨rfl, h₄⟩ := Leaf.cons_inj h₃
    obtain ⟨rfl, h₅⟩ := b.unique b' h₄
    obtain ⟨rfl, h₆⟩ := o.unique o' h₅ hr hr'
    exact ⟨rfl, h₆⟩
  termination_by structural d => d

/-- Whether there is an `else` is read off the next token. -/
theorem ElseTree.unique : ∀ (o o' : ElseTree) {r r' : List Token},
    o.tokens ++ r = o'.tokens ++ r' → NoElse r → NoElse r' → o = o' ∧ r = r'
  | .none, o', r, r', h, hr, _ => by
    cases o' with
    | none => exact ⟨rfl, h⟩
    | _ w' => exact absurd h (NoElse.ne_else hr w')
  | .block w b, o', r, r', h, _, hr' => by
    cases o' with
    | none => exact absurd h.symm (NoElse.ne_else hr' w)
    | block w' b' =>
      obtain ⟨rfl, h₁⟩ := Leaf.cons_inj h
      obtain ⟨rfl, h₂⟩ := b.unique b' h₁
      exact ⟨rfl, h₂⟩
    | elseIf w' i' =>
      obtain ⟨_, h₁⟩ := Leaf.cons_inj h
      exact absurd h₁ (BlockTree.ne_if b i')
  | .elseIf w i, o', r, r', h, hr, hr' => by
    cases o' with
    | none => exact absurd h.symm (NoElse.ne_else hr' w)
    | block w' b' =>
      obtain ⟨_, h₁⟩ := Leaf.cons_inj h
      exact absurd h₁.symm (BlockTree.ne_if b' i)
    | elseIf w' i' =>
      obtain ⟨rfl, h₁⟩ := Leaf.cons_inj h
      obtain ⟨rfl, h₂⟩ := i.unique i' h₁ hr hr'
      exact ⟨rfl, h₂⟩
  termination_by structural d => d

end

/-! ## Programs -/

/-- An expression that begins with the word `function` goes on with a parenthesis. -/
theorem ExprTree.after_function : ∀ {p : Nat} (e : ExprTree p) {w : Leaf .kwFunction}
    {r r' : List Token}, e.tokens ++ r = w.1 :: r' → ∃ (lp : Leaf .leftParen) (r'' : _),
      r' = lp.1 :: r''
  | _, .chain _ first _, w, r, r', h => by
    rw [ExprTree.tokens, ExprTree.collect, List.append_assoc] at h
    exact first.after_function h
  | _, .signed s _, w, r, r', h => by
    cases s with
    | _ t => exact nomatch Leaf.terminal_eq h
  | _, .suffixed a _, w, r, r', h => by
    cases a with
    | function w' lp => exact ⟨lp, _, (Leaf.cons_inj h).2.symm⟩
    | constant c => exact absurd h (Constant.ne_leaf c w (by decide))
    | _ t => exact nomatch Leaf.terminal_eq h
  termination_by structural _ e => e

/-- No expression begins as the definition of a function does. -/
theorem ExprTree.ne_function {p : Nat} (e : ExprTree p) (w : Leaf .kwFunction) (n : Leaf .name)
    {r r' : List Token} : e.tokens ++ r ≠ w.1 :: n.1 :: r' := by
  intro h
  obtain ⟨lp, r'', h₁⟩ := e.after_function h
  exact nomatch Leaf.terminal_eq h₁

/-- No statement begins as the definition of a function does. -/
theorem StmtTree.ne_function (s : StmtTree) (w : Leaf .kwFunction) (n : Leaf .name)
    {r r' : List Token} : w.1 :: n.1 :: r' ≠ s.tokens ++ r := by
  intro h
  obtain ⟨k, rfl, hk⟩ := Begins.meet (.cons (A := fun k => k = .kwFunction) w rfl)
    (h ▸ s.begins.append)
  cases s with
  | clause c sc =>
    simp only [StmtTree.tokens, StmtTree.collect, List.append_assoc] at h
    cases c with
    | simple s =>
      cases s with
      | assignment t eq v =>
        simp only [ClauseTree.collect, SimpleTree.collect, List.append_assoc] at h
        exact t.ne_function w n h.symm
      | expression e => exact e.ne_function w n h.symm
    | _ d => exact absurd (Leaf.terminal_eq h) (by cases d.kind <;> nofun)
  | _ => exact nomatch hk

/-- An item of a program is read off its tokens. -/
theorem Item.unique (i i' : Item) {r r' : List Token}
    (h : i.collect own ignored ++ r = i'.collect own ignored ++ r') (hr : NoElse r)
    (hr' : NoElse r') : i = i' ∧ r = r' := by
  cases i with
  | function f =>
    cases i' with
    | stmt s' => exact absurd h (s'.ne_function f.word f.name)
    | function f' =>
      simp only [Item.collect, FunctionTree.collect, List.append_assoc, List.cons_append,
        List.nil_append] at h
      obtain ⟨w, n, lp, ps, rp, b⟩ := f
      obtain ⟨w', n', lp', ps', rp', b'⟩ := f'
      obtain ⟨rfl, h₁⟩ := Leaf.cons_inj h
      obtain ⟨rfl, h₂⟩ := Leaf.cons_inj h₁
      obtain ⟨rfl, h₃⟩ := Leaf.cons_inj h₂
      obtain ⟨rfl, rfl, h₄⟩ := Params.unique h₃
      obtain ⟨rfl, h₅⟩ := b.unique b' h₄
      exact ⟨rfl, h₅⟩
  | stmt s =>
    cases i' with
    | function f' => exact absurd h.symm (s.ne_function f'.word f'.name)
    | stmt s' =>
      obtain ⟨rfl, h₁⟩ := s.unique s' h hr hr'
      exact ⟨rfl, h₁⟩

/-- The terminals that a function or a statement begins with. -/
theorem Item.begins (i : Item) : Begins (fun k => k ≠ .kwElse) (i.collect own ignored) := by
  cases i with
  | function f => exact .cons f.word nofun
  | stmt s => exact s.begins.mono (by rintro _ hk rfl; exact nomatch hk)

/-- No program begins by an `else`. -/
theorem ProgramTree.noElse (p : ProgramTree) : NoElse p.tokens := by
  cases p with
  | nil => exact fun t ht => nomatch ht
  | cons i p => exact i.begins.append.noElse fun h => h rfl

/-- The tokens of a program have one derivation. -/
theorem ProgramTree.tokens_inj (p p' : ProgramTree) (h : p.tokens = p'.tokens) : p = p' := by
  induction p generalizing p' with
  | nil =>
    cases p' with
    | nil => rfl
    | cons i' p' =>
      obtain ⟨t, r, ht, _⟩ := i'.begins.append (r := ProgramTree.tokens p')
      exact nomatch h.trans ht
  | cons i p ih =>
    cases p' with
    | nil =>
      obtain ⟨t, r, ht, _⟩ := i.begins.append (r := ProgramTree.tokens p)
      exact nomatch h.symm.trans ht
    | cons i' p' =>
      obtain ⟨rfl, h₁⟩ := i.unique i' h (ProgramTree.noElse p) (ProgramTree.noElse p')
      rw [ih p' h₁]

end Grammar
end FlatScope
