import FlatScope.Syntax.Declared
import FlatScope.Syntax.Nodes

/-!
# What code assigns to

The nodes of a piece of code outside of the functions nested in it are its *own*. A function that
runs changes variables by the assignments and declarations among its own nodes (`Node.sets?`), and
by the calls of functions that it has made. So a block *assigns* a name if one of its own nodes sets
it, or a function among them that does not declare the name assigns it (`Block.Assigns`).
-/

namespace FlatScope

variable {α : Type}

mutual

/-- The nodes of an expression that are outside of the functions nested in it. -/
def Expr.own : Expr α → List (Node α)
  | .literal a v => [.expr (.literal a v)]
  | .name a n => [.expr (.name a n)]
  | .unary a op e => .expr (.unary a op e) :: e.own
  | .binary a op l r => .expr (.binary a op l r) :: (l.own ++ r.own)
  | .call a f args => .expr (.call a f args) :: (f.own ++ Expr.ownOfList args)
  | .array a es => .expr (.array a es) :: Expr.ownOfList es
  | .index a b i => .expr (.index a b i) :: (b.own ++ i.own)
  | .function a ps b => [.expr (.function a ps b)]
  | .signal a k v =>
    .expr (.signal a k v) :: (match v with
      | none => []
      | some e => e.own)
  | .signalIs a e k => .expr (.signalIs a e k) :: e.own
  | .signalValue a e => .expr (.signalValue a e) :: e.own
  | .unknown a n => [.expr (.unknown a n)]

def Expr.ownOfList : List (Expr α) → List (Node α)
  | [] => []
  | e :: es => e.own ++ Expr.ownOfList es

/-- The nodes of a block that are outside of the functions nested in it. -/
def Block.own : Block α → List (Node α)
  | .mk a ss => .block (.mk a ss) :: Stmt.ownOfList ss

/-- The nodes of a statement that are outside of the functions nested in it. -/
def Stmt.own : Stmt α → List (Node α)
  | .declaration a n k v =>
    .stmt (.declaration a n k v) :: (match v with
      | none => []
      | some e => e.own)
  | .assignment a t v => .stmt (.assignment a t v) :: (t.own ++ v.own)
  | .expression a e => .stmt (.expression a e) :: e.own
  | .block b => b.own
  | .branch a c t e =>
    .stmt (.branch a c t e) :: (c.own ++ (t.own ++ (match e with
      | none => []
      | some b => b.own)))
  | .loop a h b => .stmt (.loop a h b) :: (h.own ++ b.own)
  | .ret a v =>
    .stmt (.ret a v) :: (match v with
      | none => []
      | some e => e.own)
  | .brk a => [.stmt (.brk a)]
  | .cont a => [.stmt (.cont a)]
  | .unknown a n => [.stmt (.unknown a n)]

def Stmt.ownOfList : List (Stmt α) → List (Node α)
  | [] => []
  | s :: ss => s.own ++ Stmt.ownOfList ss

/-- The nodes of the header of a loop that are outside of the functions nested in it. -/
def Header.own : Header α → List (Node α)
  | .whileTrue a c => .header (.whileTrue a c) :: c.own
  | .counting a i c u =>
    .header (.counting a i c u) ::
      ((match i with
        | none => []
        | some s => s.own) ++
      ((match c with
        | none => []
        | some e => e.own) ++
      (match u with
        | none => []
        | some s => s.own)))
  | .forOf a n k e => .header (.forOf a n k e) :: e.own
  | .unknown a n => [.header (.unknown a n)]

end

/-- The name that a node gives a value, and the expression of the value if it is one. A variable
    that a node makes anew is not given a value by it. -/
def Node.sets? : Node α → Option (Name × Option (Expr α))
  | .stmt (.declaration _ n _ (some e)) => some (n, some e)
  | .stmt (.declaration _ n k none) => if k.isBlockScoped then some (n, none) else none
  | .stmt (.assignment _ (.name _ n) e) => some (n, some e)
  | .header (.forOf _ n none _) | .header (.forOf _ n (some .var) _) => some (n, none)
  | _ => none

/-- A block assigns a name: an own node sets it, or a function that does not declare the name
    assigns it. -/
inductive Block.Assigns (x : Name) : Block α → Prop
  | sets {b : Block α} {y : Node α} {v : Option (Expr α)} (hy : y ∈ b.own)
    (h : y.sets? = some (x, v)) : Assigns x b
  | inside {b c : Block α} {a : α} {ps : List Name} (hy : .expr (.function a ps c) ∈ b.own)
    (hps : x ∉ ps) (hv : x ∉ c.vars.map (·.1)) (h : Assigns x c) : Assigns x b

/-- A function assigns a name that it does not declare. -/
structure Block.AssignsOutside (x : Name) (ps : List Name) (b : Block α) : Prop where
  params : x ∉ ps
  vars : x ∉ b.vars.map (·.1)
  assigns : b.Assigns x

/-- A node lends a name: it makes a function that assigns it. -/
def Node.Lends (x : Name) (y : Node α) : Prop :=
  ∃ a ps c, y = .expr (.function a ps c) ∧ c.AssignsOutside x ps

theorem Stmt.ownOfList_append (ss ts : List (Stmt α)) :
    Stmt.ownOfList (ss ++ ts) = Stmt.ownOfList ss ++ Stmt.ownOfList ts := by
  induction ss with
  | nil => rfl
  | cons s ss ih => simp only [List.cons_append, Stmt.ownOfList, ih, List.append_assoc]

theorem Stmt.mem_ownOfList {ss : List (Stmt α)} {y : Node α} :
    y ∈ Stmt.ownOfList ss ↔ ∃ s ∈ ss, y ∈ s.own := by
  induction ss with
  | nil => simp [Stmt.ownOfList]
  | cons s ss ih => simp only [Stmt.ownOfList, List.mem_append, ih, List.mem_cons, exists_eq_or_imp]

/-- The own nodes of the header of a `for`, those of its clauses in order. -/
theorem Header.own_counting (a : α) (i : Option (Stmt α)) (c : Option (Expr α))
    (u : Option (Stmt α)) : (Header.counting a i c u).own =
      .header (.counting a i c u) ::
        (i.elim [] Stmt.own ++ (c.elim [] Expr.own ++ u.elim [] Stmt.own)) := by
  cases i <;> cases c <;> cases u <;> rw [Header.own] <;> rfl

section

variable {xs ys zs ws : List (Node α)} {y : Node α}

theorem own_expr_cons {e : Expr α} (h : ∀ {y}, y ∈ xs → (∃ f, y = .expr f) ∧ y ∈ ys)
    (hy : y ∈ .expr e :: xs) : (∃ f, y = .expr f) ∧ y ∈ .expr e :: ys := by
  rcases List.mem_cons.1 hy with rfl | hy
  · exact ⟨⟨e, rfl⟩, List.mem_cons_self⟩
  · exact (h hy).imp_right (List.mem_cons_of_mem _)

theorem own_expr_append (h : ∀ {y}, y ∈ xs → (∃ f, y = .expr f) ∧ y ∈ ys)
    (h' : ∀ {y}, y ∈ zs → (∃ f, y = .expr f) ∧ y ∈ ws) (hy : y ∈ xs ++ zs) :
    (∃ f, y = .expr f) ∧ y ∈ ys ++ ws := by
  rcases List.mem_append.1 hy with hy | hy
  · exact (h hy).imp_right (List.mem_append_left _)
  · exact (h' hy).imp_right (List.mem_append_right _)

end

mutual

/-- The own nodes of an expression are expressions in it. -/
theorem Expr.own_expr : ∀ (e : Expr α) {y : Node α}, y ∈ e.own → (∃ f, y = .expr f) ∧ y ∈ e.nodes
  | .literal .., _, h | .name .., _, h | .unknown .., _, h | .signal _ _ none, _, h =>
    ⟨⟨_, List.mem_singleton.1 h⟩, h⟩
  | .function .., _, h => ⟨⟨_, List.mem_singleton.1 h⟩, List.mem_singleton.1 h ▸ List.mem_cons_self⟩
  | .unary _ _ e, _, h | .signalIs _ e _, _, h | .signalValue _ e, _, h
  | .signal _ _ (some e), _, h => own_expr_cons e.own_expr h
  | .binary _ _ l r, _, h | .index _ l r, _, h =>
    own_expr_cons (own_expr_append l.own_expr r.own_expr) h
  | .call _ f args, _, h => own_expr_cons (own_expr_append f.own_expr (Expr.ownOfList_expr args)) h
  | .array _ es, _, h => own_expr_cons (Expr.ownOfList_expr es) h

theorem Expr.ownOfList_expr : ∀ (es : List (Expr α)) {y : Node α}, y ∈ Expr.ownOfList es →
    (∃ f, y = .expr f) ∧ y ∈ Expr.nodesOfList es
  | [], _, h => absurd h List.not_mem_nil
  | e :: es, _, h => own_expr_append e.own_expr (Expr.ownOfList_expr es) h

end

end FlatScope
