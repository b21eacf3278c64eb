import FlatScope.Proofs.Nodes
import FlatScope.Proofs.Source
import FlatScope.Syntax.Numbering

/-!
# Numbers of nodes

Numbering a tree from `n` on gives its nodes, in preorder, the numbers from `n` up to but not
including the number that is returned (`Expr.number_consecutive` and its companions), and keeps
everything else (`Expr.number_map`). No other tree with these numbers has the same rest
(`Node.number_marked`).

* `FunctionDef.numberFrom_consecutive`: the numbers of a function are consecutive;
* `FunctionDef.number_nodup`: so no two nodes of a function have one number;
* `FunctionDef.number_map`: forgetting the numbers gives the function back.
-/

namespace FlatScope

/-- The numbers of nodes. -/
def Node.ids (xs : List (Node Mark)) : List NodeId := xs.map (·.mark.id)

namespace Node

@[simp] theorem ids_nil : Node.ids [] = [] := rfl

@[simp] theorem ids_cons (x : Node Mark) (xs : List (Node Mark)) :
    Node.ids (x :: xs) = x.mark.id :: Node.ids xs := rfl

@[simp] theorem ids_append (xs ys : List (Node Mark)) :
    Node.ids (xs ++ ys) = Node.ids xs ++ Node.ids ys := List.map_append

/-- The nodes have the numbers from `n` up to but not including `m`, in order. -/
def Consecutive (n : Nat) (xs : List (Node Mark)) (m : Nat) : Prop :=
  n ≤ m ∧ Node.ids xs = List.range' n (m - n)

namespace Consecutive

/-- Nothing is numbered. -/
theorem nil (n : Nat) : Consecutive n [] n := ⟨Nat.le_refl n, by simp⟩

/-- One node in front takes the first number. -/
theorem cons {x : Node Mark} {xs : List (Node Mark)} {n m : Nat} (hx : x.mark.id = n)
    (h : Consecutive (n + 1) xs m) : Consecutive n (x :: xs) m := by
  obtain ⟨hle, hids⟩ := h
  refine ⟨by omega, ?_⟩
  rw [ids_cons, hx, hids, show m - n = (m - (n + 1)) + 1 by omega, List.range'_succ]

/-- Two lists one after the other: the second starts where the first ends. -/
theorem append {xs ys : List (Node Mark)} {n m k : Nat} (hx : Consecutive n xs m)
    (hy : Consecutive m ys k) : Consecutive n (xs ++ ys) k := by
  obtain ⟨hnm, hxs⟩ := hx
  obtain ⟨hmk, hys⟩ := hy
  refine ⟨by omega, ?_⟩
  rw [ids_append, hxs, hys]
  conv => lhs; rw [show m = n + 1 * (m - n) by omega]
  rw [show n + 1 * (m - n) - n = m - n by omega, List.range'_append]
  congr 1
  omega

/-- A node with no nodes below it. -/
theorem leaf {x : Node Mark} {n : Nat} (hx : x.mark.id = n) : Consecutive n [x] (n + 1) :=
  cons hx (nil (n + 1))

theorem le {xs : List (Node Mark)} {n m : Nat} (h : Consecutive n xs m) : n ≤ m := h.1

theorem of_nil {n m : Nat} (h : Consecutive n [] m) : m = n := by
  have hle := h.le
  have hlen : m - n = 0 := by simpa using (congrArg List.length h.2).symm
  omega

/-- The first node has the first number. -/
theorem of_cons {x : Node Mark} {xs : List (Node Mark)} {n m : Nat}
    (h : Consecutive n (x :: xs) m) : n = x.mark.id ∧ n < m ∧ Consecutive (n + 1) xs m := by
  obtain ⟨hle, hids⟩ := h
  obtain ⟨d, rfl⟩ := Nat.le.dest hle
  cases d with
  | zero => simp at hids
  | succ d =>
    rw [ids_cons, show n + (d + 1) - n = d + 1 by omega, List.range'_succ, List.cons.injEq] at hids
    refine ⟨hids.1.symm, by omega, by omega, ?_⟩
    rw [hids.2, show n + (d + 1) - (n + 1) = d by omega]

/-- A list of two parts is cut at some number. -/
theorem of_append {xs ys : List (Node Mark)} {n m : Nat} (h : Consecutive n (xs ++ ys) m) :
    ∃ k, Consecutive n xs k ∧ Consecutive k ys m := by
  induction xs generalizing n with
  | nil => exact ⟨n, nil n, h⟩
  | cons x xs ih =>
    obtain ⟨hx, -, h⟩ := of_cons h
    obtain ⟨k, hxs, hys⟩ := ih h
    exact ⟨k, cons hx.symm hxs, hys⟩

/-- The numbers in a loop: its own, those of the header, that of the body and those in the body. -/
theorem of_loop {m b : Mark} {h : Header Mark} {ss : List (Stmt Mark)} {n k : Nat}
    (hn : Consecutive n (Stmt.loop m h (.mk b ss)).nodes k) :
    n = m.id ∧ Consecutive (m.id + 1) h.nodes b.id ∧
      Consecutive (b.id + 1) (Stmt.nodesOfList ss) k ∧ m.id < b.id ∧ b.id < k := by
  obtain ⟨hm, -, hc⟩ := hn.of_cons
  obtain rfl : n = m.id := hm
  obtain ⟨q, hch, hcb⟩ := hc.of_append
  obtain ⟨hb, hlt, hcs⟩ := hcb.of_cons
  obtain rfl : q = b.id := hb
  exact ⟨rfl, hch, hcs, hch.le, hlt⟩

/-- No number is given twice. -/
theorem nodup {xs : List (Node Mark)} {n m : Nat} (h : Consecutive n xs m) :
    (Node.ids xs).Nodup := by
  rw [h.2]
  exact List.nodup_range'

/-- Exactly the numbers of the interval are given. -/
theorem mem {xs : List (Node Mark)} {n m i : Nat} (h : Consecutive n xs m) :
    i ∈ Node.ids xs ↔ n ≤ i ∧ i < m := by
  obtain ⟨hle, hids⟩ := h
  rw [hids, List.mem_range'_1]
  omega

/-- Nodes that follow each other have different numbers. -/
theorem ne {xs ys : List (Node Mark)} {n k m i j : Nat} (hx : Consecutive n xs k)
    (hy : Consecutive k ys m) (hi : i ∈ Node.ids xs) (hj : j ∈ Node.ids ys) : i ≠ j := by
  have := hx.mem.1 hi
  have := hy.mem.1 hj
  omega

end Consecutive

end Node

open Node

/-- The numbering of a clause from `n` on, if it is written. -/
def numberClause {σ τ : Type} (number : NodeId → σ → τ × NodeId) (n : NodeId) :
    Option σ → Option τ × NodeId
  | none => (none, n)
  | some s => (some (number n s).1, (number n s).2)

/-- The clauses of a `for` are numbered one after the other. -/
theorem Header.number_counting (n : NodeId) (a : Span) (i : Option (Stmt Span))
    (c : Option (Expr Span)) (u : Option (Stmt Span)) :
    (Header.counting a i c u).number n =
      let init := numberClause Stmt.number (n + 1) i
      let condition := numberClause Expr.number init.2 c
      let update := numberClause Stmt.number condition.2 u
      (.counting ⟨n, a⟩ init.1 condition.1 update.1, update.2) := by
  cases i <;> cases c <;> cases u <;> rfl

/-! ## Numbers in preorder -/

mutual

/-- The nodes of a numbered expression have consecutive numbers, in preorder. -/
theorem Expr.number_consecutive (n : NodeId) :
    ∀ e : Expr Span, Consecutive n (e.number n).1.nodes (e.number n).2
  | .literal .. => .leaf rfl
  | .name .. => .leaf rfl
  | .unary _ _ e => .cons rfl (e.number_consecutive (n + 1))
  | .binary _ _ l r =>
    .cons rfl ((l.number_consecutive (n + 1)).append (r.number_consecutive _))
  | .call _ f args =>
    .cons rfl ((f.number_consecutive (n + 1)).append (Expr.numberList_consecutive _ args))
  | .array _ es => .cons rfl (Expr.numberList_consecutive (n + 1) es)
  | .index _ b i => .cons rfl ((b.number_consecutive (n + 1)).append (i.number_consecutive _))
  | .function _ _ b => .cons rfl (b.number_consecutive (n + 1))
  | .signal _ _ none => .leaf rfl
  | .signal _ _ (some e) => .cons rfl (e.number_consecutive (n + 1))
  | .signalIs _ e _ => .cons rfl (e.number_consecutive (n + 1))
  | .signalValue _ e => .cons rfl (e.number_consecutive (n + 1))
  | .unknown .. => .leaf rfl

theorem Expr.numberList_consecutive (n : NodeId) :
    ∀ es : List (Expr Span),
      Consecutive n (Expr.nodesOfList (Expr.numberList n es).1) (Expr.numberList n es).2
  | [] => .nil n
  | e :: es => (e.number_consecutive n).append (Expr.numberList_consecutive _ es)

/-- The nodes of a numbered block have consecutive numbers, in preorder. -/
theorem Block.number_consecutive (n : NodeId) :
    ∀ b : Block Span, Consecutive n (b.number n).1.nodes (b.number n).2
  | .mk _ ss => .cons rfl (Stmt.numberList_consecutive (n + 1) ss)

/-- The nodes of a numbered statement have consecutive numbers, in preorder. -/
theorem Stmt.number_consecutive (n : NodeId) :
    ∀ s : Stmt Span, Consecutive n (s.number n).1.nodes (s.number n).2
  | .declaration _ _ _ none => .leaf rfl
  | .declaration _ _ _ (some e) => .cons rfl (e.number_consecutive (n + 1))
  | .assignment _ t v =>
    .cons rfl ((t.number_consecutive (n + 1)).append (v.number_consecutive _))
  | .expression _ e => .cons rfl (e.number_consecutive (n + 1))
  | .block b => b.number_consecutive n
  | .branch _ c t none => by
    refine .cons rfl ((c.number_consecutive (n + 1)).append ?_)
    simpa [Stmt.number] using t.number_consecutive (c.number (n + 1)).2
  | .branch _ c t (some e) =>
    .cons rfl ((c.number_consecutive (n + 1)).append
      ((t.number_consecutive _).append (e.number_consecutive _)))
  | .loop _ h b => .cons rfl ((h.number_consecutive (n + 1)).append (b.number_consecutive _))
  | .ret _ none => .leaf rfl
  | .ret _ (some e) => .cons rfl (e.number_consecutive (n + 1))
  | .brk .. => .leaf rfl
  | .cont .. => .leaf rfl
  | .unknown .. => .leaf rfl

theorem Stmt.numberList_consecutive (n : NodeId) :
    ∀ ss : List (Stmt Span),
      Consecutive n (Stmt.nodesOfList (Stmt.numberList n ss).1) (Stmt.numberList n ss).2
  | [] => .nil n
  | s :: ss => (s.number_consecutive n).append (Stmt.numberList_consecutive _ ss)

theorem Stmt.numberClause_consecutive (n : NodeId) : ∀ o : Option (Stmt Span),
    Consecutive n ((numberClause Stmt.number n o).1.elim [] Stmt.nodes)
      (numberClause Stmt.number n o).2
  | none => .nil n
  | some s => s.number_consecutive n

theorem Expr.numberClause_consecutive (n : NodeId) : ∀ o : Option (Expr Span),
    Consecutive n ((numberClause Expr.number n o).1.elim [] Expr.nodes)
      (numberClause Expr.number n o).2
  | none => .nil n
  | some e => e.number_consecutive n

/-- The nodes of a numbered header have consecutive numbers, in preorder. -/
theorem Header.number_consecutive (n : NodeId) :
    ∀ h : Header Span, Consecutive n (h.number n).1.nodes (h.number n).2
  | .whileTrue _ c => .cons rfl (c.number_consecutive (n + 1))
  | .counting _ i c u => by
    rw [Header.number_counting, Header.nodes_counting]
    exact .cons rfl ((Stmt.numberClause_consecutive _ i).append
      ((Expr.numberClause_consecutive _ c).append (Stmt.numberClause_consecutive _ u)))
  | .forOf _ _ _ e => .cons rfl (e.number_consecutive (n + 1))
  | .unknown .. => .leaf rfl

end

/-! ## Everything else is kept -/

mutual

/-- Numbering changes nothing but the marks. -/
theorem Expr.number_map (n : NodeId) : ∀ e : Expr Span, (e.number n).1.map Mark.span = e
  | .literal .. => rfl
  | .name .. => rfl
  | .unary _ _ e => by simp [Expr.number, Expr.map, e.number_map]
  | .binary _ _ l r => by simp [Expr.number, Expr.map, l.number_map, r.number_map]
  | .call _ f _ => by simp [Expr.number, Expr.map, f.number_map, Expr.numberList_map]
  | .array .. => by simp [Expr.number, Expr.map, Expr.numberList_map]
  | .index _ b i => by simp [Expr.number, Expr.map, b.number_map, i.number_map]
  | .function _ _ b => by simp [Expr.number, Expr.map, b.number_map]
  | .signal _ _ none => rfl
  | .signal _ _ (some e) => by simp [Expr.number, Expr.map, e.number_map]
  | .signalIs _ e _ => by simp [Expr.number, Expr.map, e.number_map]
  | .signalValue _ e => by simp [Expr.number, Expr.map, e.number_map]
  | .unknown .. => rfl

theorem Expr.numberList_map (n : NodeId) :
    ∀ es : List (Expr Span), Expr.mapList Mark.span (Expr.numberList n es).1 = es
  | [] => rfl
  | e :: es => by simp [Expr.numberList, Expr.mapList, e.number_map, Expr.numberList_map]

/-- Numbering changes nothing but the marks of a block. -/
theorem Block.number_map (n : NodeId) : ∀ b : Block Span, (b.number n).1.map Mark.span = b
  | .mk .. => by simp [Block.number, Block.map, Stmt.numberList_map]

/-- Numbering changes nothing but the marks of a statement. -/
theorem Stmt.number_map (n : NodeId) : ∀ s : Stmt Span, (s.number n).1.map Mark.span = s
  | .declaration _ _ _ none => rfl
  | .declaration _ _ _ (some e) => by simp [Stmt.number, Stmt.map, e.number_map]
  | .assignment _ t v => by simp [Stmt.number, Stmt.map, t.number_map, v.number_map]
  | .expression _ e => by simp [Stmt.number, Stmt.map, e.number_map]
  | .block b => by simp [Stmt.number, Stmt.map, b.number_map]
  | .branch _ c t none => by simp [Stmt.number, Stmt.map, c.number_map, t.number_map]
  | .branch _ c t (some e) => by
    simp [Stmt.number, Stmt.map, c.number_map, t.number_map, e.number_map]
  | .loop _ h b => by simp [Stmt.number, Stmt.map, h.number_map, b.number_map]
  | .ret _ none => rfl
  | .ret _ (some e) => by simp [Stmt.number, Stmt.map, e.number_map]
  | .brk .. => rfl
  | .cont .. => rfl
  | .unknown .. => rfl

theorem Stmt.numberList_map (n : NodeId) :
    ∀ ss : List (Stmt Span), Stmt.mapList Mark.span (Stmt.numberList n ss).1 = ss
  | [] => rfl
  | s :: ss => by simp [Stmt.numberList, Stmt.mapList, s.number_map, Stmt.numberList_map]

theorem Stmt.numberClause_map (n : NodeId) : ∀ o : Option (Stmt Span),
    (numberClause Stmt.number n o).1.map (Stmt.map Mark.span) = o
  | none => rfl
  | some s => congrArg some (s.number_map n)

theorem Expr.numberClause_map (n : NodeId) : ∀ o : Option (Expr Span),
    (numberClause Expr.number n o).1.map (Expr.map Mark.span) = o
  | none => rfl
  | some e => congrArg some (e.number_map n)

/-- Numbering changes nothing but the marks of a header. -/
theorem Header.number_map (n : NodeId) : ∀ h : Header Span, (h.number n).1.map Mark.span = h
  | .whileTrue _ c => by simp [Header.number, Header.map, c.number_map]
  | .counting _ i c u => by
    rw [Header.number_counting, Header.map_counting, Stmt.numberClause_map _ i,
      Expr.numberClause_map _ c, Stmt.numberClause_map _ u]
  | .forOf _ _ _ e => by simp [Header.number, Header.map, e.number_map]
  | .unknown .. => rfl

end

/-! ## Functions -/

/-- The nodes of a numbered function have consecutive numbers, in preorder. -/
theorem FunctionDef.numberFrom_consecutive (n : NodeId) (fn : FunctionDef Span) :
    Consecutive n (fn.numberFrom n).1.nodes (fn.numberFrom n).2 :=
  .cons rfl (fn.body.number_consecutive (n + 1))

/-- No two nodes of a function have one number. -/
theorem FunctionDef.number_nodup (fn : FunctionDef Span) : (Node.ids fn.number.nodes).Nodup :=
  (fn.numberFrom_consecutive 1).nodup

/-- Without its numbers, a numbered function is the function itself. -/
theorem FunctionDef.number_map (fn : FunctionDef Span) : fn.number.map Mark.span = fn := by
  simp [FunctionDef.number, FunctionDef.numberFrom, FunctionDef.map, Block.number_map]

/-- Numbers do not matter for the shape of a function. -/
theorem FunctionDef.shaped_number {signals : Prop} (fn : FunctionDef Span) :
    fn.number.Shaped signals ↔ fn.Shaped signals := by
  have h : (fn.number.map Mark.span).Shaped signals ↔ fn.number.Shaped signals :=
    fn.number.body.shaped_map Mark.span
  rw [fn.number_map] at h
  exact h.symm

/-- Numbers a tree from `n` on. -/
def Node.number (n : NodeId) : Node Span → Node Mark × NodeId
  | .expr e => (.expr (e.number n).1, (e.number n).2)
  | .block b => (.block (b.number n).1, (b.number n).2)
  | .stmt s => (.stmt (s.number n).1, (s.number n).2)
  | .header h => (.header (h.number n).1, (h.number n).2)
  | .function fn => (.function (fn.numberFrom n).1, (fn.numberFrom n).2)

/-! ## Marks with numbers in preorder -/

section

open Consecutive

variable {κ : Type} (f : κ → Mark)

theorem Header.nodes_map_counting (a : κ) (i : Option (Stmt κ)) (c : Option (Expr κ))
    (u : Option (Stmt κ)) : ((Header.counting a i c u).map f).nodes =
      .header ((Header.counting a i c u).map f) ::
        (i.elim [] (fun s => (s.map f).nodes) ++
          (c.elim [] (fun e => (e.map f).nodes) ++ u.elim [] fun s => (s.map f).nodes)) := by
  cases i <;> cases c <;> cases u <;> exact Header.nodes_counting ..

mutual

/-- Marks whose numbers are consecutive in preorder are those that numbering gives. -/
theorem Expr.number_marked {n m : NodeId} : ∀ e : Expr κ, Consecutive n (e.map f).nodes m →
    (e.map fun k => (f k).span).number n = (e.map f, m)
  | .literal .., h | .name .., h | .signal _ _ none, h | .unknown .., h => by
    obtain ⟨rfl, -, h⟩ := of_cons h
    obtain rfl := h.of_nil
    rfl
  | .unary _ _ e, h | .signal _ _ (some e), h | .signalIs _ e _, h | .signalValue _ e, h => by
    obtain ⟨rfl, -, h⟩ := of_cons h
    simp only [Expr.map, Expr.number, e.number_marked h]
    rfl
  | .function _ _ b, h => by
    obtain ⟨rfl, -, h⟩ := of_cons h
    simp only [Expr.map, Expr.number, b.number_marked h]
    rfl
  | .binary _ _ l r, h | .index _ l r, h => by
    obtain ⟨rfl, -, h⟩ := of_cons h
    obtain ⟨k, hl, hr⟩ := of_append h
    simp only [Expr.map, Expr.number, l.number_marked hl, r.number_marked hr]
    rfl
  | .call _ g args, h => by
    obtain ⟨rfl, -, h⟩ := of_cons h
    obtain ⟨k, hg, hargs⟩ := of_append h
    simp only [Expr.map, Expr.number, g.number_marked hg, Expr.numberList_marked args hargs]
    rfl
  | .array _ es, h => by
    obtain ⟨rfl, -, h⟩ := of_cons h
    simp only [Expr.map, Expr.number, Expr.numberList_marked es h]
    rfl

theorem Expr.numberList_marked {n m : NodeId} : ∀ es : List (Expr κ),
    Consecutive n (Expr.nodesOfList (Expr.mapList f es)) m →
      Expr.numberList n (Expr.mapList (fun k => (f k).span) es) = (Expr.mapList f es, m)
  | [], h => by
    obtain rfl := h.of_nil
    rfl
  | e :: es, h => by
    obtain ⟨k, he, hes⟩ := of_append h
    simp only [Expr.mapList, Expr.numberList, e.number_marked he, Expr.numberList_marked es hes]

theorem Block.number_marked {n m : NodeId} : ∀ b : Block κ, Consecutive n (b.map f).nodes m →
    (b.map fun k => (f k).span).number n = (b.map f, m)
  | .mk _ ss, h => by
    obtain ⟨rfl, -, h⟩ := of_cons h
    simp only [Block.map, Block.number, Stmt.numberList_marked ss h]
    rfl

/-- A statement whose nodes already have consecutive numbers gets the same numbers again. -/
theorem Stmt.number_marked {n m : NodeId} : ∀ s : Stmt κ, Consecutive n (s.map f).nodes m →
    (s.map fun k => (f k).span).number n = (s.map f, m)
  | .declaration _ _ _ none, h | .ret _ none, h | .brk _, h | .cont _, h | .unknown .., h => by
    obtain ⟨rfl, -, h⟩ := of_cons h
    obtain rfl := h.of_nil
    rfl
  | .declaration _ _ _ (some e), h | .ret _ (some e), h | .expression _ e, h => by
    obtain ⟨rfl, -, h⟩ := of_cons h
    simp only [Stmt.map, Stmt.number, e.number_marked h]
    rfl
  | .assignment _ t v, h => by
    obtain ⟨rfl, -, h⟩ := of_cons h
    obtain ⟨k, ht, hv⟩ := of_append h
    simp only [Stmt.map, Stmt.number, t.number_marked ht, v.number_marked hv]
    rfl
  | .block b, h => by simp only [Stmt.map, Stmt.number, b.number_marked h]
  | .branch _ c t none, h => by
    obtain ⟨rfl, -, h⟩ := of_cons h
    obtain ⟨k, hc, h⟩ := of_append h
    obtain ⟨l, ht, h⟩ := of_append h
    obtain rfl := h.of_nil
    simp only [Stmt.map, Stmt.number, c.number_marked hc, t.number_marked ht]
    rfl
  | .branch _ c t (some e), h => by
    obtain ⟨rfl, -, h⟩ := of_cons h
    obtain ⟨k, hc, h⟩ := of_append h
    obtain ⟨l, ht, he⟩ := of_append h
    simp only [Stmt.map, Stmt.number, c.number_marked hc, t.number_marked ht, e.number_marked he]
    rfl
  | .loop _ hd b, h => by
    obtain ⟨rfl, -, h⟩ := of_cons h
    obtain ⟨k, hhd, hb⟩ := of_append h
    simp only [Stmt.map, Stmt.number, hd.number_marked hhd, b.number_marked hb]
    rfl

theorem Stmt.numberList_marked {n m : NodeId} : ∀ ss : List (Stmt κ),
    Consecutive n (Stmt.nodesOfList (Stmt.mapList f ss)) m →
      Stmt.numberList n (Stmt.mapList (fun k => (f k).span) ss) = (Stmt.mapList f ss, m)
  | [], h => by
    obtain rfl := h.of_nil
    rfl
  | s :: ss, h => by
    obtain ⟨k, hs, hss⟩ := of_append h
    simp only [Stmt.mapList, Stmt.numberList, s.number_marked hs, Stmt.numberList_marked ss hss]

theorem Stmt.numberClause_marked {n m : NodeId} : ∀ o : Option (Stmt κ),
    Consecutive n (o.elim [] fun s => (s.map f).nodes) m →
    numberClause Stmt.number n (o.map (Stmt.map fun k => (f k).span)) = (o.map (Stmt.map f), m)
  | none, h => by rw [of_nil h]; rfl
  | some s, h => by
    rw [Option.map_some, Option.map_some, numberClause, s.number_marked h]

theorem Expr.numberClause_marked {n m : NodeId} : ∀ o : Option (Expr κ),
    Consecutive n (o.elim [] fun e => (e.map f).nodes) m →
    numberClause Expr.number n (o.map (Expr.map fun k => (f k).span)) = (o.map (Expr.map f), m)
  | none, h => by rw [of_nil h]; rfl
  | some e, h => by
    rw [Option.map_some, Option.map_some, numberClause, e.number_marked h]

theorem Header.number_marked {n m : NodeId} : ∀ hd : Header κ, Consecutive n (hd.map f).nodes m →
    (hd.map fun k => (f k).span).number n = (hd.map f, m)
  | .whileTrue _ e, h | .forOf _ _ _ e, h => by
    obtain ⟨rfl, -, h⟩ := of_cons h
    simp only [Header.map, Header.number, e.number_marked h]
    rfl
  | .counting a i c u, h => by
    rw [Header.nodes_map_counting] at h
    obtain ⟨hn, -, h⟩ := of_cons h
    obtain rfl : n = (f a).id := hn
    obtain ⟨k, hi, h⟩ := of_append h
    obtain ⟨l, hc, hu⟩ := of_append h
    rw [Header.map_counting, Header.map_counting, Header.number_counting]
    simp only [Stmt.numberClause_marked i hi, Expr.numberClause_marked c hc,
      Stmt.numberClause_marked u hu]
  | .unknown .., h => by
    obtain ⟨rfl, -, h⟩ := of_cons h
    obtain rfl := h.of_nil
    rfl

end

/-- A node below which the numbers are consecutive gets the same numbers again. -/
theorem Node.number_marked {n m : NodeId} (x : Node κ) (h : Consecutive n (x.map f).nodes m) :
    (x.map fun k => (f k).span).number n = (x.map f, m) := by
  cases x with
  | expr e => simp only [map, number, e.number_marked f h]
  | block b => simp only [map, number, b.number_marked f h]
  | stmt s => simp only [map, number, s.number_marked f h]
  | header hd => simp only [map, number, hd.number_marked f h]
  | function fn =>
    obtain ⟨hn, -, h⟩ := of_cons h
    obtain rfl : n = (f fn.mark).id := hn
    have hbody := fn.body.number_marked f h
    simp only [map, number, FunctionDef.map, FunctionDef.numberFrom, hbody]

end

end FlatScope
