import Mathlib.Data.List.Nodup
import FlatScope.Proofs.Analysis
import FlatScope.Proofs.Numbering
import FlatScope.Proofs.Table

/-!
# Walks over a tree

A walk over a tree keeps a stack of the nodes that are still to be visited: it takes the top one,
visits it and puts its parts on the stack, the first one on top (`Node.traverse`). Every such walk
visits the nodes in preorder (`Node.traverse_eq`); the reason is that what is pending on a stack is
all that is below the nodes on it, those below the top one first.

* `Node.assign` gives numbers to the nodes in the order in which a walk comes to them, and passes
  over a node that has got one already. In a tree whose nodes are all different this is the
  numbering of the tree (`Node.assign_eq`, `Node.assignNumbers_eq`).
* `Node.subtreeIds` collects the numbers below a node, in whatever order: they are an interval that
  begins with the number of the node (`Node.Consecutive.subtree`, `Node.mem_subtreeIds`).
* `FunctionDef.collectWrappers` and `FunctionDef.collectPlans` find the wrappers and the plans of a
  function in the order of the text (`FunctionDef.collectWrappers_sorted`,
  `FunctionDef.collectPlans_eq`).

Together: numbers are positions in preorder (`Node.assignNumbers_inPreorder`).
-/

namespace FlatScope

namespace Node

variable {α : Type}

/-! ## Stacks of nodes -/

/-- The nodes that are still to be visited, in the order of the visits. -/
def pending (stack : List (Node α)) : List (Node α) := stack.flatMap Node.nodes

theorem pending_cons (x : Node α) (stack : List (Node α)) :
    pending (x :: stack) = x.canonical :: pending (x.children ++ stack) := by
  rw [pending, List.flatMap_cons, x.nodes_eq, List.cons_append, pending, List.flatMap_append]

theorem pending_reverse (x : Node α) (stack : List (Node α)) :
    (pending (x.children.reverse ++ stack)).Perm (pending (x.children ++ stack)) :=
  ((List.reverse_perm x.children).append_right stack).flatMap_right Node.nodes

/-- Visits the nodes on a stack and below. -/
def traverse {σ : Type} (visit : σ → Node α → σ) (s : σ) : List (Node α) → σ
  | [] => s
  | x :: stack => traverse visit (visit s x) (x.children ++ stack)
termination_by stack => (pending stack).length
decreasing_by rw [pending_cons, List.length_cons]; exact Nat.lt_succ_self _

/-- Gives the nodes on a stack and below, which are told apart by their marks, the numbers from
    `next` on, unless they have one; returns all numbers and the next one that is free. -/
def assign [DecidableEq α] (ids : List (α × NodeId)) (next : NodeId) :
    List (Node α) → List (α × NodeId) × NodeId
  | [] => (ids, next)
  | x :: stack =>
    if (ids.lookup x.mark).isSome then assign ids next stack
    else assign (ids ++ [(x.mark, next)]) (next + 1) (x.children ++ stack)
termination_by stack => (pending stack).length
decreasing_by
  · rw [pending, pending, List.flatMap_cons, List.length_append, x.nodes_eq, List.length_cons]
    omega
  · rw [pending_cons, List.length_cons]
    exact Nat.lt_succ_self _

/-- Collects the numbers of the nodes on a stack and below; of the parts of a node the last one is
    visited first. -/
def collectIds (ids : List NodeId) : List (Node Mark) → List NodeId
  | [] => ids
  | x :: stack => collectIds (ids.insert x.mark.id) (x.children.reverse ++ stack)
termination_by stack => (pending stack).length
decreasing_by
  rw [pending_cons, List.length_cons, (pending_reverse x stack).length_eq]
  exact Nat.lt_succ_self _

/-- The numbers of a node and of the nodes below. -/
def subtreeIds (x : Node Mark) : List NodeId := collectIds [] [x]

/-! ## Every walk goes in preorder -/

theorem canonical_eq_of_append {x : Node α} {stack : List (Node α)}
    (h : ∀ y ∈ stack, y.canonical = y) : ∀ y ∈ x.children ++ stack, y.canonical = y := by
  intro y hy
  rcases List.mem_append.1 hy with hy | hy
  · exact x.canonical_of_mem_children y hy
  · exact h y hy

/-- What a walk makes of the nodes on a stack is what visiting the pending ones in turn makes of
    them. -/
theorem traverse_pending {σ : Type} (visit : σ → Node α → σ) (s : σ) (stack : List (Node α))
    (h : ∀ x ∈ stack, x.canonical = x) :
    traverse visit s stack = (pending stack).foldl visit s := by
  fun_induction traverse visit s stack with
  | case1 s => rfl
  | case2 s x stack ih =>
    rw [List.forall_mem_cons] at h
    rw [ih (canonical_eq_of_append h.2), pending_cons, h.1, List.foldl_cons]

/-- A walk over a tree visits its nodes in preorder. -/
theorem traverse_eq {σ : Type} (visit : σ → Node α → σ) (s : σ) (x : Node α) :
    traverse visit s [x] = (x :: pending x.children).foldl visit s := by
  rw [traverse, List.append_nil, traverse_pending _ _ _ x.canonical_of_mem_children,
    List.foldl_cons]

/-- The nodes of a tree in the order in which a walk visits them. -/
def visited (x : Node α) : List (Node α) := traverse (fun xs y => xs ++ [y]) [] [x]

theorem visited_eq (x : Node α) : x.visited = x :: pending x.children := by
  rw [visited, traverse_eq, List.foldl_append_eq_append, List.nil_append, ← List.flatMap_def,
    List.flatMap_singleton']

theorem map_visited (x : Node α) : x.visited.map mark = x.nodes.map mark := by
  rw [x.visited_eq, x.nodes_eq, List.map_cons, List.map_cons, x.canonical_mark, pending]

/-! ## Numbers in the order of a walk -/

theorem map_mark_pending (x : Node α) (stack : List (Node α)) :
    (pending (x :: stack)).map mark = x.mark :: (pending (x.children ++ stack)).map mark := by
  rw [pending_cons, List.map_cons, x.canonical_mark]

/-- The pending nodes are numbered in turn, if they are different from each other and from those
    that have a number. -/
theorem assign_pending [DecidableEq α] (ids : List (α × NodeId)) (next : NodeId)
    (stack : List (Node α)) (h : (ids.map (·.1) ++ (pending stack).map mark).Nodup) :
    assign ids next stack =
      (ids ++ ((pending stack).map mark).zip (List.range' next (pending stack).length),
        next + (pending stack).length) := by
  fun_induction assign ids next stack with
  | case1 ids next => simp [pending]
  | case2 ids next x stack hx ih =>
    -- A node that has a number already would be pending nevertheless.
    rw [map_mark_pending] at h
    have hmem : x.mark ∈ ids.map (·.1) := Table.exists_lookup.1 (Option.isSome_iff_exists.1 hx)
    exact absurd rfl ((List.nodup_append.1 h).2.2 _ hmem _ List.mem_cons_self)
  | case3 ids next x stack hx ih =>
    rw [map_mark_pending] at h ⊢
    rw [ih (by simpa using h), pending_cons, List.length_cons, List.range'_succ, List.zip_cons_cons,
      List.append_assoc, List.singleton_append, Nat.add_right_comm, Nat.add_assoc]

/-- Numbers from `start` on for a tree whose nodes are told apart by their marks: its nodes get them
    in preorder. -/
theorem assign_eq [DecidableEq α] (x : Node α) (start : NodeId) (h : (x.nodes.map mark).Nodup) :
    assign [] start [x] =
      ((x.nodes.map mark).zip (List.range' start x.nodes.length), start + x.nodes.length) := by
  rw [assign_pending [] start [x] (by simpa [pending] using h), pending, List.flatMap_singleton,
    List.nil_append]

end Node

/-! ## Intervals of numbers -/

namespace Node

namespace Consecutive

theorem of_flatMap {xs : List (Node Mark)} {c : Node Mark} {n m : Nat}
    (h : Consecutive n (xs.flatMap Node.nodes) m) (hc : c ∈ xs) :
    ∃ k l, Consecutive k c.nodes l := by
  obtain ⟨ys, zs, rfl⟩ := List.append_of_mem hc
  rw [List.flatMap_append, List.flatMap_cons] at h
  obtain ⟨k, -, h⟩ := of_append h
  obtain ⟨l, h, -⟩ := of_append h
  exact ⟨k, l, h⟩

/-- The numbers of a tree begin with that of its root, and there are as many as nodes. -/
theorem root {x : Node Mark} {n m : Nat} (h : Consecutive n x.nodes m) :
    n = x.mark.id ∧ m = n + x.nodes.length := by
  have hlen : x.nodes.length = m - n := by simpa [Node.ids] using congrArg List.length h.2
  refine ⟨?_, by have := h.le; omega⟩
  rw [x.nodes_eq] at h
  rw [(of_cons h).1, x.canonical_mark]

/-- The numbers of a node of a tree and of the nodes below are an interval. -/
theorem subtree {x y : Node Mark} {n m : Nat} (h : Consecutive n x.nodes m) (hy : y ∈ x.nodes) :
    Consecutive y.mark.id y.nodes (y.mark.id + y.nodes.length) := by
  induction x using Node.children_induction generalizing n m with
  | h x ih =>
    rcases List.mem_cons.1 (x.nodes_eq ▸ hy) with rfl | hy'
    · obtain ⟨rfl, rfl⟩ := h.root
      rwa [x.canonical_mark, x.canonical_nodes]
    · obtain ⟨c, hc, hyc⟩ := List.mem_flatMap.1 hy'
      rw [x.nodes_eq] at h
      obtain ⟨k, l, hk⟩ := (of_cons h).2.2.of_flatMap hc
      exact ih c hc hk hyc

/-- A node has a smaller number than the nodes below. -/
theorem below {x c y : Node Mark} {n m : Nat} (h : Consecutive n x.nodes m) (hc : c ∈ x.children)
    (hy : y ∈ c.nodes) : x.mark.id < y.mark.id := by
  rw [x.nodes_eq] at h
  obtain ⟨rfl, -, h⟩ := of_cons h
  rw [x.canonical_mark] at h
  exact (h.mem.1 (List.mem_map_of_mem (List.mem_flatMap.2 ⟨c, hc, hy⟩))).1

end Consecutive

theorem mem_collectIds {i : NodeId} (ids : List NodeId) (stack : List (Node Mark)) :
    i ∈ collectIds ids stack ↔ i ∈ ids ∨ i ∈ Node.ids (pending stack) := by
  fun_induction collectIds ids stack with
  | case1 ids => simp [pending]
  | case2 ids x stack ih =>
    have hperm : i ∈ Node.ids (pending (x.children.reverse ++ stack)) ↔
        i ∈ Node.ids (pending (x.children ++ stack)) :=
      ((pending_reverse x stack).map (·.mark.id)).mem_iff
    rw [ih, hperm, List.mem_insert_iff, pending_cons, ids_cons, List.mem_cons, x.canonical_mark,
      or_assoc, or_left_comm]

/-- Collected are the numbers of the nodes of the tree. -/
theorem mem_subtreeIds {x : Node Mark} {i : NodeId} : i ∈ x.subtreeIds ↔ i ∈ Node.ids x.nodes := by
  rw [subtreeIds, mem_collectIds, pending, List.flatMap_singleton]
  simp

end Node

/-- A node of a function has a smaller number than what is below it. -/
theorem FunctionDef.Analysed.lt_below {fn : FunctionDef Mark} {globals : List Name} {a : Analysis}
    (h : fn.Analysed globals a) {x y : Node Mark} (hx : x ∈ fn.nodes) (hy : y ∈ x.nodes.tail) :
    x.mark.id < y.mark.id := by
  obtain ⟨m, hm⟩ := h.numbered
  have hsub := Node.Consecutive.subtree (x := .function fn) hm hx
  cases hnodes : x.nodes with
  | nil => rw [hnodes] at hy; cases hy
  | cons z zs =>
    rw [hnodes] at hsub hy
    exact (hsub.of_cons.2.2.mem.1 (List.mem_map_of_mem hy)).1

/-! ## Wrappers and plans in the order of the text -/

/-- A table with a value for a key, in the place of the one before if there is one. -/
def Table.put {α β : Type} [DecidableEq α] (t : List (α × β)) (x : α) (y : β) : List (α × β) :=
  if (t.lookup x).isSome then t.map fun p => if p.1 = x then (x, y) else p else t ++ [(x, y)]

theorem Table.put_new {α β : Type} [DecidableEq α] {t : List (α × β)} {x : α}
    (h : x ∉ t.map (·.1)) (y : β) : Table.put t x y = t ++ [(x, y)] := by
  rw [Table.put, Table.lookup_eq_none.2 h]
  rfl

/-- Puts the value of a node, if it has one, into a table under the number of the node. -/
def Node.record {β : Type} (f : Node Mark → Option β) (t : List (NodeId × β)) (x : Node Mark) :
    List (NodeId × β) :=
  match f x with
  | none => t
  | some y => Table.put t x.mark.id y

/-- Nodes with different numbers have their values in the table in the order of the visits. -/
theorem Node.foldl_record {β : Type} (f : Node Mark → Option β) (t : List (NodeId × β))
    (xs : List (Node Mark)) (h : (t.map (·.1) ++ Node.ids xs).Nodup) :
    xs.foldl (record f) t = t ++ xs.filterMap fun x => (f x).map fun y => (x.mark.id, y) := by
  induction xs generalizing t with
  | nil => simp
  | cons x xs ih =>
    rw [ids_cons] at h
    rw [List.foldl_cons, List.filterMap_cons]
    cases hx : f x with
    | none =>
      rw [record, hx]
      exact ih t (h.sublist (List.Sublist.append_left (List.sublist_cons_self ..) _))
    | some y =>
      have hnew : x.mark.id ∉ t.map (·.1) := fun hmem =>
        absurd rfl ((List.nodup_append.1 h).2.2 _ hmem _ List.mem_cons_self)
      rw [record, hx, Option.map_some]
      dsimp only
      rw [Table.put_new hnew, ih _ (by simpa using h), List.append_assoc, List.singleton_append]

/-- The values of nodes are in the order of the numbers of their nodes. -/
theorem Node.map_filterMap_sublist {β : Type} {f : Node Mark → Option β} {g : β → NodeId}
    (hf : ∀ x y, f x = some y → g y = x.mark.id) (xs : List (Node Mark)) :
    ((xs.filterMap f).map g).Sublist (Node.ids xs) := by
  induction xs with
  | nil => exact .slnil
  | cons x xs ih =>
    rw [List.filterMap_cons, ids_cons]
    cases hx : f x with
    | none => exact ih.cons _
    | some y =>
      dsimp only
      rw [List.map_cons, hf x y hx]
      exact ih.cons_cons _

/-- Values of two sorts, of which a node has one at most. -/
theorem filterMap_or_perm {α β : Type} {f g : α → Option β} (h : ∀ x, f x = none ∨ g x = none)
    (xs : List α) :
    (xs.filterMap f ++ xs.filterMap g).Perm (xs.filterMap fun x => (f x).or (g x)) := by
  induction xs with
  | nil => exact .nil
  | cons x xs ih =>
    simp only [List.filterMap_cons]
    cases hf : f x with
    | none =>
      cases g x with
      | none => exact ih
      | some y => exact List.perm_middle.trans (ih.cons y)
    | some y =>
      rw [(h x).resolve_left (by simp [hf])]
      exact ih.cons y

namespace Scoping

variable (a : Scoping)

/-- The wrapper of a node that is a block. -/
def blockWrapperAt? : Node Mark → Option Wrapper
  | .block b => a.blockWrapper? b
  | _ => none

/-- The wrapper of a node that is a loop. -/
def loopWrapperAt? : Node Mark → Option Wrapper
  | .stmt (.loop m _ b) => a.loopWrapper? m.id b
  | _ => none

theorem wrapperAt?_eq_none (x : Node Mark) : a.blockWrapperAt? x = none ∨
    a.loopWrapperAt? x = none := by
  cases x with
  | block b => exact .inr rfl
  | _ => exact .inl rfl

theorem wrapper?_eq (x : Node Mark) :
    a.wrapper? x = (a.blockWrapperAt? x).or (a.loopWrapperAt? x) := by
  cases x with
  | block b => exact (Option.or_none).symm
  | stmt s => cases s <;> rfl
  | _ => rfl

/-- The plan of a node that is a loop. -/
def loopPlanAt? (wrappers : List Wrapper) (hoisting : Bool) : Node Mark → Option LoopPlan
  | .stmt (.loop m h b) => some (a.planLoop wrappers hoisting m.id h b)
  | _ => none

theorem planLoop_loop (wrappers : List Wrapper) (hoisting : Bool) (loop : NodeId) (h : Header Mark)
    (b : Block Mark) : (a.planLoop wrappers hoisting loop h b).loop = loop := by
  unfold planLoop
  cases wrappers.find? (·.node = loop) <;> rfl

theorem loopPlanAt?_loop {wrappers : List Wrapper} {hoisting : Bool} (x : Node Mark) (p : LoopPlan)
    (h : a.loopPlanAt? wrappers hoisting x = some p) : p.loop = x.mark.id := by
  unfold loopPlanAt? at h
  split at h
  · cases h
    exact a.planLoop_loop ..
  · cases h

end Scoping

/-- The wrappers found so far, those of blocks and those of loops. -/
structure FoundWrappers where
  blocks : List (NodeId × Wrapper)
  loops : List (NodeId × Wrapper)

namespace FoundWrappers

/-- Adds the wrapper of a node, if it has one. -/
def visit (a : Scoping) (t : FoundWrappers) (x : Node Mark) : FoundWrappers :=
  ⟨Node.record a.blockWrapperAt? t.blocks x, Node.record a.loopWrapperAt? t.loops x⟩

/-- All wrappers, sorted by the numbers of their nodes. -/
def sorted (t : FoundWrappers) : List Wrapper :=
  ((t.blocks ++ t.loops).map (·.2)).mergeSort fun v w => v.node ≤ w.node

theorem foldl_visit (a : Scoping) (t : FoundWrappers) (xs : List (Node Mark)) :
    xs.foldl (visit a) t = ⟨xs.foldl (Node.record a.blockWrapperAt?) t.blocks,
      xs.foldl (Node.record a.loopWrapperAt?) t.loops⟩ := by
  induction xs generalizing t with
  | nil => rfl
  | cons x xs ih => exact ih (visit a t x)

end FoundWrappers

namespace FunctionDef

open Node

variable (fn : FunctionDef Mark) (a : Scoping)

/-- Finds the wrappers of a function by a walk over it. -/
def collectWrappers : FoundWrappers :=
  Node.traverse (FoundWrappers.visit a) ⟨[], []⟩ [.function fn]

/-- Finds the plans of the loops of a function by a walk over it. -/
def collectPlans (wrappers : List Wrapper) (hoisting : Bool) : List (NodeId × LoopPlan) :=
  Node.traverse (Node.record (a.loopPlanAt? wrappers hoisting)) [] [.function fn]

variable {fn a}

theorem visited_eq : (Node.function fn).visited = fn.nodes := by
  rw [Node.visited_eq]
  exact (Node.function fn).nodes_eq.symm

/-- A walk finds the values of the nodes of a function in the order of the text. -/
theorem traverse_record {β : Type} {f : Node Mark → Option β} {n m : Nat}
    (h : Consecutive n fn.nodes m) :
    Node.traverse (Node.record f) [] [.function fn] =
      fn.nodes.filterMap fun x => (f x).map fun y => (x.mark.id, y) := by
  rw [traverse_eq, ← Node.visited_eq, visited_eq, foldl_record f [] fn.nodes
    (by simpa using h.nodup), List.nil_append]

/-- The numbers of values of nodes increase in the order of the text. -/
theorem ascending_filterMap {β : Type} {f : Node Mark → Option β} {g : β → NodeId} {n m : Nat}
    (h : Consecutive n fn.nodes m) (hf : ∀ x y, f x = some y → g y = x.mark.id) :
    ((fn.nodes.filterMap f).map g).Pairwise (· < ·) :=
  List.Pairwise.sublist (map_filterMap_sublist hf _) (h.2 ▸ List.pairwise_lt_range')

theorem wrappers_ascending {n m : Nat} (h : Consecutive n fn.nodes m) :
    ((fn.wrappers a).map (·.node)).Pairwise (· < ·) :=
  ascending_filterMap h fun _ _ => Scoping.wrapper?_node

theorem loopPlans_ascending {wrappers : List Wrapper} {hoisting : Bool} {n m : Nat}
    (h : Consecutive n fn.nodes m) :
    ((fn.loopPlans a wrappers hoisting).map (·.loop)).Pairwise (· < ·) :=
  ascending_filterMap (f := a.loopPlanAt? wrappers hoisting) h a.loopPlanAt?_loop

/-- Found are the wrappers of the function. -/
theorem collectWrappers_perm {n m : Nat} (h : Consecutive n fn.nodes m) :
    (((fn.collectWrappers a).blocks ++ (fn.collectWrappers a).loops).map (·.2)).Perm
      (fn.wrappers a) := by
  have hfound : fn.collectWrappers a =
      ⟨Node.traverse (Node.record a.blockWrapperAt?) [] [.function fn],
        Node.traverse (Node.record a.loopWrapperAt?) [] [.function fn]⟩ := by
    rw [collectWrappers, traverse_eq, FoundWrappers.foldl_visit, traverse_eq, traverse_eq]
  have hvalues : ∀ f : Node Mark → Option Wrapper,
      (fn.nodes.filterMap fun x => (f x).map fun y => (x.mark.id, y)).map (·.2) =
        fn.nodes.filterMap f := fun f => by
    rw [List.map_filterMap]
    exact congrArg (fn.nodes.filterMap ·) (funext fun x => by cases f x <;> rfl)
  rw [hfound, List.map_append, traverse_record h, traverse_record h, hvalues, hvalues, wrappers,
    funext a.wrapper?_eq]
  exact filterMap_or_perm a.wrapperAt?_eq_none _

/-- Sorted by their numbers they are in the order of the text. -/
theorem collectWrappers_sorted {n m : Nat} (h : Consecutive n fn.nodes m) :
    (fn.collectWrappers a).sorted = fn.wrappers a := by
  have hasc := fn.wrappers_ascending (a := a) h
  have hperm := (List.mergeSort_perm _ fun v w : Wrapper => v.node ≤ w.node).trans
    (fn.collectWrappers_perm (a := a) h)
  have htrans : ∀ u v w : Wrapper, decide (u.node ≤ v.node) → decide (v.node ≤ w.node) →
      decide (u.node ≤ w.node) := fun _ _ _ huv hvw =>
    decide_eq_true (Nat.le_trans (of_decide_eq_true huv) (of_decide_eq_true hvw))
  have htotal : ∀ v w : Wrapper, decide (v.node ≤ w.node) || decide
    (w.node ≤ v.node) := fun v w => by
    simpa using Nat.le_total v.node w.node
  have hsorted : (fn.collectWrappers a).sorted.Pairwise fun v w => v.node ≤ w.node :=
    (List.pairwise_mergeSort htrans htotal _).imp of_decide_eq_true
  refine List.Perm.eq_of_pairwise (fun v w hv hw hvw hwv => ?_) hsorted
    ((List.pairwise_map.1 hasc).imp Nat.le_of_lt) hperm
  -- Two wrappers of one number are of one node.
  exact List.inj_on_of_nodup_map (hasc.imp Nat.ne_of_lt) (hperm.mem_iff.1 hv) hw
    (Nat.le_antisymm hvw hwv)

/-- The plans are found in the order of the text. -/
theorem collectPlans_eq {wrappers : List Wrapper} {hoisting : Bool} {n m : Nat}
    (h : Consecutive n fn.nodes m) :
    fn.collectPlans a wrappers hoisting =
      (fn.loopPlans a wrappers hoisting).map fun p => (p.loop, p) := by
  have hplans : fn.loopPlans a wrappers hoisting =
      fn.nodes.filterMap (a.loopPlanAt? wrappers hoisting) := rfl
  rw [collectPlans, traverse_record h, hplans, List.map_filterMap]
  refine List.filterMap_congr fun x _ => ?_
  cases hp : a.loopPlanAt? wrappers hoisting x with
  | none => rfl
  | some p => rw [Option.map_some, Option.map_some, a.loopPlanAt?_loop x p hp]

end FunctionDef

/-! ## The numbers of a tree -/

namespace Node

/-- Numbers a tree, whose nodes are told apart by their marks, by a walk over it. A node that the
    walk did not come to would keep the number 0. -/
def assignNumbers {κ : Type} [DecidableEq κ] (place : κ → Span) (start : NodeId) (root : Node κ) :
    Node Mark × NodeId :=
  let (ids, next) := assign [] start [root]
  (root.map fun k => ⟨(ids.lookup k).getD 0, place k⟩, next)

theorem ids_map {κ : Type} (f : κ → Mark) (x : Node κ) :
    Node.ids (x.map f).nodes = (x.nodes.map mark).map fun k => (f k).id := by
  rw [Node.ids, nodes_map, List.map_map, List.map_map]
  exact List.map_congr_left fun y _ => congrArg Mark.id (y.mark_map f)

/-- The first of two lists looks up the second one. -/
theorem map_lookup_zip {κ : Type} [DecidableEq κ] {ks : List κ} {is : List NodeId} (h : ks.Nodup)
    (hlen : ks.length = is.length) : ks.map (fun k => ((ks.zip is).lookup k).getD 0) = is := by
  refine List.ext_getElem (by simpa using hlen) fun i hi hi' => ?_
  have hk : i < ks.length := by simpa using hi
  have hmem : (ks[i], is[i]) ∈ ks.zip is := List.mem_iff_getElem.2 ⟨i, by simp; omega, by simp⟩
  have hkeys : (ks.zip is).map (·.1) = ks := List.map_fst_zip (Nat.le_of_eq hlen)
  rw [List.getElem_map, Table.lookup_of_mem (hkeys.symm ▸ h) hmem]
  rfl

/-- The numbers that a walk assigns are those of the numbering. -/
theorem assignNumbers_eq {κ : Type} [DecidableEq κ] (place : κ → Span) (start : NodeId)
    (root : Node κ) (h : (root.nodes.map mark).Nodup) :
    root.assignNumbers place start = (root.map place).number start ∧
      Consecutive start (root.assignNumbers place start).1.nodes (start + root.nodes.length) ∧
      (root.assignNumbers place start).2 = start + root.nodes.length := by
  rw [assignNumbers, assign_eq root start h]
  dsimp only
  have hids := map_lookup_zip h (List.length_map mark ▸ List.length_range'.symm :
    (root.nodes.map mark).length = (List.range' start root.nodes.length).length)
  have hcons : Consecutive start (root.map fun k =>
      ⟨(((root.nodes.map mark).zip (List.range' start root.nodes.length)).lookup k).getD 0,
        place k⟩).nodes (start + root.nodes.length) := by
    refine ⟨by omega, ?_⟩
    rw [ids_map, Nat.add_sub_cancel_left]
    exact hids
  exact ⟨(root.number_marked _ hcons).symm, hcons, rfl⟩

/-- The numbers of a tree are those of its nodes in preorder. -/
structure InPreorder (root : Node Mark) (start : NodeId) : Prop where
  /-- The nodes have the numbers from `start` on, in the order in which a tree is read. -/
  ids : Node.ids root.nodes = List.range' start root.nodes.length
  /-- This is the order in which walks visit them. -/
  visited : Node.ids root.visited = List.range' start root.nodes.length
  traverse : ∀ (σ : Type) (visit : σ → Node Mark → σ) (s : σ),
    Node.traverse visit s [root] = root.visited.foldl visit s
  /-- A node has a smaller number than those below. -/
  below : ∀ x ∈ root.nodes, ∀ c ∈ x.children, ∀ y ∈ c.nodes, x.mark.id < y.mark.id
  /-- The numbers of a node and those below are an interval. -/
  interval : ∀ x ∈ root.nodes, Node.ids x.nodes = List.range' x.mark.id x.nodes.length
  /-- This is the set that is collected. -/
  subtreeIds : ∀ x ∈ root.nodes, ∀ i,
    i ∈ x.subtreeIds ↔ x.mark.id ≤ i ∧ i < x.mark.id + x.nodes.length

theorem Consecutive.inPreorder {root : Node Mark} {n m : Nat} (h : Consecutive n root.nodes m) :
    root.InPreorder n where
  ids := by rw [h.2, h.root.2, Nat.add_sub_cancel_left]
  visited := by
    have hids : Node.ids root.visited = Node.ids root.nodes := by
      have hmap := congrArg (List.map Mark.id) root.map_visited
      rwa [List.map_map, List.map_map] at hmap
    rw [hids, h.2, h.root.2, Nat.add_sub_cancel_left]
  traverse σ visit s := by rw [traverse_eq, visited_eq]
  below x hx c hc y hy := (h.subtree hx).below hc hy
  interval x hx := by rw [(h.subtree hx).2, Nat.add_sub_cancel_left]
  subtreeIds x hx i := by rw [mem_subtreeIds, (h.subtree hx).mem]

end Node

/-- Walks find the wrappers of a function and the plans of its loops in the order of the text, which
    is that of the numbers of their nodes. -/
structure FunctionDef.FindsInOrder (fn : FunctionDef Mark) (a : Scoping) (ws : List Wrapper)
    (hoisting : Bool) : Prop where
  wrappers : (fn.collectWrappers a).sorted = fn.wrappers a
  wrappersAscend : ((fn.wrappers a).map (·.node)).Pairwise (· < ·)
  plans : fn.collectPlans a ws hoisting = (fn.loopPlans a ws hoisting).map fun p => (p.loop, p)
  plansAscend : ((fn.loopPlans a ws hoisting).map (·.loop)).Pairwise (· < ·)

/-- Numbers are positions in preorder. In a tree of different nodes, which are told apart by their
    marks, the walk that numbers it from `start` on comes to all nodes in preorder, so it gives them
    consecutive numbers; these are the numbers that the analyses of a function rely on. -/
theorem Node.assignNumbers_inPreorder {κ : Type} [DecidableEq κ] (place : κ → Span) (start : NodeId)
    (root : Node κ) (h : (root.nodes.map Node.mark).Nodup) :
    Node.assign [] start [root] =
        ((root.nodes.map Node.mark).zip (List.range' start root.nodes.length),
          start + root.nodes.length) ∧
      root.assignNumbers place start = (root.map place).number start ∧
      (root.assignNumbers place start).1.InPreorder start ∧
      (root.assignNumbers place start).2 = start + root.nodes.length ∧
      ∀ fn, (root.assignNumbers place start).1 = .function fn →
        ∀ a ws hoisting, fn.FindsInOrder a ws hoisting := by
  obtain ⟨hnumber, hcons, hnext⟩ := assignNumbers_eq place start root h
  refine ⟨assign_eq root start h, hnumber, hcons.inPreorder, hnext, fun fn hfn a ws hoisting => ?_⟩
  rw [hfn] at hcons
  exact ⟨fn.collectWrappers_sorted hcons, fn.wrappers_ascending hcons, fn.collectPlans_eq hcons,
    fn.loopPlans_ascending hcons⟩

/-- The function `function f(n) { while (n) { let x = n; g(function () { return x; }); } }`. -/
def keyedLoop : FunctionDef Nat :=
  ⟨31, "f", ["n"], .mk 4 [.loop 15 (.whileTrue 92 (.name 65 "n"))
    (.mk 35 [.declaration 89 "x" .letVar (some (.name 79 "n")),
      .expression 32 (.call 38 (.name 46 "g")
        [.function 26 [] (.mk 43 [.ret 83 (some (.name 27 "x"))])])])]⟩

/-- The theorem for a function of 15 nodes with one wrapper. -/
theorem Node.assignNumbers_inPreorder_keyedLoop :
    ((Node.function keyedLoop).nodes.map Node.mark).Nodup ∧ ∃ fn a,
      (Node.function keyedLoop).assignNumbers (fun _ => .unknown) 1 = (.function fn, 16) ∧
        fn.resolve ["g"] = .ok a ∧ (fn.wrappers a).map (·.node) = [3] ∧
        (Node.function fn).InPreorder 1 ∧
        fn.FindsInOrder a (fn.wrappers a) true := by
  have hdistinct : ((Node.function keyedLoop).nodes.map Node.mark).Nodup := by decide
  obtain ⟨-, hnumber, hpre, -, hfinds⟩ :=
    Node.assignNumbers_inPreorder (fun _ => .unknown) 1 (.function keyedLoop) hdistinct
  have hfn : (Node.function keyedLoop).assignNumbers (fun _ => .unknown) 1 =
      (.function (keyedLoop.map fun _ => .unknown).number, 16) := hnumber
  rw [hfn] at hpre
  exact ⟨hdistinct, _, _, hfn, rfl, rfl, hpre, hfinds _ (by rw [hfn]) _ _ _⟩

end FlatScope
