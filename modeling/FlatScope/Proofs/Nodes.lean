import FlatScope.Syntax.Map
import FlatScope.Syntax.Nodes

/-!
# The nodes of trees

The nodes of a node are the node itself and those of its parts (`Node.nodes_eq`), so what is passed
on from the parts of a node to the node holds of all nodes (`Node.children_induction`).

Changing the marks of a tree changes those of its nodes, one by one and in place
(`Node.nodes_map`).
-/

namespace FlatScope

variable {α β : Type}

/-- The nodes of the header of a `for` are those of the clauses that there are. -/
theorem Header.nodes_counting (a : α) (i : Option (Stmt α)) (c : Option (Expr α))
    (u : Option (Stmt α)) : (Header.counting a i c u).nodes =
      .header (.counting a i c u) ::
        (i.elim [] Stmt.nodes ++ (c.elim [] Expr.nodes ++ u.elim [] Stmt.nodes)) := by
  cases i <;> cases c <;> cases u <;> rw [Header.nodes] <;> rfl

/-- The nodes of a header are nodes of the loop. -/
theorem Stmt.mem_nodes_header {m b : α} {h : Header α} {ss : List (Stmt α)} {x : Node α}
    (hx : x ∈ h.nodes) : x ∈ (Stmt.loop m h (.mk b ss)).nodes :=
  List.mem_cons_of_mem _ (List.mem_append_left _ hx)

/-- The nodes of the statements in its body are nodes of the loop. -/
theorem Stmt.mem_nodes_body {m b : α} {h : Header α} {ss : List (Stmt α)} {x : Node α}
    (hx : x ∈ Stmt.nodesOfList ss) : x ∈ (Stmt.loop m h (.mk b ss)).nodes :=
  List.mem_cons_of_mem _ (List.mem_append_right _ (List.mem_cons_of_mem _ hx))

/-- The nodes of a node and below it in preorder. -/
def Node.nodes : Node α → List (Node α)
  | .expr e => e.nodes
  | .block b => b.nodes
  | .stmt s => s.nodes
  | .header h => h.nodes
  | .function fn => fn.nodes

/-- The nodes of a list of expressions are those of its members, in order. -/
theorem Expr.nodesOfList_eq (es : List (Expr α)) :
    Expr.nodesOfList es = (es.map Node.expr).flatMap Node.nodes := by
  induction es with
  | nil => rfl
  | cons e es ih => exact congrArg (e.nodes ++ ·) ih

theorem Stmt.node_nodes (s : Stmt α) : s.node.nodes = s.nodes := by cases s <;> rfl

/-- The nodes of a list of statements are those of its members, in order. -/
theorem Stmt.nodesOfList_eq (ss : List (Stmt α)) :
    Stmt.nodesOfList ss = (ss.map Stmt.node).flatMap Node.nodes := by
  induction ss with
  | nil => rfl
  | cons s ss ih => rw [Stmt.nodesOfList, ih, List.map_cons, List.flatMap_cons, s.node_nodes]

/-- The node itself; a block that stands as a statement is the node of the block. -/
def Node.canonical : Node α → Node α
  | .stmt s => s.node
  | x => x

theorem Node.canonical_mark (x : Node α) : x.canonical.mark = x.mark := by
  cases x with
  | stmt s => cases s <;> rfl
  | _ => rfl

/-- The nodes of a node are the node itself and those of its children. -/
theorem Node.nodes_eq (x : Node α) : x.nodes = x.canonical :: x.children.flatMap Node.nodes := by
  cases x with
  | expr e =>
    cases e with
    | call m f args => simp [Node.nodes, Expr.nodes, Node.children, Expr.nodesOfList_eq, canonical]
    | array m es => simp [Node.nodes, Expr.nodes, Node.children, Expr.nodesOfList_eq, canonical]
    | signal m k v => cases v <;> simp [Node.nodes, Expr.nodes, Node.children, canonical]
    | _ => simp [Node.nodes, Expr.nodes, Node.children, canonical]
  | block b =>
    cases b
    simp [Node.nodes, Block.nodes, Node.children, Block.statements, Stmt.nodesOfList_eq, canonical]
  | stmt s =>
    cases s with
    | declaration m n k v =>
      cases v <;> simp [Node.nodes, Stmt.nodes, Node.children, canonical, Stmt.node]
    | ret m v => cases v <;> simp [Node.nodes, Stmt.nodes, Node.children, canonical, Stmt.node]
    | branch m c t e =>
      cases e <;> simp [Node.nodes, Stmt.nodes, Node.children, canonical, Stmt.node]
    | block b =>
      cases b
      simp [Node.nodes, Stmt.nodes, Block.nodes, Node.children, Block.statements,
        Stmt.nodesOfList_eq, canonical, Stmt.node]
    | _ => simp [Node.nodes, Stmt.nodes, Node.children, canonical, Stmt.node]
  | header h =>
    cases h with
    | counting m i c u =>
      rw [Node.nodes, Header.nodes_counting]
      have hnode : ∀ s : Stmt α, s.nodes = s.node.nodes := fun s => s.node_nodes.symm
      cases i <;> cases c <;> cases u <;>
        simp [Node.children, canonical, hnode, Node.nodes.eq_1]
    | _ => simp [Node.nodes, Header.nodes, Node.children, canonical]
  | function fn => simp [Node.nodes, FunctionDef.nodes, Node.children, canonical]

/-- The nodes below a child are among the nodes below its parent, in the same order. -/
theorem Node.child_sublist {x c : Node α} (hc : c ∈ x.children) :
    c.nodes.Sublist (x.children.flatMap Node.nodes) := by
  rw [List.flatMap_def]
  exact List.sublist_flatten_of_mem (List.mem_map_of_mem hc)

/-- A part of a node has fewer nodes. -/
theorem Node.length_nodes_lt {x c : Node α} (hc : c ∈ x.children) :
    c.nodes.length < x.nodes.length := by
  rw [x.nodes_eq, List.length_cons]
  exact Nat.lt_succ_of_le (child_sublist hc).length_le

/-- Induction from the parts of a node to the node. -/
theorem Node.children_induction {P : Node α → Prop}
    (h : ∀ x, (∀ c ∈ x.children, P c) → P x) (x : Node α) : P x := by
  induction hn : x.nodes.length using Nat.strongRecOn generalizing x with
  | ind n ih => exact h x fun c hc => ih _ (hn ▸ length_nodes_lt hc) c rfl

theorem Node.canonical_nodes (x : Node α) : x.canonical.nodes = x.nodes := by
  cases x with
  | stmt s => exact s.node_nodes
  | _ => rfl

/-- The nodes of a node stand together in those of every node that it is one of. -/
theorem Node.nodes_sublist {x y : Node α} (h : y ∈ x.nodes) : y.nodes.Sublist x.nodes := by
  induction x using Node.children_induction with
  | h x ih =>
    rw [x.nodes_eq] at h
    rcases List.mem_cons.1 h with rfl | h
    · exact x.canonical_nodes ▸ .refl _
    · obtain ⟨c, hc, hy⟩ := List.mem_flatMap.1 h
      rw [x.nodes_eq]
      exact (ih c hc hy).trans ((child_sublist hc).trans (List.sublist_cons_self ..))

/-- A part of a node is listed as it is. -/
theorem Node.canonical_of_mem_children (x : Node α) : ∀ y ∈ x.children, y.canonical = y := by
  have hexpr : ∀ e : Expr α, (Node.expr e).canonical = .expr e := fun _ => rfl
  have hblock : ∀ b : Block α, (Node.block b).canonical = .block b := fun _ => rfl
  have hnode : ∀ s : Stmt α, s.node.canonical = s.node := fun s => by cases s <;> rfl
  cases x with
  | expr e => cases e <;> simp [Node.children, hexpr, hblock]
  | block b => simp [Node.children, hnode]
  | stmt s =>
    cases s with
    | loop m h b =>
      simp [Node.children, hblock, show (Node.header h).canonical = .header h from rfl]
    | _ => simp [Node.children, hexpr, hblock, hnode]
  | header h => cases h <;> simp [Node.children, hexpr, hnode, or_imp, forall_and]
  | function fn => simp [Node.children, hblock]

/-- No node is a part that is a function at the top of a program. -/
theorem Node.function_not_mem_children (x : Node α) {fn : FunctionDef α} :
    Node.function fn ∉ x.children := by
  have hnode : ∀ s : Stmt α, s.node ≠ .function fn := fun s => by cases s <;> nofun
  cases x with
  | expr e => cases e <;> simp [Node.children]
  | block b => simp [Node.children, hnode]
  | stmt s => cases s <;> simp [Node.children, hnode]
  | header h => cases h <;> simp [Node.children, hnode]
  | function fn => simp [Node.children]

/-! ## Other marks -/

variable (f : α → β)

/-- A node with other marks. -/
def Node.map : Node α → Node β
  | .expr e => .expr (e.map f)
  | .block b => .block (b.map f)
  | .stmt s => .stmt (s.map f)
  | .header h => .header (h.map f)
  | .function fn => .function (fn.map f)

mutual

/-- The nodes of a mapped expression are its nodes, mapped. -/
theorem Expr.nodes_map : ∀ e : Expr α, (e.map f).nodes = e.nodes.map (Node.map f)
  | .literal .. | .name .. | .unknown .. => rfl
  | .unary _ _ e | .signalIs _ e _ | .signalValue _ e => by
    simp only [Expr.map, Expr.nodes, List.map_cons, Node.map, e.nodes_map]
  | .binary _ _ l r | .index _ l r => by
    simp only [Expr.map, Expr.nodes, List.map_cons, List.map_append, Node.map, l.nodes_map,
      r.nodes_map]
  | .call _ g args => by
    simp only [Expr.map, Expr.nodes, List.map_cons, List.map_append, Node.map, g.nodes_map,
      Expr.nodesOfList_map args]
  | .array _ es => by
    simp only [Expr.map, Expr.nodes, List.map_cons, Node.map, Expr.nodesOfList_map es]
  | .function _ _ b => by simp only [Expr.map, Expr.nodes, List.map_cons, Node.map, b.nodes_map]
  | .signal _ _ none => rfl
  | .signal _ _ (some e) => by
    simp only [Expr.map, Expr.nodes, List.map_cons, Node.map, e.nodes_map]

theorem Expr.nodesOfList_map : ∀ es : List (Expr α),
    Expr.nodesOfList (Expr.mapList f es) = (Expr.nodesOfList es).map (Node.map f)
  | [] => rfl
  | e :: es => by
    simp only [Expr.mapList, Expr.nodesOfList, List.map_append, e.nodes_map,
      Expr.nodesOfList_map es]

/-- The nodes of a mapped block are its nodes, mapped. -/
theorem Block.nodes_map : ∀ b : Block α, (b.map f).nodes = b.nodes.map (Node.map f)
  | .mk _ ss => by
    simp only [Block.map, Block.nodes, List.map_cons, Node.map, Stmt.nodesOfList_map ss]

/-- The nodes of a mapped statement are its nodes, mapped. -/
theorem Stmt.nodes_map : ∀ s : Stmt α, (s.map f).nodes = s.nodes.map (Node.map f)
  | .declaration _ _ _ none | .ret _ none | .brk _ | .cont _ | .unknown .. => rfl
  | .declaration _ _ _ (some e) | .ret _ (some e) | .expression _ e => by
    simp only [Stmt.map, Stmt.nodes, List.map_cons, Node.map, e.nodes_map]
  | .assignment _ t v => by
    simp only [Stmt.map, Stmt.nodes, List.map_cons, List.map_append, Node.map, t.nodes_map,
      v.nodes_map]
  | .block b => b.nodes_map
  | .branch _ c t none => by
    simp only [Stmt.map, Stmt.nodes, List.map_cons, List.map_append, List.map_nil, Node.map,
      c.nodes_map, t.nodes_map]
  | .branch _ c t (some e) => by
    simp only [Stmt.map, Stmt.nodes, List.map_cons, List.map_append, Node.map, c.nodes_map,
      t.nodes_map, e.nodes_map]
  | .loop _ h b => by
    simp only [Stmt.map, Stmt.nodes, List.map_cons, List.map_append, Node.map, h.nodes_map,
      b.nodes_map]

theorem Stmt.nodesOfList_map : ∀ ss : List (Stmt α),
    Stmt.nodesOfList (Stmt.mapList f ss) = (Stmt.nodesOfList ss).map (Node.map f)
  | [] => rfl
  | s :: ss => by
    simp only [Stmt.mapList, Stmt.nodesOfList, List.map_append, s.nodes_map,
      Stmt.nodesOfList_map ss]

/-- The nodes of a mapped header are its nodes, mapped. -/
theorem Header.nodes_map : ∀ h : Header α, (h.map f).nodes = h.nodes.map (Node.map f)
  | .whileTrue _ e | .forOf _ _ _ e => by
    simp only [Header.map, Header.nodes, List.map_cons, Node.map, e.nodes_map]
  | .counting _ i c u => by
    cases i <;> cases c <;> cases u <;>
      simp only [Header.map, Header.nodes, List.map_cons, List.map_append, List.map_nil, Node.map,
        Stmt.nodes_map, Expr.nodes_map]
  | .unknown .. => rfl

end

/-- The nodes of a mapped function are its nodes, mapped. -/
theorem FunctionDef.nodes_map (fn : FunctionDef α) :
    (fn.map f).nodes = fn.nodes.map (Node.map f) := by
  simp only [FunctionDef.nodes, FunctionDef.map, List.map_cons, Node.map, Block.nodes_map]

theorem Node.nodes_map (x : Node α) : (x.map f).nodes = x.nodes.map (Node.map f) := by
  cases x with
  | expr e => exact e.nodes_map f
  | block b => exact b.nodes_map f
  | stmt s => exact s.nodes_map f
  | header h => exact h.nodes_map f
  | function fn => exact fn.nodes_map f

theorem Node.mark_map (x : Node α) : (x.map f).mark = f x.mark := by
  cases x with
  | expr e =>
    cases e with
    | signal _ _ v => cases v <;> rfl
    | _ => rfl
  | block b => cases b; rfl
  | stmt s =>
    cases s with
    | declaration _ _ _ v => cases v <;> rfl
    | block b => cases b; rfl
    | branch _ _ _ e => cases e <;> rfl
    | ret _ v => cases v <;> rfl
    | _ => rfl
  | header h =>
    cases h with
    | counting _ i c u => cases i <;> cases c <;> cases u <;> rfl
    | _ => rfl
  | function fn => rfl

end FlatScope
