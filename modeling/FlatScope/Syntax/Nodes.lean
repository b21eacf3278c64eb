import FlatScope.Syntax

/-!
# The nodes of a tree

Every part of a tree that carries a mark is a node. Here all nodes are of one type, so that a tree
can be seen as the list of its nodes in preorder: a node comes before its children, and these come
in the order in which they are read (`Expr.nodes` and its companions).
-/

namespace FlatScope

/-- A node of a tree, of any kind. A block that stands as a statement is the node of the block. -/
inductive Node (α : Type) where
  | expr (e : Expr α)
  | block (b : Block α)
  | stmt (s : Stmt α)
  | header (h : Header α)
  | function (fn : FunctionDef α)

variable {α : Type}

/-- A statement as a node. -/
def Stmt.node : Stmt α → Node α
  | .block b => .block b
  | s => .stmt s

/-! ## Preorder -/

mutual

/-- The nodes of an expression in preorder. -/
def Expr.nodes : Expr α → List (Node α)
  | .literal a v => [.expr (.literal a v)]
  | .name a n => [.expr (.name a n)]
  | .unary a op e => .expr (.unary a op e) :: e.nodes
  | .binary a op l r => .expr (.binary a op l r) :: (l.nodes ++ r.nodes)
  | .call a f args => .expr (.call a f args) :: (f.nodes ++ Expr.nodesOfList args)
  | .array a es => .expr (.array a es) :: Expr.nodesOfList es
  | .index a b i => .expr (.index a b i) :: (b.nodes ++ i.nodes)
  | .function a ps b => .expr (.function a ps b) :: b.nodes
  | .signal a k v =>
    .expr (.signal a k v) :: (match v with
      | none => []
      | some e => e.nodes)
  | .signalIs a e k => .expr (.signalIs a e k) :: e.nodes
  | .signalValue a e => .expr (.signalValue a e) :: e.nodes
  | .unknown a n => [.expr (.unknown a n)]

def Expr.nodesOfList : List (Expr α) → List (Node α)
  | [] => []
  | e :: es => e.nodes ++ Expr.nodesOfList es

/-- The nodes of a block in preorder. -/
def Block.nodes : Block α → List (Node α)
  | .mk a ss => .block (.mk a ss) :: Stmt.nodesOfList ss

/-- The nodes of a statement in preorder. -/
def Stmt.nodes : Stmt α → List (Node α)
  | .declaration a n k v =>
    .stmt (.declaration a n k v) :: (match v with
      | none => []
      | some e => e.nodes)
  | .assignment a t v => .stmt (.assignment a t v) :: (t.nodes ++ v.nodes)
  | .expression a e => .stmt (.expression a e) :: e.nodes
  | .block b => b.nodes
  | .branch a c t e =>
    .stmt (.branch a c t e) :: (c.nodes ++ (t.nodes ++ (match e with
      | none => []
      | some b => b.nodes)))
  | .loop a h b => .stmt (.loop a h b) :: (h.nodes ++ b.nodes)
  | .ret a v =>
    .stmt (.ret a v) :: (match v with
      | none => []
      | some e => e.nodes)
  | .brk a => [.stmt (.brk a)]
  | .cont a => [.stmt (.cont a)]
  | .unknown a n => [.stmt (.unknown a n)]

def Stmt.nodesOfList : List (Stmt α) → List (Node α)
  | [] => []
  | s :: ss => s.nodes ++ Stmt.nodesOfList ss

/-- The nodes of the header of a loop in preorder. -/
def Header.nodes : Header α → List (Node α)
  | .whileTrue a c => .header (.whileTrue a c) :: c.nodes
  | .counting a i c u =>
    .header (.counting a i c u) ::
      ((match i with
        | none => []
        | some s => s.nodes) ++
      ((match c with
        | none => []
        | some e => e.nodes) ++
      (match u with
        | none => []
        | some s => s.nodes)))
  | .forOf a n k e => .header (.forOf a n k e) :: e.nodes
  | .unknown a n => [.header (.unknown a n)]

end

/-- The nodes of a function in preorder. -/
def FunctionDef.nodes (fn : FunctionDef α) : List (Node α) := .function fn :: fn.body.nodes

/-! ## Marks and children -/

namespace Node

def mark : Node α → α
  | .expr e => e.mark
  | .block b => b.mark
  | .stmt s => s.mark
  | .header h => h.mark
  | .function fn => fn.mark

/-- The parts of a node in the order in which they are read. -/
def children : Node α → List (Node α)
  | .expr e =>
    match e with
    | .unary _ _ e | .signalIs _ e _ | .signalValue _ e => [.expr e]
    | .binary _ _ l r => [.expr l, .expr r]
    | .call _ f args => .expr f :: args.map .expr
    | .array _ es => es.map .expr
    | .index _ b i => [.expr b, .expr i]
    | .function _ _ b => [.block b]
    | .signal _ _ v => v.toList.map .expr
    | .literal .. | .name .. | .unknown .. => []
  | .block b => b.statements.map Stmt.node
  | .stmt s =>
    match s with
    | .declaration _ _ _ v | .ret _ v => v.toList.map .expr
    | .assignment _ t v => [.expr t, .expr v]
    | .expression _ e => [.expr e]
    | .block b => b.statements.map Stmt.node
    | .branch _ c t e => .expr c :: .block t :: e.toList.map .block
    | .loop _ h b => [.header h, .block b]
    | .brk _ | .cont _ | .unknown .. => []
  | .header h =>
    match h with
    | .whileTrue _ c => [.expr c]
    | .counting _ i c u =>
      i.toList.map Stmt.node ++ c.toList.map .expr ++ u.toList.map Stmt.node
    | .forOf _ _ _ e => [.expr e]
    | .unknown .. => []
  | .function fn => [.block fn.body]

end Node

/-! ## Marks in preorder -/

/-- The marks of a block and of everything in it. -/
def Block.marks (b : Block α) : List α := b.nodes.map Node.mark

end FlatScope
