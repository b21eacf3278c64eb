import FlatScope.Span
import FlatScope.Syntax

/-!
# Numbering the nodes

The analyses know a node by its number. `number` gives the nodes of a tree consecutive numbers in
preorder; so the number of a node is smaller than those of its descendants, and the numbers of a
node and its descendants are consecutive. The functions below number a tree from a given number on
and return the next number that is free.
-/

namespace FlatScope

/-- The number of a node. -/
abbrev NodeId := Nat

/-- The number and the place of a node. -/
structure Mark where
  id : NodeId
  span : Span
  deriving DecidableEq, Repr, Inhabited

mutual

def Expr.number (n : NodeId) : Expr Span → Expr Mark × NodeId
  | .literal a v => (.literal ⟨n, a⟩ v, n + 1)
  | .name a x => (.name ⟨n, a⟩ x, n + 1)
  | .unary a op e =>
    let (e, m) := e.number (n + 1)
    (.unary ⟨n, a⟩ op e, m)
  | .binary a op l r =>
    let (l, m) := l.number (n + 1)
    let (r, m) := r.number m
    (.binary ⟨n, a⟩ op l r, m)
  | .call a f args =>
    let (f, m) := f.number (n + 1)
    let (args, m) := Expr.numberList m args
    (.call ⟨n, a⟩ f args, m)
  | .array a es =>
    let (es, m) := Expr.numberList (n + 1) es
    (.array ⟨n, a⟩ es, m)
  | .index a b i =>
    let (b, m) := b.number (n + 1)
    let (i, m) := i.number m
    (.index ⟨n, a⟩ b i, m)
  | .function a ps b =>
    let (b, m) := b.number (n + 1)
    (.function ⟨n, a⟩ ps b, m)
  | .signal a k none => (.signal ⟨n, a⟩ k none, n + 1)
  | .signal a k (some e) =>
    let (e, m) := e.number (n + 1)
    (.signal ⟨n, a⟩ k (some e), m)
  | .signalIs a e k =>
    let (e, m) := e.number (n + 1)
    (.signalIs ⟨n, a⟩ e k, m)
  | .signalValue a e =>
    let (e, m) := e.number (n + 1)
    (.signalValue ⟨n, a⟩ e, m)
  | .unknown a x => (.unknown ⟨n, a⟩ x, n + 1)

def Expr.numberList (n : NodeId) : List (Expr Span) → List (Expr Mark) × NodeId
  | [] => ([], n)
  | e :: es =>
    let (e, m) := e.number n
    let (es, m) := Expr.numberList m es
    (e :: es, m)

def Block.number (n : NodeId) : Block Span → Block Mark × NodeId
  | .mk a ss =>
    let (ss, m) := Stmt.numberList (n + 1) ss
    (.mk ⟨n, a⟩ ss, m)

def Stmt.number (n : NodeId) : Stmt Span → Stmt Mark × NodeId
  | .declaration a x k none => (.declaration ⟨n, a⟩ x k none, n + 1)
  | .declaration a x k (some e) =>
    let (e, m) := e.number (n + 1)
    (.declaration ⟨n, a⟩ x k (some e), m)
  | .assignment a t v =>
    let (t, m) := t.number (n + 1)
    let (v, m) := v.number m
    (.assignment ⟨n, a⟩ t v, m)
  | .expression a e =>
    let (e, m) := e.number (n + 1)
    (.expression ⟨n, a⟩ e, m)
  | .block b =>
    let (b, m) := b.number n
    (.block b, m)
  | .branch a c t none =>
    let (c, m) := c.number (n + 1)
    let (t, m) := t.number m
    (.branch ⟨n, a⟩ c t none, m)
  | .branch a c t (some e) =>
    let (c, m) := c.number (n + 1)
    let (t, m) := t.number m
    let (e, m) := e.number m
    (.branch ⟨n, a⟩ c t (some e), m)
  | .loop a h b =>
    let (h, m) := h.number (n + 1)
    let (b, m) := b.number m
    (.loop ⟨n, a⟩ h b, m)
  | .ret a none => (.ret ⟨n, a⟩ none, n + 1)
  | .ret a (some e) =>
    let (e, m) := e.number (n + 1)
    (.ret ⟨n, a⟩ (some e), m)
  | .brk a => (.brk ⟨n, a⟩, n + 1)
  | .cont a => (.cont ⟨n, a⟩, n + 1)
  | .unknown a x => (.unknown ⟨n, a⟩ x, n + 1)

def Stmt.numberList (n : NodeId) : List (Stmt Span) → List (Stmt Mark) × NodeId
  | [] => ([], n)
  | s :: ss =>
    let (s, m) := s.number n
    let (ss, m) := Stmt.numberList m ss
    (s :: ss, m)

def Header.number (n : NodeId) : Header Span → Header Mark × NodeId
  | .whileTrue a c =>
    let (c, m) := c.number (n + 1)
    (.whileTrue ⟨n, a⟩ c, m)
  | .counting a i c u =>
    let (i, m) : Option (Stmt Mark) × NodeId := match i with
      | none => (none, n + 1)
      | some s =>
        let (s, m) := s.number (n + 1)
        (some s, m)
    let (c, m) : Option (Expr Mark) × NodeId := match c with
      | none => (none, m)
      | some e =>
        let (e, m) := e.number m
        (some e, m)
    let (u, m) : Option (Stmt Mark) × NodeId := match u with
      | none => (none, m)
      | some s =>
        let (s, m) := s.number m
        (some s, m)
    (.counting ⟨n, a⟩ i c u, m)
  | .forOf a x k e =>
    let (e, m) := e.number (n + 1)
    (.forOf ⟨n, a⟩ x k e, m)
  | .unknown a x => (.unknown ⟨n, a⟩ x, n + 1)

end

/-- The function with its nodes numbered from `n` on, and the next number. -/
def FunctionDef.numberFrom (n : NodeId) (fn : FunctionDef Span) : FunctionDef Mark × NodeId :=
  let (body, m) := fn.body.number (n + 1)
  (⟨⟨n, fn.mark⟩, fn.name, fn.params, body⟩, m)

/-- The function with its nodes numbered from 1 on. -/
def FunctionDef.number (fn : FunctionDef Span) : FunctionDef Mark := (fn.numberFrom 1).1

end FlatScope
