import FlatScope.Proofs.Grammar.Legible
import FlatScope.Proofs.Grammar.Unique
import Mathlib.Data.List.Nodup

/-!
# The places of names

Where a name is used, there is a token of the source, and no two nodes of a program that was read
use the same token (`sites_nodup`): what a derivation denotes uses a place at most as often as there
is a token at it. So a name that is used in a program is told by its place.
-/

namespace FlatScope

variable {α : Type}

/-- The place of a node that uses a name. -/
def Node.site? : Node α → Option α
  | .expr (.name a _) | .header (.forOf a _ _ _) => some a
  | _ => none

/-- The places of the names that nodes use. -/
def sites (ns : List (Node α)) : List α := ns.filterMap Node.site?

/-- The places in two lists of nodes are those in the one and those in the other. -/
@[simp] theorem sites_append (xs ys : List (Node α)) : sites (xs ++ ys) = sites xs ++ sites ys :=
  List.filterMap_append

/-- A node that uses no name has no place. -/
theorem sites_cons {x : Node α} (h : x.site? = none) (xs : List (Node α)) :
    sites (x :: xs) = sites xs := List.filterMap_cons_none h

/-- A node that uses a name has its place. -/
theorem sites_cons_some {x : Node α} {a : α} (h : x.site? = some a) (xs : List (Node α)) :
    sites (x :: xs) = a :: sites xs := List.filterMap_cons_some h

namespace Grammar

/-- How many tokens are at a place. -/
def at? (e : Extent) (ts : List Token) : Nat := (ts.map (·.extent)).count e

variable {e : Extent}

/-- The tokens at a place in two lists are those in the one and those in the other. -/
@[simp] theorem at?_append (ts us : List Token) : at? e (ts ++ us) = at? e ts + at? e us := by
  simp [at?]

/-- Some places are used at most as often as there are tokens at them. -/
def Fewer (es : List Extent) (ts : List Token) : Prop := ∀ e, es.count e ≤ at? e ts

/-- No place is used by no nodes. -/
theorem Fewer.nil (ts : List Token) : Fewer [] ts := fun _ => Nat.zero_le _

/-- Uses and tokens are counted piece by piece. -/
theorem Fewer.append {es fs : List Extent} {ts us : List Token} (h : Fewer es ts)
    (h' : Fewer fs us) : Fewer (es ++ fs) (ts ++ us) := fun e => by
  rw [List.count_append, at?_append]
  exact Nat.add_le_add (h e) (h' e)

/-- Tokens before the piece do no harm. -/
theorem Fewer.left {es : List Extent} {ts : List Token} (h : Fewer es ts) (us : List Token) :
    Fewer es (us ++ ts) := fun e => by
  rw [at?_append]
  exact Nat.le_add_left_of_le (h e)

/-- Tokens behind the piece do no harm. -/
theorem Fewer.right {es : List Extent} {ts : List Token} (h : Fewer es ts) (us : List Token) :
    Fewer es (ts ++ us) := fun e => by
  rw [at?_append]
  exact Nat.le_add_right_of_le (h e)

/-- The place of a single name is that of its token. -/
theorem Fewer.single (t : Token) : Fewer [t.extent] [t] := fun e => by simp [at?]

section Derivations

mutual

/-- An expression uses a place at most as often as there is a token at it. -/
theorem ExprTree.fewer : ∀ {p : Nat} (d : ExprTree p), Fewer (sites d.denote.nodes) d.tokens
  | _, .chain _ first tails => tails.fewer _ first.fewer
  | _, .signed s e => by
    simp only [ExprTree.denote, Expr.nodes]
    rw [sites_cons rfl]
    exact e.fewer.left _
  | _, .suffixed a ss => ss.fewer _ a.fewer
  termination_by structural _ d => d

/-- So do the operands behind an expression, with the expression. -/
theorem Tails.fewer : ∀ {p : Nat} (d : Tails p) (l : Expr Extent) {ts : List Token},
    Fewer (sites l.nodes) ts → Fewer (sites (d.denote l).nodes) (ts ++ d.tokens)
  | _, .nil, l, ts, hl => hl.right _
  | _, .cons o e rest, l, ts, hl => by
    rw [Tails.tokens, Tails.collect, ← List.append_assoc, ← List.append_assoc]
    refine rest.fewer _ ?_
    simp only [Expr.nodes]
    rw [sites_cons rfl, sites_append, List.append_assoc]
    exact hl.append (e.fewer.left _)
  termination_by structural _ d => d

/-- So do the calls and elements behind an expression, with the expression. -/
theorem Suffixes.fewer : ∀ (d : Suffixes) (f : Expr Extent) {ts : List Token},
    Fewer (sites f.nodes) ts → Fewer (sites (d.denote f).nodes) (ts ++ d.tokens)
  | .nil, f, ts, hf => hf.right _
  | .call lp args rp rest, f, ts, hf => by
    rw [Suffixes.tokens, Suffixes.collect, ← List.append_assoc, ← List.append_assoc,
      ← List.append_assoc]
    refine rest.fewer _ ?_
    simp only [Expr.nodes]
    rw [sites_cons rfl, sites_append, List.append_assoc, List.append_assoc]
    exact hf.append ((args.fewer.right _).left _)
  | .index lb i rb rest, f, ts, hf => by
    rw [Suffixes.tokens, Suffixes.collect, ← List.append_assoc, ← List.append_assoc,
      ← List.append_assoc]
    refine rest.fewer _ ?_
    simp only [Expr.nodes]
    rw [sites_cons rfl, sites_append, List.append_assoc, List.append_assoc]
    exact hf.append ((i.fewer.right _).left _)
  termination_by structural d => d

/-- So do arguments. -/
theorem Args.fewer : ∀ (d : Args), Fewer (sites (Expr.nodesOfList d.denote)) d.tokens
  | .none => .nil _
  | .some e rest => by
    simp only [Args.denote, Expr.nodesOfList, sites_append]
    exact e.fewer.append rest.fewer
  termination_by structural d => d

/-- So do the arguments behind the first one. -/
theorem MoreArgs.fewer : ∀ (d : MoreArgs), Fewer (sites (Expr.nodesOfList d.denote)) d.tokens
  | .nil => .nil _
  | .cons _ e rest => by
    simp only [MoreArgs.denote, Expr.nodesOfList, sites_append]
    exact (e.fewer.append rest.fewer).left _
  termination_by structural d => d

/-- So does an operand. -/
theorem AtomTree.fewer : ∀ (d : AtomTree), Fewer (sites d.denote.nodes) d.tokens
  | .constant c => .nil _
  | .name t => .single t.1
  | .array lb es rb => by
    simp only [AtomTree.denote, Expr.nodes]
    rw [sites_cons rfl]
    exact (es.fewer.right _).left _
  | .function w lp ps rp b => by
    simp only [AtomTree.denote, Expr.nodes]
    rw [sites_cons rfl]
    exact (((b.fewer.left _).left _).left _).left _
  | .paren lp e rp => (e.fewer.right _).left _
  termination_by structural d => d

/-- So does a block. -/
theorem BlockTree.fewer : ∀ (d : BlockTree), Fewer (sites d.denote.nodes) d.tokens
  | .mk lb ss rb => by
    simp only [BlockTree.denote, Block.nodes]
    rw [sites_cons rfl]
    exact (ss.fewer.right _).left _
  termination_by structural d => d

/-- So do statements. -/
theorem StmtTrees.fewer : ∀ (d : StmtTrees), Fewer (sites (Stmt.nodesOfList d.denote)) d.tokens
  | .nil => .nil _
  | .cons s ss => by
    simp only [StmtTrees.denote, Stmt.nodesOfList, sites_append]
    exact s.fewer.append ss.fewer
  termination_by structural d => d

/-- So does a statement. -/
theorem StmtTree.fewer : ∀ (d : StmtTree), Fewer (sites d.denote.nodes) d.tokens
  | .clause c _ => c.fewer.right _
  | .ret w .none _ => .nil _
  | .ret w (.some e) _ => by
    simp only [StmtTree.denote, Stmt.nodes]
    rw [sites_cons rfl]
    exact (e.fewer.right _).left _
  | .brk w _ => .nil _
  | .cont w _ => .nil _
  | .branch i => i.fewer
  | .whileLoop w lp c rp b => by
    simp only [StmtTree.denote, Stmt.nodes, Header.nodes]
    rw [sites_cons rfl, List.cons_append, sites_cons rfl, sites_append]
    exact ((c.fewer.append (b.fewer.left _)).left _).left _
  | .forLoop w lp i sc c sc' u rp b => by
    simp only [StmtTree.denote, Stmt.nodes, Header.nodes_counting]
    rw [sites_cons rfl, List.cons_append, sites_cons rfl]
    simp only [sites_append, List.append_assoc]
    exact ((i.fewer.append
      ((c.fewer.append ((u.fewer.append (b.fewer.left _)).left _)).left _)).left _).left _
  | .forOf w lp d n o e rp b => by
    simp only [StmtTree.denote, Stmt.nodes, Header.nodes]
    rw [sites_cons rfl, List.cons_append, sites_cons_some rfl, sites_append]
    exact ((((Fewer.single n.1).append ((e.fewer.append (b.fewer.left _)).left _)).left _).left
      _).left _
  | .block b => b.fewer
  termination_by structural d => d

/-- So does what may stand in the first clause of a `for`. -/
theorem ClauseTree.fewer : ∀ (d : ClauseTree), Fewer (sites d.denote.nodes) d.tokens
  | .declaration w n => .nil _
  | .initialized w n eq e => by
    simp only [ClauseTree.denote, Stmt.nodes]
    rw [sites_cons rfl]
    exact ((e.fewer.left _).left _).left _
  | .simple s => s.fewer
  termination_by structural d => d

/-- So does an assignment or expression. -/
theorem SimpleTree.fewer : ∀ (d : SimpleTree), Fewer (sites d.denote.nodes) d.tokens
  | .assignment t eq v => by
    simp only [SimpleTree.denote, Stmt.nodes]
    rw [sites_cons rfl, sites_append]
    exact t.fewer.append ((v.fewer.right _).left _)
  | .expression e => by
    simp only [SimpleTree.denote, Stmt.nodes]
    rw [sites_cons rfl]
    exact e.fewer
  termination_by structural d => d

/-- So does an expression that may be missing. -/
theorem MaybeExpr.fewer : ∀ (d : MaybeExpr), Fewer (sites (d.denote.elim [] Expr.nodes)) d.tokens
  | .none => .nil _
  | .some e => e.fewer
  termination_by structural d => d

/-- So does a first clause that may be missing. -/
theorem MaybeClause.fewer :
    ∀ (d : MaybeClause), Fewer (sites (d.denote.elim [] Stmt.nodes)) d.tokens
  | .none => .nil _
  | .some c => c.fewer
  termination_by structural d => d

/-- So does a last clause that may be missing. -/
theorem MaybeSimple.fewer :
    ∀ (d : MaybeSimple), Fewer (sites (d.denote.elim [] Stmt.nodes)) d.tokens
  | .none => .nil _
  | .some s => s.fewer
  termination_by structural d => d

/-- So does an `if`. -/
theorem IfTree.fewer : ∀ (d : IfTree), Fewer (sites d.denote.nodes) d.tokens
  | .mk w lp c rp b o => by
    simp only [IfTree.denote, Stmt.nodes_branch]
    rw [sites_cons rfl, sites_append, sites_append]
    exact ((c.fewer.append ((b.fewer.append o.fewer).left _)).left _).left _
  termination_by structural d => d

/-- So does an `else` that may be missing. -/
theorem ElseTree.fewer : ∀ (d : ElseTree), Fewer (sites (d.denote.elim [] Block.nodes)) d.tokens
  | .none => .nil _
  | .block _ b => b.fewer.left _
  | .elseIf _ i => by
    simp only [ElseTree.denote, Option.elim_some, Block.nodes, Stmt.nodesOfList, List.append_nil]
    rw [sites_cons rfl]
    exact i.fewer.left _
  termination_by structural d => d

end

/-- So does a program. -/
theorem ProgramTree.fewer (d : ProgramTree) : Fewer (sites d.denote.nodes) d.tokens := by
  induction d with
  | nil => exact .nil _
  | cons i d ih =>
    intro e
    have hd := ih e
    simp only [ProgramTree.denote, Program.nodes, sites_append, List.count_append] at hd
    rw [ProgramTree.tokens, ProgramTree.collect, List.flatMap_cons, at?_append]
    change _ ≤ at? e (Item.collect own ignored i) + at? e (ProgramTree.tokens d)
    cases i with
    | function f =>
      have hf : Fewer (sites f.denote.nodes) (f.collect own ignored) := by
        simp only [FunctionTree.denote, FunctionDef.nodes]
        rw [sites_cons rfl]
        exact ((((f.body.fewer.left _).left _).left _).left _).left _
      have hfe := hf e
      simp only [ProgramTree.denote, Program.nodes, List.filterMap_cons, Item.function?, Item.stmt?,
        List.flatMap_cons, sites_append, List.count_append, Item.collect]
      omega
    | stmt s =>
      have hs : _ ≤ at? e (s.collect own ignored) := s.fewer e
      simp only [ProgramTree.denote, Program.nodes, List.filterMap_cons, Item.function?, Item.stmt?,
        Stmt.nodesOfList, sites_append, List.count_append, Item.collect]
      omega

end Derivations

/-! ## Tokens stand at places of their own -/

/-- No token begins before the place where the source is split. -/
theorem start_of_splits {p : Position} {s : Text} {ts : List Token} (h : Splits p s ts) :
    ∀ t ∈ ts, ¬ t.extent.start.Before p := by
  induction h with
  | nil => nofun
  | @skip p t _ _ _ _ ih => exact fun u hu hb => ih u hu (hb.trans_not (p.not_after_before t))
  | @token p k t _ _ _ _ ih =>
    intro u hu
    rcases List.mem_cons.1 hu with rfl | hu
    · exact Position.Before.irrefl p
    · exact fun hb => ih u hu (hb.trans_not (p.not_after_before t))

/-- No two tokens of a source are at the same place. -/
theorem extents_nodup {p : Position} {s : Text} {ts : List Token} (h : Splits p s ts) :
    (ts.map (·.extent)).Nodup := by
  induction h with
  | nil => exact List.nodup_nil
  | skip _ _ ih => exact ih
  | @token p k t _ _ hl hrest ih =>
    refine List.nodup_cons.2 ⟨fun hmem => ?_, ih⟩
    obtain ⟨u, hu, he⟩ := List.mem_map.1 hmem
    obtain ⟨c, t, rfl⟩ := List.exists_cons_of_ne_nil hl.ne_nil
    refine start_of_splits hrest u hu ?_
    rw [he]
    exact (Position.Before.next p c).trans_not ((p.next c).not_after_before t)

end Grammar

open Grammar

/-- No two names in a program that was read are at one place. -/
theorem sites_nodup {source : Text} {P : Program Extent} (h : Parser.parse source = .ok P) :
    (sites P.nodes).Nodup := by
  obtain ⟨d, hsplit, -, rfl⟩ := parse_iff_denote.mp h
  rw [List.nodup_iff_count_le_one]
  intro e
  exact Nat.le_trans (d.fewer e) (List.nodup_iff_count_le_one.1 (extents_nodup hsplit) e)

end FlatScope
