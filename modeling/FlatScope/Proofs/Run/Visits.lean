import FlatScope.Proofs.Run.Kept
import Mathlib.Logic.Relation

/-!
# The pieces that a run goes through

The evaluator runs a piece of a program by running smaller ones. `Starts` says of every piece which
pieces it runs, in which frames and from which stores on, and `Visits` of a call which pieces are
run in the course of it, so that one can speak of what happens in the midst of a run.

In the run of a flat program, a piece of the code of a function runs in the frame of a call of that
function, and since that call began, nothing has changed but what the own nodes of the function and
the closures change that use its variables (`Activation`). Every step from piece to piece keeps this
(`Starts.regular`), so it holds throughout a run (`Visits.regular`).
-/

namespace FlatScope

namespace Eval

/-- A piece of a program that the evaluator runs, with the frame that it runs in. -/
inductive Task where
  | expr (e : Expr Span) (env : FrameId)
  | exprs (es : List (Expr Span)) (env : FrameId)
  | call (f : Value) (args : List Value)
  | callClosure (c : Closure) (args : List Value)
  | stmts (ss : List (Stmt Span)) (env : FrameId)
  | block (b : Block Span) (env : FrameId)
  | stmt (s : Stmt Span) (env : FrameId)
  | assign (target : Expr Span) (v : Value) (env : FrameId)
  | loop (h : Header Span) (b : Block Span) (env : FrameId)
  | whileLoop (c : Expr Span) (b : Block Span) (env : FrameId)
  | countingLoop (copies : Bool) (c : Option (Expr Span)) (u : Option (Stmt Span)) (b : Block Span)
    (env : FrameId)
  | condition (c : Option (Expr Span)) (env : FrameId)
  | update (u : Option (Stmt Span)) (env : FrameId)
  | forOfLoop (q : Sequence) (i : Nat) (n : Name) (k : Option DeclKind) (b : Block Span)
    (env : FrameId)

/-- A moment of a run: a piece is about to be run within a number of steps. The piece belongs to the
    code of the function `code`, or calls one from there. -/
structure Point where
  fuel : Nat
  code : Closure
  task : Task
  store : Store

/-- To run the one piece, the evaluator runs the other one. -/
inductive Starts : Point → Point → Prop
  -- expressions
  | operand {n k m op e env s} :
    Starts ⟨n + 1, k, .expr (.unary m op e) env, s⟩ ⟨n, k, .expr e env, s⟩
  | left {n k m op l r env s} :
    Starts ⟨n + 1, k, .expr (.binary m op l r) env, s⟩ ⟨n, k, .expr l env, s⟩
  | right {n k m op l r env s v t} (hl : expr n l env s = .done v t)
    (hand : op = .and → v.truthy) (hor : op = .or → ¬ v.truthy) :
    Starts ⟨n + 1, k, .expr (.binary m op l r) env, s⟩ ⟨n, k, .expr r env, t⟩
  | callee {n k m f args env s} :
    Starts ⟨n + 1, k, .expr (.call m f args) env, s⟩ ⟨n, k, .expr f env, s⟩
  | arguments {n k m f args env s v t} (hf : expr n f env s = .done v t) :
    Starts ⟨n + 1, k, .expr (.call m f args) env, s⟩ ⟨n, k, .exprs args env, t⟩
  | call {n k m f args env s v t vs u} (hf : expr n f env s = .done v t)
    (hargs : exprs n args env t = .done vs u) :
    Starts ⟨n + 1, k, .expr (.call m f args) env, s⟩ ⟨n, k, .call v vs, u⟩
  | elements {n k m es env s} :
    Starts ⟨n + 1, k, .expr (.array m es) env, s⟩ ⟨n, k, .exprs es env, s⟩
  | base {n k m b i env s} :
    Starts ⟨n + 1, k, .expr (.index m b i) env, s⟩ ⟨n, k, .expr b env, s⟩
  | position {n k m b i env s v t} (hb : expr n b env s = .done v t) :
    Starts ⟨n + 1, k, .expr (.index m b i) env, s⟩ ⟨n, k, .expr i env, t⟩
  | carried {n k m e v env s} :
    Starts ⟨n + 1, k, .expr (.signal m e (some v)) env, s⟩ ⟨n, k, .expr v env, s⟩
  | tested {n k m e sig env s} :
    Starts ⟨n + 1, k, .expr (.signalIs m e sig) env, s⟩ ⟨n, k, .expr e env, s⟩
  | opened {n k m e env s} :
    Starts ⟨n + 1, k, .expr (.signalValue m e) env, s⟩ ⟨n, k, .expr e env, s⟩
  | head {n k e es env s} : Starts ⟨n + 1, k, .exprs (e :: es) env, s⟩ ⟨n, k, .expr e env, s⟩
  | tail {n k e es env s v t} (he : expr n e env s = .done v t) :
    Starts ⟨n + 1, k, .exprs (e :: es) env, s⟩ ⟨n, k, .exprs es env, t⟩
  -- calls
  | closure {n k i args s} : Starts ⟨n + 1, k, .call (.closure i) args, s⟩
    ⟨n, k, .callClosure (s.closures[i]?.getD default) args, s⟩
  | body {n k c args fr s} (hc : callFrame c args = .ok fr) :
    Starts ⟨n + 1, k, .callClosure c args, s⟩
    ⟨n, c, .stmts c.body.statements s.frames.size, (s.newFrame fr).2⟩
  -- statements
  | first {n k x ss env s} : Starts ⟨n + 1, k, .stmts (x :: ss) env, s⟩ ⟨n, k, .stmt x env, s⟩
  | rest {n k x ss env s t} (hx : stmt n x env s = .done () t) :
    Starts ⟨n + 1, k, .stmts (x :: ss) env, s⟩ ⟨n, k, .stmts ss env, t⟩
  | inner {n k b env inner s t} (hb : blockFrame b env s = .done inner t) :
    Starts ⟨n + 1, k, .block b env, s⟩ ⟨n, k, .stmts b.statements inner, t⟩
  | initial {n k m x d e env s} :
    Starts ⟨n + 1, k, .stmt (.declaration m x d (some e)) env, s⟩ ⟨n, k, .expr e env, s⟩
  | assigned {n k m x e env s} :
    Starts ⟨n + 1, k, .stmt (.assignment m x e) env, s⟩ ⟨n, k, .expr e env, s⟩
  | target {n k m x e env s v t} (he : expr n e env s = .done v t) :
    Starts ⟨n + 1, k, .stmt (.assignment m x e) env, s⟩ ⟨n, k, .assign x v env, t⟩
  | expression {n k m e env s} :
    Starts ⟨n + 1, k, .stmt (.expression m e) env, s⟩ ⟨n, k, .expr e env, s⟩
  | block {n k b env s} : Starts ⟨n + 1, k, .stmt (.block b) env, s⟩ ⟨n, k, .block b env, s⟩
  | test {n k m c b e env s} :
    Starts ⟨n + 1, k, .stmt (.branch m c b e) env, s⟩ ⟨n, k, .expr c env, s⟩
  | consequent {n k m c b e env s v t} (hc : expr n c env s = .done v t) (hv : v.truthy) :
    Starts ⟨n + 1, k, .stmt (.branch m c b e) env, s⟩ ⟨n, k, .block b env, t⟩
  | alternative {n k m c b e env s v t} (hc : expr n c env s = .done v t) (hv : ¬ v.truthy) :
    Starts ⟨n + 1, k, .stmt (.branch m c b (some e)) env, s⟩ ⟨n, k, .block e env, t⟩
  | loop {n k m h b env s} : Starts ⟨n + 1, k, .stmt (.loop m h b) env, s⟩ ⟨n, k, .loop h b env, s⟩
  | returned {n k m e env s} :
    Starts ⟨n + 1, k, .stmt (.ret m (some e)) env, s⟩ ⟨n, k, .expr e env, s⟩
  | assignedBase {n k m b i v env s} :
    Starts ⟨n + 1, k, .assign (.index m b i) v env, s⟩ ⟨n, k, .expr b env, s⟩
  | assignedPosition {n k m b i v env s w t} (hb : expr n b env s = .done w t) :
    Starts ⟨n + 1, k, .assign (.index m b i) v env, s⟩ ⟨n, k, .expr i env, t⟩
  -- loops
  | whileLoop {n k m c b env s} :
    Starts ⟨n + 1, k, .loop (.whileTrue m c) b env, s⟩ ⟨n, k, .whileLoop c b env, s⟩
  | initCopied {n k m i c u b env x d first s t} (hi : copied? (some i) = some (x, d))
    (hf : enter (Frame.define ⟨some env, []⟩ x none (d == .const)) s = .done first t) :
    Starts ⟨n + 1, k, .loop (.counting m (some i) c u) b env, s⟩ ⟨n, k, .stmt i first, t⟩
  | countingCopied {n k m i c u b env x d first s t r} (hi : copied? (some i) = some (x, d))
    (hf : enter (Frame.define ⟨some env, []⟩ x none (d == .const)) s = .done first t)
    (hr : stmt n i first t = .done () r) :
    Starts ⟨n + 1, k, .loop (.counting m (some i) c u) b env, s⟩
      ⟨n, k, .countingLoop true c u b (r.copy first).1, (r.copy first).2⟩
  | init {n k m i c u b env s} (hi : copied? (some i) = none) :
    Starts ⟨n + 1, k, .loop (.counting m (some i) c u) b env, s⟩ ⟨n, k, .stmt i env, s⟩
  | countingInit {n k m i c u b env s t} (hi : copied? (some i) = none)
    (hs : stmt n i env s = .done () t) :
    Starts ⟨n + 1, k, .loop (.counting m (some i) c u) b env, s⟩
      ⟨n, k, .countingLoop false c u b env, t⟩
  | counting {n k m c u b env s} :
    Starts ⟨n + 1, k, .loop (.counting m none c u) b env, s⟩
      ⟨n, k, .countingLoop false c u b env, s⟩
  | sequence {n k m x d e b env s} :
    Starts ⟨n + 1, k, .loop (.forOf m x d e) b env, s⟩ ⟨n, k, .expr e env, s⟩
  | forOfLoop {n k m x d e b env s v t q r} (he : expr n e env s = .done v t)
    (hq : sequenceOf v t = .done q r) :
    Starts ⟨n + 1, k, .loop (.forOf m x d e) b env, s⟩ ⟨n, k, .forOfLoop q 0 x d b env, r⟩
  | whileTest {n k c b env s} :
    Starts ⟨n + 1, k, .whileLoop c b env, s⟩ ⟨n, k, .expr c env, s⟩
  | whileBody {n k c b env s v t} (hc : expr n c env s = .done v t) (hv : v.truthy) :
    Starts ⟨n + 1, k, .whileLoop c b env, s⟩ ⟨n, k, .block b env, t⟩
  | whileAgain {n k c b env s v t r} (hc : expr n c env s = .done v t) (hv : v.truthy)
    (hb : goesOn (Eval.block n b env) t = .done true r) :
    Starts ⟨n + 1, k, .whileLoop c b env, s⟩ ⟨n, k, .whileLoop c b env, r⟩
  | countingTest {n k copies c u b env s} :
    Starts ⟨n + 1, k, .countingLoop copies c u b env, s⟩ ⟨n, k, .condition c env, s⟩
  | countingBody {n k copies c u b env s t} (hc : condition n c env s = .done true t) :
    Starts ⟨n + 1, k, .countingLoop copies c u b env, s⟩ ⟨n, k, .block b env, t⟩
  | countingUpdate {n k copies c u b env s t r next r'} (hc : condition n c env s = .done true t)
    (hb : goesOn (Eval.block n b env) t = .done true r)
    (hr : (if copies then r.copy env else (env, r)) = (next, r')) :
    Starts ⟨n + 1, k, .countingLoop copies c u b env, s⟩ ⟨n, k, .update u next, r'⟩
  | countingAgain {n k copies c u b env s t r next r' z} (hc : condition n c env s = .done true t)
    (hb : goesOn (Eval.block n b env) t = .done true r)
    (hr : (if copies then r.copy env else (env, r)) = (next, r'))
    (hu : update n u next r' = .done () z) :
    Starts ⟨n + 1, k, .countingLoop copies c u b env, s⟩ ⟨n, k, .countingLoop copies c u b next, z⟩
  | condition {n k e env s} :
    Starts ⟨n + 1, k, .condition (some e) env, s⟩ ⟨n, k, .expr e env, s⟩
  | update {n k x env s} : Starts ⟨n + 1, k, .update (some x) env, s⟩ ⟨n, k, .stmt x env, s⟩
  | forOfBody {n k q i x d b env s v inner t} (hq : q.at? s i = some v)
    (hf : elementFrame x d v env s = .done inner t) :
    Starts ⟨n + 1, k, .forOfLoop q i x d b env, s⟩ ⟨n, k, .block b inner, t⟩
  | forOfAgain {n k q i x d b env s v inner t r} (hq : q.at? s i = some v)
    (hf : elementFrame x d v env s = .done inner t)
    (hb : goesOn (Eval.block n b inner) t = .done true r) :
    Starts ⟨n + 1, k, .forOfLoop q i x d b env, s⟩ ⟨n, k, .forOfLoop q (i + 1) x d b env, r⟩

/-- In the course of a call, a piece is run. -/
def Visits (n : Nat) (c : Closure) (args : List Value) (s : Store) (p : Point) : Prop :=
  Relation.ReflTransGen Starts ⟨n, c, .callClosure c args, s⟩ p

/-! ## Flat runs -/

end Eval

/-- Flat code whose own nodes are some of the given ones. -/
structure Expr.FlatAmong (ns : List (Node Span)) (e : Expr Span) : Prop where
  flat : e.IsFlat
  own : ∀ y ∈ e.own, y ∈ ns

/-- A flat statement whose own nodes are some of the given ones. -/
structure Stmt.FlatAmong (ns : List (Node Span)) (x : Stmt Span) : Prop where
  flat : x.IsFlat
  own : ∀ y ∈ x.own, y ∈ ns

/-- A flat block whose own nodes are some of the given ones. -/
structure Block.FlatAmong (ns : List (Node Span)) (b : Block Span) : Prop where
  flat : b.IsFlat
  own : ∀ y ∈ b.own, y ∈ ns

section FlatAmong

variable {ns : List (Node Span)}

theorem Expr.areFlat_of_among {es : List (Expr Span)} (h : ∀ e ∈ es, e.FlatAmong ns) :
    Expr.AreFlat es ∧ ∀ y ∈ Expr.ownOfList es, y ∈ ns := by
  induction es with
  | nil => exact ⟨trivial, fun y hy => absurd hy List.not_mem_nil⟩
  | cons e es ih =>
    have he := h e List.mem_cons_self
    have hes := ih fun e' he' => h e' (List.mem_cons_of_mem _ he')
    exact ⟨⟨he.flat, hes.1⟩, fun y hy => (List.mem_append.1 hy).elim (he.own y) (hes.2 y)⟩

theorem Expr.among_of_areFlat : ∀ {es : List (Expr Span)}, Expr.AreFlat es →
    (∀ y ∈ Expr.ownOfList es, y ∈ ns) → ∀ e ∈ es, e.FlatAmong ns
  | [], _, _, _, he => absurd he List.not_mem_nil
  | e :: es, hf, hown, f, hf' => by
    rcases List.mem_cons.1 hf' with rfl | hf'
    · exact ⟨hf.1, fun y hy => hown y (List.mem_append_left _ hy)⟩
    · exact Expr.among_of_areFlat hf.2 (fun y hy => hown y (List.mem_append_right _ hy)) f hf'

theorem Stmt.among_of_areFlat {ss : List (Stmt Span)} (hf : Stmt.AreFlat ss)
    (hown : ∀ y ∈ Stmt.ownOfList ss, y ∈ ns) : ∀ x ∈ ss, x.FlatAmong ns := fun x hx =>
  ⟨Stmt.areFlat_iff.1 hf x hx, fun y hy => hown y (Stmt.mem_ownOfList.2 ⟨x, hx, hy⟩)⟩

theorem Block.FlatAmong.statements {b : Block Span} (h : b.FlatAmong ns) :
    ∀ x ∈ b.statements, x.FlatAmong ns := by
  obtain ⟨m, ss⟩ := b
  exact Stmt.among_of_areFlat h.flat fun y hy => h.own y (List.mem_cons_of_mem _ hy)

namespace Expr.FlatAmong

variable {m : Span} {op : UnaryOp} {bop : BinaryOp} {e l r f : Expr Span} {es : List (Expr Span)}

theorem unary (h : (Expr.unary m op e).FlatAmong ns) : e.FlatAmong ns :=
  ⟨h.flat, fun y hy => h.own y (List.mem_cons_of_mem _ hy)⟩

theorem binary (h : (Expr.binary m bop l r).FlatAmong ns) : l.FlatAmong ns ∧ r.FlatAmong ns :=
  ⟨⟨h.flat.1, fun y hy => h.own y (List.mem_cons_of_mem _ (List.mem_append_left _ hy))⟩,
    ⟨h.flat.2, fun y hy => h.own y (List.mem_cons_of_mem _ (List.mem_append_right _ hy))⟩⟩

theorem call (h : (Expr.call m f es).FlatAmong ns) :
    f.FlatAmong ns ∧ ∀ e ∈ es, e.FlatAmong ns :=
  ⟨⟨h.flat.1, fun y hy => h.own y (List.mem_cons_of_mem _ (List.mem_append_left _ hy))⟩,
    Expr.among_of_areFlat h.flat.2 fun y hy =>
      h.own y (List.mem_cons_of_mem _ (List.mem_append_right _ hy))⟩

theorem array (h : (Expr.array m es).FlatAmong ns) : ∀ e ∈ es, e.FlatAmong ns :=
  Expr.among_of_areFlat h.flat fun y hy => h.own y (List.mem_cons_of_mem _ hy)

theorem index (h : (Expr.index m l r).FlatAmong ns) : l.FlatAmong ns ∧ r.FlatAmong ns :=
  ⟨⟨h.flat.1, fun y hy => h.own y (List.mem_cons_of_mem _ (List.mem_append_left _ hy))⟩,
    ⟨h.flat.2, fun y hy => h.own y (List.mem_cons_of_mem _ (List.mem_append_right _ hy))⟩⟩

theorem signal {k : Option Exit} (h : (Expr.signal m k (some e)).FlatAmong ns) : e.FlatAmong ns :=
  ⟨h.flat, fun y hy => h.own y (List.mem_cons_of_mem _ hy)⟩

theorem signalIs {k : Option Exit} (h : (Expr.signalIs m e k).FlatAmong ns) : e.FlatAmong ns :=
  ⟨h.flat, fun y hy => h.own y (List.mem_cons_of_mem _ hy)⟩

theorem signalValue (h : (Expr.signalValue m e).FlatAmong ns) : e.FlatAmong ns :=
  ⟨h.flat, fun y hy => h.own y (List.mem_cons_of_mem _ hy)⟩

end Expr.FlatAmong

namespace Stmt.FlatAmong

variable {m : Span} {x : Name} {d : DeclKind} {e t : Expr Span} {b : Block Span}

theorem declaration (h : (Stmt.declaration m x d (some e)).FlatAmong ns) : e.FlatAmong ns :=
  ⟨h.flat.2, fun y hy => h.own y (List.mem_cons_of_mem _ hy)⟩

theorem assignment (h : (Stmt.assignment m t e).FlatAmong ns) : t.FlatAmong ns ∧ e.FlatAmong ns :=
  ⟨⟨h.flat.1, fun y hy => h.own y (List.mem_cons_of_mem _ (List.mem_append_left _ hy))⟩,
    ⟨h.flat.2, fun y hy => h.own y (List.mem_cons_of_mem _ (List.mem_append_right _ hy))⟩⟩

theorem expression (h : (Stmt.expression m e).FlatAmong ns) : e.FlatAmong ns :=
  ⟨h.flat, fun y hy => h.own y (List.mem_cons_of_mem _ hy)⟩

theorem block (h : (Stmt.block b).FlatAmong ns) : b.FlatAmong ns := ⟨h.flat, h.own⟩

theorem branch {o : Option (Block Span)} (h : (Stmt.branch m e b o).FlatAmong ns) :
    e.FlatAmong ns ∧ b.FlatAmong ns ∧ ∀ f, o = some f → f.FlatAmong ns := by
  have hflat : e.IsFlat ∧ b.IsFlat ∧ ∀ f, o = some f → f.IsFlat := by
    have := h.flat
    cases o <;> simp_all [Stmt.IsFlat]
  have hown : ∀ {y}, y ∈ e.own ++ (b.own ++ o.elim [] Block.own) → y ∈ ns := fun {y} hy =>
    h.own y (by cases o <;> exact List.mem_cons_of_mem _ hy)
  exact ⟨⟨hflat.1, fun y hy => hown (List.mem_append_left _ hy)⟩,
    ⟨hflat.2.1, fun y hy => hown (List.mem_append_right _ (List.mem_append_left _ hy))⟩,
    fun f hf => ⟨hflat.2.2 f hf, fun y hy => by
      subst hf
      exact hown (List.mem_append_right _ (List.mem_append_right _ hy))⟩⟩

theorem loop {hd : Header Span} (h : (Stmt.loop m hd b).FlatAmong ns) :
    hd.IsFlat ∧ (∀ y ∈ hd.own, y ∈ ns) ∧ b.FlatAmong ns :=
  ⟨h.flat.1, fun y hy => h.own y (List.mem_cons_of_mem _ (List.mem_append_left _ hy)),
    h.flat.2, fun y hy => h.own y (List.mem_cons_of_mem _ (List.mem_append_right _ hy))⟩

theorem ret (h : (Stmt.ret m (some e)).FlatAmong ns) : e.FlatAmong ns :=
  ⟨h.flat, fun y hy => h.own y (List.mem_cons_of_mem _ hy)⟩

end Stmt.FlatAmong

/-- The clauses of the header of a flat `for` that counts. -/
theorem Header.among_counting {m : Span} {i : Option (Stmt Span)} {c : Option (Expr Span)}
    {u : Option (Stmt Span)} (hf : (Header.counting m i c u).IsFlat)
    (hown : ∀ y ∈ (Header.counting m i c u).own, y ∈ ns) :
    (∀ s, i = some s → s.FlatAmong ns) ∧ (∀ e, c = some e → e.FlatAmong ns) ∧
      ∀ s, u = some s → s.FlatAmong ns := by
  obtain ⟨hi, hc, hu⟩ := Header.isFlat_counting.1 hf
  rw [Header.own_counting] at hown
  refine ⟨fun s hs => ⟨(hi s hs).2, fun y hy => ?_⟩, fun e he => ⟨hc e he, fun y hy => ?_⟩,
    fun s hs => ⟨(hu s hs).2, fun y hy => ?_⟩⟩
  · subst hs
    exact hown y (List.mem_cons_of_mem _ (List.mem_append_left _ hy))
  · subst he
    exact hown y (List.mem_cons_of_mem _ (List.mem_append_right _ (List.mem_append_left _ hy)))
  · subst hs
    exact hown y (List.mem_cons_of_mem _ (List.mem_append_right _ (List.mem_append_right _ hy)))

end FlatAmong

namespace Eval

/-- The frame that a piece runs in; that of a call is yet to be made. -/
def Task.env? : Task → Option FrameId
  | .expr _ env | .exprs _ env | .stmts _ env | .block _ env | .stmt _ env | .assign _ _ env
  | .loop _ _ env | .whileLoop _ _ env | .countingLoop _ _ _ _ env | .condition _ env
  | .update _ env
  | .forOfLoop _ _ _ _ _ env => some env
  | .call .. | .callClosure .. => none

/-- A flat piece of code whose own nodes are some of the given ones, or a call of flat code. -/
def Task.Fits (ns : List (Node Span)) (s : Store) : Task → Prop
  | .expr e _ => e.FlatAmong ns
  | .exprs es _ => ∀ e ∈ es, e.FlatAmong ns
  | .call .. => True
  | .callClosure c _ => c.frame < s.frames.size ∧ c.body.IsFlat
  | .stmts ss _ => ∀ x ∈ ss, x.FlatAmong ns
  | .block b _ => b.FlatAmong ns
  | .stmt x _ => x.FlatAmong ns
  | .assign t _ _ => t.FlatAmong ns
  | .loop h b _ => h.IsFlat ∧ (∀ y ∈ h.own, y ∈ ns) ∧ b.FlatAmong ns
  | .whileLoop c b _ => c.FlatAmong ns ∧ b.FlatAmong ns
  | .countingLoop copies c u b _ => copies = false ∧ (∀ e, c = some e → e.FlatAmong ns) ∧
    (∀ x, u = some x → x.FlatAmong ns) ∧ b.FlatAmong ns
  | .condition c _ => ∀ e, c = some e → e.FlatAmong ns
  | .update u _ => ∀ x, u = some x → x.FlatAmong ns
  | .forOfLoop _ _ x d b _ => (d = none ∨ d = some .var) ∧
    (∃ y ∈ ns, y.sets? = some (x, none)) ∧ b.FlatAmong ns

/-- A call of a function with flat code has made the frame, and since then only own nodes of the
    code and closures have changed anything. -/
structure Activation (c : Closure) (env : FrameId) (s : Store) : Prop where
  flat : c.body.IsFlat
  entered : ∃ (s₀ : Store) (args : List Value) (fr : Frame), s₀.Sound ∧ c.frame < s₀.frames.size ∧
    callFrame c args = .ok fr ∧
    env = s₀.frames.size ∧ (s₀.newFrame fr).2.Changes c.body.own env s

namespace Activation

variable {c : Closure} {env : FrameId} {s t : Store} {ns : List (Node Span)} {α : Type}

theorem sound (h : Activation c env s) : s.Sound := by
  obtain ⟨s₀, args, fr, -, -, -, -, hch⟩ := h.entered
  exact hch.sound

/-- The frame of the call has the parameters and the `var`s of the function, and stands in that of
    the closure. -/
theorem frame (h : Activation c env s) : ∃ fr, s.frames[env]? = some fr ∧ fr.parent = some c.frame ∧
    ∀ x, fr.has x = true ↔ x ∈ c.params ∨ x ∈ c.body.vars.map (·.1) := by
  obtain ⟨s₀, args, fr, -, -, hfr, rfl, hch⟩ := h.entered
  obtain ⟨fr', hfr', hparent, hnames⟩ := callFrame_flat h.flat args
  obtain rfl := Except.ok.inj (hfr'.symm.trans hfr)
  obtain ⟨fr'', hf, hp, hx⟩ := hch.later.frames Store.getElem?_newFrame_self
  exact ⟨fr'', hf, hp.trans hparent, fun x => by rw [hx, hnames]⟩

theorem lt (h : Activation c env s) : env < s.frames.size := by
  obtain ⟨fr, hf, -⟩ := h.frame
  exact Store.lt_of_frame hf

/-- A call makes a frame. -/
theorem of_call {args : List Value} {fr : Frame} (hs : s.Sound) (hf : c.frame < s.frames.size)
    (hb : c.body.IsFlat) (hfr : callFrame c args = .ok fr) :
    Activation c s.frames.size (s.newFrame fr).2 := by
  obtain ⟨fr', hfr', hparent, -⟩ := callFrame_flat hb args
  obtain rfl := Except.ok.inj (hfr'.symm.trans hfr)
  exact ⟨hb, s, args, fr', hs, hf, hfr, rfl, .refl (hs.newFrame hparent hf)⟩

/-- The call goes on. -/
theorem done (h : Activation c env s) {x : Run α} {a : α} (hk : KeepsTo ns env x)
    (hsub : ∀ y ∈ ns, y ∈ c.body.own) (hx : x s = .done a t) : Activation c env t := by
  have hch : s.Changes ns env t := hk.changes h.sound h.lt (by rw [hx]; rfl)
  obtain ⟨s₀, args, fr, hs₀, hf, hfr, rfl, hch₀⟩ := h.entered
  refine ⟨h.flat, s₀, args, fr, hs₀, hf, hfr, rfl, .trans ?_ ?_ hch₀ (hch.mono hsub)⟩
  · obtain ⟨fr', hfr', hparent, -⟩ := callFrame_flat h.flat args
    obtain rfl := Except.ok.inj (hfr'.symm.trans hfr)
    exact hs₀.newFrame hparent hf
  · exact Store.lt_of_frame Store.getElem?_newFrame_self

/-! What the evaluator has done with a piece of the code, the call has outlived. -/

section Pieces

variable {n : Nat} (h : Activation c env s)

include h

theorem expr {e : Expr Span} {v : Value} (he : e.FlatAmong c.body.own)
    (hx : Eval.expr n e env s = .done v t) : Activation c env t :=
  h.done ((kept n).expr he.flat) he.own hx

theorem exprs {es : List (Expr Span)} {vs : List Value} (hes : ∀ e ∈ es, e.FlatAmong c.body.own)
    (hx : Eval.exprs n es env s = .done vs t) : Activation c env t :=
  have hes' := Expr.areFlat_of_among hes
  h.done ((kept n).exprs hes'.1) hes'.2 hx

theorem stmt {x : Stmt Span} (hx : x.FlatAmong c.body.own) (hr : Eval.stmt n x env s = .done () t) :
    Activation c env t := h.done ((kept n).stmt hx.flat) hx.own hr

theorem goesOn {b : Block Span} {g : Bool} (hb : b.FlatAmong c.body.own)
    (hr : Eval.goesOn (Eval.block n b env) s = .done g t) : Activation c env t :=
  h.done ((kept n).block hb.flat).goesOn hb.own hr

theorem condition {o : Option (Expr Span)} {g : Bool}
    (ho : ∀ e, o = some e → e.FlatAmong c.body.own) (hr : Eval.condition n o env s = .done g t) :
    Activation c env t :=
  h.done ((kept n).condition fun e he => (ho e he).flat) (by
    cases o with
    | none => exact fun y hy => absurd hy List.not_mem_nil
    | some e => exact (ho e rfl).own) hr

theorem update {o : Option (Stmt Span)} (ho : ∀ x, o = some x → x.FlatAmong c.body.own)
    (hr : Eval.update n o env s = .done () t) : Activation c env t :=
  h.done ((kept n).update fun x hx => (ho x hx).flat) (by
    cases o with
    | none => exact fun y hy => absurd hy List.not_mem_nil
    | some x => exact (ho x rfl).own) hr

/-- A loop over a sequence sets its variable in the frame of the call. -/
theorem element {x : Name} {d : Option DeclKind} {v : Value} {inner : FrameId}
    (hd : d = none ∨ d = some .var) (hset : ∃ y ∈ c.body.own, y.sets? = some (x, none))
    (hr : elementFrame x d v env s = .done inner t) : inner = env ∧ Activation c env t := by
  obtain ⟨y, hy, hset⟩ := hset
  have hr : (setVariable env x v >>= fun _ => pure env) s = .done inner t := by
    rcases hd with rfl | rfl <;> exact hr
  rw [Process.bind_apply] at hr
  cases hv : setVariable env x v s with
  | done u t' =>
    rw [hv] at hr
    cases hr
    exact ⟨rfl, h.done (keepsTo_element hy hset v) (fun _ hz => hz) hv⟩
  | _ =>
    rw [hv] at hr
    cases hr

end Pieces

end Activation

/-- A moment of a run of flat code. -/
structure Point.Regular (p : Point) : Prop where
  sound : p.store.Sound
  fits : p.task.Fits p.code.body.own p.store
  active : ∀ env, p.task.env? = some env → Activation p.code env p.store

/-- A piece of the code of a function in the frame of a call. -/
theorem Point.Regular.of_active {n : Nat} {c : Closure} {task : Task} {s : Store} {env : FrameId}
    (h : Activation c env s) (he : task.env? = some env) (hf : task.Fits c.body.own s) :
    Regular ⟨n, c, task, s⟩ :=
  ⟨h.sound, hf, fun _ he' => Option.some.inj (he.symm.trans he') ▸ h⟩

namespace Starts

section Pieces

variable {n : Nat} {c : Closure} {env : FrameId} {s : Store} {q : Point}

/-- An expression of flat code starts pieces of flat code. -/
theorem regular_expr {e : Expr Span} (h : Starts ⟨n, c, .expr e env, s⟩ q) (ha : Activation c env s)
    (he : e.FlatAmong c.body.own) : q.Regular := by
  cases h with
  | operand => exact .of_active ha rfl he.unary
  | left => exact .of_active ha rfl he.binary.1
  | right hl => exact .of_active (ha.expr he.binary.1 hl) rfl he.binary.2
  | callee => exact .of_active ha rfl he.call.1
  | arguments hv => exact .of_active (ha.expr he.call.1 hv) rfl he.call.2
  | call hv hargs => exact ⟨((ha.expr he.call.1 hv).exprs he.call.2 hargs).sound, trivial, nofun⟩
  | elements => exact .of_active ha rfl he.array
  | base => exact .of_active ha rfl he.index.1
  | position hb => exact .of_active (ha.expr he.index.1 hb) rfl he.index.2
  | carried => exact .of_active ha rfl he.signal
  | tested => exact .of_active ha rfl he.signalIs
  | opened => exact .of_active ha rfl he.signalValue

/-- A statement of flat code starts pieces of flat code. -/
theorem regular_stmt {x : Stmt Span} (h : Starts ⟨n, c, .stmt x env, s⟩ q) (ha : Activation c env s)
    (hx : x.FlatAmong c.body.own) : q.Regular := by
  cases h with
  | initial => exact .of_active ha rfl hx.declaration
  | assigned => exact .of_active ha rfl hx.assignment.2
  | target he => exact .of_active (ha.expr hx.assignment.2 he) rfl hx.assignment.1
  | expression => exact .of_active ha rfl hx.expression
  | block => exact .of_active ha rfl hx.block
  | test => exact .of_active ha rfl hx.branch.1
  | consequent hc => exact .of_active (ha.expr hx.branch.1 hc) rfl hx.branch.2.1
  | alternative hc => exact .of_active (ha.expr hx.branch.1 hc) rfl (hx.branch.2.2 _ rfl)
  | loop => exact .of_active ha rfl hx.loop
  | returned => exact .of_active ha rfl hx.ret

/-- A loop of flat code starts pieces of flat code, and makes no copy of its variable. -/
theorem regular_loop {hd : Header Span} {b : Block Span} (h : Starts ⟨n, c, .loop hd b env, s⟩ q)
    (ha : Activation c env s) (hf : hd.IsFlat) (hown : ∀ y ∈ hd.own, y ∈ c.body.own)
    (hb : b.FlatAmong c.body.own) : q.Regular := by
  cases h with
  | whileLoop =>
    exact .of_active ha rfl ⟨⟨hf, fun y hy => hown y (List.mem_cons_of_mem _ hy)⟩, hb⟩
  | initCopied hi | countingCopied hi =>
    rw [copied?_flat ((Header.isFlat_counting.1 hf).1 _ rfl).2] at hi
    cases hi
  | init => exact .of_active ha rfl ((Header.among_counting hf hown).1 _ rfl)
  | countingInit _ hs =>
    obtain ⟨hi, hc, hu⟩ := Header.among_counting hf hown
    exact .of_active (ha.stmt (hi _ rfl) hs) rfl ⟨rfl, hc, hu, hb⟩
  | counting =>
    obtain ⟨-, hc, hu⟩ := Header.among_counting hf hown
    exact .of_active ha rfl ⟨rfl, hc, hu, hb⟩
  | sequence => exact .of_active ha rfl ⟨hf.2, fun y hy => hown y (List.mem_cons_of_mem _ hy)⟩
  | forOfLoop he hq =>
    have ha' := ha.expr ⟨hf.2, fun y hy => hown y (List.mem_cons_of_mem _ hy)⟩ he
    have hseq : ∀ v, KeepsTo [] env (sequenceOf v) := .sequenceOf
    refine .of_active (ha'.done (hseq _) nofun hq) rfl
      ⟨hf.1, ⟨_, hown _ List.mem_cons_self, ?_⟩, hb⟩
    rcases hf.1 with rfl | rfl <;> rfl

/-- A round of a `for` that counts starts pieces of flat code. -/
theorem regular_countingLoop {e : Option (Expr Span)} {u : Option (Stmt Span)} {b : Block Span}
    (h : Starts ⟨n, c, .countingLoop false e u b env, s⟩ q) (ha : Activation c env s)
    (he : ∀ x, e = some x → x.FlatAmong c.body.own) (hu : ∀ x, u = some x → x.FlatAmong c.body.own)
    (hb : b.FlatAmong c.body.own) : q.Regular := by
  cases h with
  | countingTest => exact .of_active ha rfl he
  | countingBody hc => exact .of_active (ha.condition he hc) rfl hb
  | countingUpdate hc hg hr =>
    cases hr
    exact .of_active ((ha.condition he hc).goesOn hb hg) rfl hu
  | countingAgain hc hg hr hz =>
    cases hr
    exact .of_active (((ha.condition he hc).goesOn hb hg).update hu hz) rfl ⟨rfl, he, hu, hb⟩

end Pieces

/-- The pieces that flat code starts are flat, and run in the frames of calls of their functions. -/
theorem regular {p q : Point} (h : Starts p q) (hp : p.Regular) : q.Regular := by
  obtain ⟨n, c, task, s⟩ := p
  obtain ⟨hs, hf, hact⟩ := hp
  dsimp only at hs hf hact
  cases task with
  | expr e env => exact h.regular_expr (hact _ rfl) hf
  | stmt x env => exact h.regular_stmt (hact _ rfl) hf
  | loop hd b env => exact h.regular_loop (hact _ rfl) hf.1 hf.2.1 hf.2.2
  | countingLoop copies e u b env =>
    obtain ⟨rfl, he, hu, hb⟩ := hf
    exact h.regular_countingLoop (hact _ rfl) he hu hb
  | call f args =>
    cases h with
    | @closure _ _ i =>
      refine ⟨hs, ?_, nofun⟩
      change (s.closures[i]?.getD default).frame < s.frames.size ∧
        (s.closures[i]?.getD default).body.IsFlat
      cases hi : s.closures[i]? with
      | some c => exact hs.closures hi
      -- a closure that is not there has no code
      | none => exact ⟨hs.global, trivial⟩
  | callClosure c args =>
    cases h with
    | body hc =>
      exact .of_active (.of_call hs hf.1 hf.2 hc) rfl
        (Block.FlatAmong.statements ⟨hf.2, fun _ hy => hy⟩)
  | exprs es env =>
    cases h with
    | head => exact .of_active (hact _ rfl) rfl (hf _ List.mem_cons_self)
    | tail he =>
      exact .of_active ((hact _ rfl).expr (hf _ List.mem_cons_self) he) rfl
        fun e h => hf e (List.mem_cons_of_mem _ h)
  | stmts ss env =>
    cases h with
    | first => exact .of_active (hact _ rfl) rfl (hf _ List.mem_cons_self)
    | rest hx =>
      exact .of_active ((hact _ rfl).stmt (hf _ List.mem_cons_self) hx) rfl
        fun x h => hf x (List.mem_cons_of_mem _ h)
  | block b env =>
    cases h with
    | inner hb =>
      rw [blockFrame_flat (Block.FlatAmong.flat hf)] at hb
      cases hb
      exact .of_active (hact _ rfl) rfl (Block.FlatAmong.statements hf)
  | assign t v env =>
    cases h with
    | assignedBase => exact .of_active (hact _ rfl) rfl (Expr.FlatAmong.index hf).1
    | assignedPosition hb =>
      obtain ⟨hb', hi⟩ := Expr.FlatAmong.index hf
      exact .of_active ((hact _ rfl).expr hb' hb) rfl hi
  | whileLoop e b env =>
    cases h with
    | whileTest => exact .of_active (hact _ rfl) rfl hf.1
    | whileBody hc => exact .of_active ((hact _ rfl).expr hf.1 hc) rfl hf.2
    | whileAgain hc _ hb => exact .of_active (((hact _ rfl).expr hf.1 hc).goesOn hf.2 hb) rfl hf
  | condition e env =>
    cases h with
    | condition => exact .of_active (hact _ rfl) rfl (hf _ rfl)
  | update u env =>
    cases h with
    | update => exact .of_active (hact _ rfl) rfl (hf _ rfl)
  | forOfLoop r i x d b env =>
    cases h with
    | forOfBody _ hr =>
      obtain ⟨rfl, ha⟩ := (hact _ rfl).element hf.1 hf.2.1 hr
      exact .of_active ha rfl hf.2.2
    | forOfAgain _ hr hb =>
      obtain ⟨rfl, ha⟩ := (hact _ rfl).element hf.1 hf.2.1 hr
      exact .of_active (ha.goesOn hf.2.2 hb) rfl hf

end Starts

/-- Every moment of a call of a function with flat code is one of a run of flat code. -/
theorem Visits.regular {n : Nat} {c : Closure} {args : List Value} {s : Store} {p : Point}
    (h : Visits n c args s p) (hs : s.Sound) (hf : c.frame < s.frames.size) (hb : c.body.IsFlat) :
    p.Regular := by
  induction h with
  | refl => exact ⟨hs, ⟨hf, hb⟩, nofun⟩
  | tail _ h ih => exact h.regular ih

end Eval

end FlatScope
