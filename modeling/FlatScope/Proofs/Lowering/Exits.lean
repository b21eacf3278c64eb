import FlatScope.Proofs.Dispatch
import FlatScope.Proofs.Isolation
import FlatScope.Proofs.Lowering.Total

/-!
# Early exits of lowered code

The lowered code has the form of the code that it stands for (`DeliversStmt` and its companions):
its statements stand for those of the source in order, a block or the body of a loop may have become
the code of a wrapper that is called in its place, and nested functions stand for nested functions.
And every early exit in it, followed through the wrappers and loops around it, arrives at the loop
or function that the exit of the source is for, with the value that it is lowered to
(`Context.Reaches`).

* `FunctionDef.lower_delivers`: what an analysed function is lowered to delivers all its exits.
-/

namespace FlatScope

open Node

/-! ## Where exits of the source are to arrive -/

/-- What a piece of source code and the piece that it is lowered to stand in: the innermost function
    and the innermost loop of that function around the former, and the levels around the latter. -/
structure Context where
  function : NodeId
  loop? : Option NodeId
  levels : List Level

namespace Context

/-- The code of a function. -/
def ofFunction (id : NodeId) : Context := ⟨id, none, [.function id]⟩

/-- The body of a loop. -/
def inLoop (c : Context) (id : NodeId) : Context := ⟨c.function, some id, .loop id :: c.levels⟩

/-- The code of a wrapper, which is no function of the source. -/
def inCall (c : Context) (l : Level) : Context := { c with levels := l :: c.levels }

/-- Where an early exit of the source is to arrive, with the lowered value of a `return`. -/
def target? (c : Context) (value : Option (Expr Span)) : Exit → Option Arrival
  | .ret => some (.returned c.function value)
  | e => c.loop?.map (.jumped e)

/-- The statements leave the code by an exit of the given kind and with the given value, which
    arrives where that exit of the source is to arrive. Before that they only copy variables. -/
def Reaches (c : Context) (e : Exit) (value : Option (Expr Span)) (out : List (Stmt Span)) : Prop :=
  ∃ ws x l t, out = writeBackStmts ws ++ [x] ∧ x.leaving? = some l ∧ l.kind = e ∧ l.value = value ∧
    c.target? value e = some t ∧ arrive c.levels l = some t

end Context

/-- The statements `out` call a wrapper with the given code for `body`. If the wrapper may be left
    early, its code ends with the marker, the call puts what it returns into a variable, and the
    statements behind it go on from the marker. -/
inductive CallsWrapper (callee : Expr Span) (body code out : List (Stmt Span)) : Level → Prop where
  | plain {s t : Span} {args : List (Expr Span)} {ws : WriteBacks}
    (ends : code = body ++ writeBackStmts ws)
    (calls : out = [.expression s (.call t callee args)]) :
    CallsWrapper callee body code out .plainCall
  | signal {s t u v : Span} {args : List (Expr Span)} {ws : WriteBacks} {sig : Name}
    {handlers : List (Stmt Span)}
    (ends : code = body ++ (writeBackStmts ws ++ [.ret s (some (.signal t none none))]))
    (calls : out = .declaration u sig .var (some (.call v callee args)) :: handlers)
    (marker : Stmt.reactionOfList? sig none handlers = some .goOn) :
    CallsWrapper callee body code out (.call sig handlers)

/-! ## What lowered code delivers -/

mutual

/-- The lowered expression has the form of the expression, and delivers the exits of the functions
    in it. -/
def DeliversExpr : Expr Mark → Expr Span → Prop
  | .literal _ v, x => ∃ s, x = .literal s v
  | .name .., x => ∃ s n, x = .name s n
  | .unary _ op e, x => ∃ s e', DeliversExpr e e' ∧ x = .unary s op e'
  | .binary _ op e f, x => ∃ s e' f', DeliversExpr e e' ∧ DeliversExpr f f' ∧ x = .binary s op e' f'
  | .call _ f args, x =>
    ∃ s f' args', DeliversExpr f f' ∧ DeliversExprs args args' ∧ x = .call s f' args'
  | .array _ es, x => ∃ s es', DeliversExprs es es' ∧ x = .array s es'
  | .index _ b i, x => ∃ s b' i', DeliversExpr b b' ∧ DeliversExpr i i' ∧ x = .index s b' i'
  | .function m ps (.mk _ ss), x => ∃ s t out, ∃ vars : List Name,
    DeliversStmts (.ofFunction m.id) ss out ∧
      x = .function s ps (.mk t (vars.map (.declaration .unknown · .var none) ++ out))
  | .signal .., _ | .signalIs .., _ | .signalValue .., _ | .unknown .., _ => False

def DeliversExprs : List (Expr Mark) → List (Expr Span) → Prop
  | [], xs => xs = []
  | e :: es, xs => ∃ e' es', DeliversExpr e e' ∧ DeliversExprs es es' ∧ xs = e' :: es'

/-- The lowered statements deliver the exits of the statements. -/
def DeliversStmts (c : Context) : List (Stmt Mark) → List (Stmt Span) → Prop
  | [], out => out = []
  | s :: ss, out => ∃ o os, DeliversStmt c s o ∧ DeliversStmts c ss os ∧ out = o ++ os

/-- The lowered block delivers the exits of the block, whose statements it has or puts into a
    wrapper. -/
def DeliversBlock (c : Context) : Block Mark → Block Span → Prop
  | .mk _ ss, x => ∃ s out, x = .mk s out ∧ (DeliversStmts c ss out ∨
    ∃ level body code t u, DeliversStmts (c.inCall level) ss body ∧
      CallsWrapper (.function t [] (.mk u code)) body code out level)

/-- The lowered statements deliver the exits of the statement. -/
def DeliversStmt (c : Context) : Stmt Mark → List (Stmt Span) → Prop
  | .declaration _ _ _ none, out => out = [] ∨ ∃ s n v, out = [.declaration s n .var v] ∧
    ∀ e, v = some e → ∃ t, e = .literal t .undefined
  | .declaration _ _ _ (some e), out => ∃ e' s t n, DeliversExpr e e' ∧
    (out = [.declaration s n .var (some e')] ∨ out = [.assignment s (.name t n) e'])
  | .assignment _ t v, out =>
    ∃ s t' v', DeliversExpr t t' ∧ DeliversExpr v v' ∧ out = [.assignment s t' v']
  | .expression _ e, out => ∃ s e', DeliversExpr e e' ∧ out = [.expression s e']
  | .block b, out => ∃ c', DeliversBlock c b c' ∧ (out = [.block c'] ∨ out = c'.statements)
  | .branch _ d t none, out =>
    ∃ s d' t', DeliversExpr d d' ∧ DeliversBlock c t t' ∧ out = [.branch s d' t' none]
  | .branch _ d t (some e), out => ∃ s d' t' e', DeliversExpr d d' ∧ DeliversBlock c t t' ∧
    DeliversBlock c e e' ∧ out = [.branch s d' t' (some e')]
  | .loop m h (.mk _ ss), out => ∃ s t h' inner, DeliversHeader c h h' ∧
    ((DeliversStmts (c.inLoop m.id) ss inner ∧ out = [.loop s h' (.mk t inner)]) ∨
      ∃ level body code callee ps u v, DeliversStmts ((c.inLoop m.id).inCall level) ss body ∧
        CallsWrapper callee body code inner level ∧
        (callee = .function u ps (.mk v code) ∧ out = [.loop s h' (.mk t inner)] ∨
          ∃ w n, callee = .name w n ∧
          out = [.declaration w n .var (some (.function u ps (.mk v code))),
            .loop s h' (.mk t inner)]))
  | .ret _ none, out => c.Reaches .ret none out
  | .ret _ (some e), out => ∃ e', DeliversExpr e e' ∧ c.Reaches .ret (some e') out
  | .brk _, out => c.Reaches .brk none out
  | .cont _, out => c.Reaches .cont none out
  | .unknown .., _ => False

/-- The lowered header of a loop delivers the exits of the header. -/
def DeliversHeader (c : Context) : Header Mark → Header Span → Prop
  | .whileTrue _ e, x => ∃ s e', DeliversExpr e e' ∧ x = .whileTrue s e'
  | .counting _ i e u, x => ∃ s i' e' u',
    (match i with
      | none => i' = none
      | some y => DeliversStmt c y i'.toList) ∧
    (match e with
      | none => e' = none
      | some y => ∃ y', DeliversExpr y y' ∧ e' = some y') ∧
    (match u with
      | none => u' = none
      | some y => DeliversStmt c y u'.toList) ∧
    x = .counting s i' e' u'
  | .forOf _ _ _ e, x => ∃ s n k e', DeliversExpr e e' ∧ x = .forOf s n k e'
  | .unknown .., _ => False

end

/-- The lowered function delivers the exits of the function and of those nested in it. -/
def FunctionDef.Delivers (fn : FunctionDef Mark) (out : FunctionDef Span) : Prop :=
  ∃ s t body, ∃ vars : List Name, DeliversStmts (.ofFunction fn.mark.id) fn.body.statements body ∧
    out = ⟨s, fn.name, fn.params, .mk t (vars.map (.declaration .unknown · .var none) ++ body)⟩

/-! ## What a call does about its signals -/

/-- What an action about a signal of the given kind is to be read as. -/
def ExitAction.reaction (e : Exit) : ExitAction → Reaction
  | .jump => if e = .brk then .breaks else .continues
  | .returnValue => .returnsValue
  | .propagate => .propagates

section Handlers

variable {sig : Name} {kind : SignalKind} {ws : WriteBacks} {span : Span}

/-- Copying other variables changes nothing about a signal. -/
theorem reactionOfList?_writeBacks (h : sig ∉ ws.map (·.1)) (ss : List (Stmt Span)) :
    Stmt.reactionOfList? sig kind (writeBackStmts ws ++ ss) = Stmt.reactionOfList? sig kind ss := by
  induction ws with
  | nil => rfl
  | cons w ws ih =>
    rw [List.map_cons, List.mem_cons, not_or] at h
    rw [writeBackStmts, List.map_cons, List.cons_append, Stmt.reactionOfList?, Stmt.reaction?,
      if_neg (Ne.symm h.1)]
    exact ih h.2

/-- A block that copies variables and then does one more thing. -/
theorem reaction?_block (h : sig ∉ ws.map (·.1)) {m : Span} {x : Stmt Span}
    (hx : x.lexical? = none) :
    (Block.mk m (writeBackStmts ws ++ [x])).reaction? sig kind = x.reaction? sig kind := by
  have hlex : (Block.mk m (writeBackStmts ws ++ [x])).lexicals = [] := by
    rw [Block.lexicals, Block.statements, List.filterMap_eq_nil_iff]
    intro y hy
    rcases List.mem_append.1 hy with hy | hy
    · obtain ⟨w, -, rfl⟩ := List.mem_map.1 hy
      rfl
    · rwa [List.mem_singleton.1 hy]
  rw [Block.reaction?, if_pos hlex, reactionOfList?_writeBacks h, Stmt.reactionOfList?]
  split
  · rename_i hgo
    rw [hgo, Stmt.reactionOfList?]
  · rfl

theorem reaction_ne_goOn (e : Exit) (action : ExitAction) : action.reaction e ≠ .goOn := by
  cases action <;> cases e <;> decide

/-- The test for a signal does what is planned for it, if it is that signal. -/
theorem reaction?_handleSignal (h : sig ∉ ws.map (·.1)) (e : Exit) (action : ExitAction) :
    (handleSignal sig ws span e action).reaction? sig kind =
      some (if kind = some e then action.reaction e else .goOn) := by
  have hno : sig ∉ ([] : WriteBacks).map (·.1) := nofun
  have haction : (Block.mk span (actionStmts sig ws span e action)).reaction? sig kind =
      some (action.reaction e) := by
    cases action with
    | jump =>
      refine (reaction?_block hno (by split <;> rfl)).trans ?_
      rw [ExitAction.reaction]
      split <;> rfl
    | returnValue =>
      refine (reaction?_block hno rfl).trans ?_
      rw [Stmt.reaction?, if_pos rfl]
      rfl
    | propagate =>
      refine (reaction?_block h rfl).trans ?_
      rw [Stmt.reaction?, if_pos rfl]
      rfl
  rw [handleSignal, Stmt.reaction?, Expr.finds?, if_pos rfl]
  by_cases hk : kind = some e
  · simp only [hk, decide_true, if_true, ← haction]
  · simp only [Ne.symm hk, hk, decide_false, if_false]

/-- The test for any signal hands it on. -/
theorem reaction?_propagateAll (h : sig ∉ ws.map (·.1)) :
    (propagateAll sig ws span).reaction? sig kind =
      some (if kind = none then .goOn else .propagates) := by
  have hblock : (Block.mk span (writeBackStmts ws ++ [.ret span (some (.name span sig))])).reaction?
      sig kind = some .propagates := by
    refine (reaction?_block h rfl).trans ?_
    rw [Stmt.reaction?, if_pos rfl]
  rw [propagateAll, Stmt.reaction?, Expr.finds?, Expr.finds?, if_pos rfl]
  cases kind with
  | none => rfl
  | some e => exact hblock

/-- The tests for some signals, one after the other. -/
theorem reactionOfList?_handleSignal (h : sig ∉ ws.map (·.1))
    (action : Exit → ExitAction) {e : Exit} : ∀ {es : List Exit}, e ∈ es →
    Stmt.reactionOfList? sig (some e)
      (es.map fun f => handleSignal sig ws span f (action f)) = some ((action e).reaction e)
  | f :: es, he => by
    rw [List.map_cons]
    by_cases hf : e = f
    · subst hf
      exact Stmt.reactionOfList?_leave ((reaction?_handleSignal h e _).trans (by rw [if_pos rfl]))
        (reaction_ne_goOn e _)
    · rw [Stmt.reactionOfList?_goOn ((reaction?_handleSignal h f _).trans
        (by rw [if_neg (by simpa using hf)]))]
      exact reactionOfList?_handleSignal h action ((List.mem_cons.1 he).resolve_left hf)

/-- No test finds the marker of a wrapper that was not left early. -/
theorem reactionOfList?_handleSignal_none (h : sig ∉ ws.map (·.1)) (action : Exit → ExitAction)
    (es : List Exit) : Stmt.reactionOfList? sig none
      (es.map fun f => handleSignal sig ws span f (action f)) = some .goOn := by
  induction es with
  | nil => rfl
  | cons f es ih =>
    rw [List.map_cons, Stmt.reactionOfList?_goOn ((reaction?_handleSignal h f _).trans
      (by rw [if_neg (by simp)])), ih]

/-- A call does about each signal of the wrapper what is planned, and goes on from the marker. -/
theorem reactionOfList?_handlers (h : sig ∉ ws.map (·.1)) (site : CallSite) (exits : List Exit) :
    Stmt.reactionOfList? sig none (site.handlers sig exits ws span) = some .goOn ∧
      ∀ e ∈ exits, Stmt.reactionOfList? sig (some e) (site.handlers sig exits ws span) =
        some ((site.action e).reaction e) := by
  have hmem : ∀ e ∈ exits, e ∈ Exit.all.filter exits.contains := fun e he => by
    refine List.mem_filter.2 ⟨?_, by simpa using he⟩
    cases e <;> decide
  rw [CallSite.handlers]
  split
  case isTrue hall =>
    refine ⟨Stmt.reactionOfList?_goOn (reaction?_propagateAll h), fun e he => ?_⟩
    have hplan : (e, site.action e) ∈ site.plan exits := List.mem_map_of_mem (hmem e he)
    rw [Bool.and_eq_true, List.all_eq_true] at hall
    have haction : site.action e = .propagate := by simpa using hall.2 _ hplan
    rw [haction]
    exact Stmt.reactionOfList?_leave (reaction?_propagateAll h) (reaction_ne_goOn e .propagate)
  case isFalse =>
    rw [CallSite.plan, List.map_map]
    exact ⟨reactionOfList?_handleSignal_none h site.action _, fun e he =>
      reactionOfList?_handleSignal h site.action (hmem e he)⟩

end Handlers

/-! ## Regions and contexts -/

mutual

/-- The loops of a piece of code do not hold up a `return`. -/
theorem Stmt.mayExit_ret {α : Type} :
    ∀ (s : Stmt α) (i j : Bool), s.mayExit .ret i = s.mayExit .ret j
  | .declaration .., _, _ | .assignment .., _, _ | .expression .., _, _ | .ret .., _, _
  | .brk _, _, _
  | .cont _, _, _ | .loop .., _, _ | .unknown .., _, _ => rfl
  | .block b, i, j => b.mayExitIn_ret i j
  | .branch _ _ t none, i, j => by
    rw [Stmt.mayExit, Stmt.mayExit, t.mayExitIn_ret i j]
  | .branch _ _ t (some f), i, j => by
    rw [Stmt.mayExit, Stmt.mayExit, t.mayExitIn_ret i j, f.mayExitIn_ret i j]

theorem Stmt.mayExitList_ret {α : Type} : ∀ (ss : List (Stmt α)) (i j : Bool),
    Stmt.mayExitList .ret i ss = Stmt.mayExitList .ret j ss
  | [], _, _ => rfl
  | s :: ss, i, j => by
    rw [Stmt.mayExitList, Stmt.mayExitList, s.mayExit_ret i j, Stmt.mayExitList_ret ss i j]

theorem Block.mayExitIn_ret {α : Type} : ∀ (b : Block α) (i j : Bool),
    b.mayExitIn .ret i = b.mayExitIn .ret j
  | .mk _ ss, i, j => Stmt.mayExitList_ret ss i j

end

namespace Region

variable {r : Region} {c : Context} {e : Exit}

/-- Whether code in the region makes an exit by a signal. -/
def bySignal (r : Region) : Exit → Bool
  | .ret => r.inWrapper
  | .brk | .cont => r.inWrapper && !r.inLoop

/-- An exit of the given kind out of code in the region arrives where it is to arrive. -/
def Delivers (r : Region) (c : Context) (e : Exit) : Prop :=
  ∀ v, (e ≠ .ret → v = none) → ∃ t, c.target? v e = some t ∧
    arrive c.levels ⟨r.bySignal e, e, v⟩ = some t

/-- A `break` or `continue` in the body of a loop is for that loop. -/
theorem delivers_loopBody {id : NodeId} (he : e ≠ .ret) : r.loopBody.Delivers (c.inLoop id) e := by
  intro v hv
  obtain rfl := hv he
  have hplain : r.loopBody.bySignal e = false := by
    cases e with
    | ret => exact absurd rfl he
    | brk | cont => simp [bySignal, loopBody]
  refine ⟨.jumped e id, ?_, ?_⟩
  · cases e with
    | ret => exact absurd rfl he
    | brk | cont => rfl
  · rw [hplain, Context.inLoop, arrive, if_neg (by simpa using he)]

/-- A `return` in the body of a loop goes on outside of the loop. -/
theorem Delivers.loopBody {id : NodeId} (h : r.Delivers c .ret) :
    r.loopBody.Delivers (c.inLoop id) .ret := by
  intro v hv
  obtain ⟨t, ht, harr⟩ := h v hv
  refine ⟨t, ht, ?_⟩
  rw [Context.inLoop, arrive, if_pos (by simp)]
  exact harr

/-- A signal of a wrapper goes on where the wrapper is called as the exit would there. -/
theorem Delivers.inCall {sig : Name} {exits : List Exit} {span : Span} {ws : WriteBacks}
    (h : r.Delivers c e) (he : e ∈ exits) (hsite : r.site.Handles exits)
    (hsig : sig ∉ r.writeBacks.map (·.1)) :
    (r.wrapper ws).Delivers
      (c.inCall (.call sig (r.site.handlers sig exits r.writeBacks span))) e := by
  intro v hv
  obtain ⟨t, ht, harr⟩ := h v hv
  refine ⟨t, ht, ?_⟩
  have hsignal : (r.wrapper ws).bySignal e = true := by cases e <;> rfl
  rw [hsignal, Context.inCall, arrive, if_pos rfl,
    (reactionOfList?_handlers hsig r.site exits).2 e he]
  have hleaving :
      ((r.site.action e).reaction e).leaving? ⟨true, e, v⟩ = some ⟨r.bySignal e, e, v⟩ := by
    cases e with
    | ret =>
      cases hw : r.inWrapper <;>
        simp [CallSite.action, site, bySignal, hw, ExitAction.reaction, Reaction.leaving?]
    | brk | cont =>
      obtain rfl := hv (by decide)
      cases hl : r.inLoop with
      | true => simp [CallSite.action, site, bySignal, hl, ExitAction.reaction, Reaction.leaving?]
      | false =>
        have hw : r.inWrapper = true := by simpa [site, hl] using hsite _ he (by decide)
        simp [CallSite.action, site, bySignal, hl, hw, ExitAction.reaction, Reaction.leaving?]
  rw [Option.bind_some, hleaving]
  exact harr

/-- Code in the region that may be left by certain exits, with variables of the given roles: its
    exits arrive where they are to arrive, and what is copied before the region is left goes into
    none of its variables. -/
structure Routes (r : Region) (c : Context) (may : Exit → Prop) (roles : Roles) : Prop where
  exits : ∀ e, may e → r.Delivers c e
  jumps : r.inLoop = true → ∀ e, e ≠ .ret → r.Delivers c e
  apart : ∀ x ∈ r.writeBacks.map (·.1), x ∉ roles.names

namespace Routes

variable {may may' : Exit → Prop} {roles roles' : Roles}

/-- A part of the code. -/
theorem mono (h : r.Routes c may roles) (hmay : ∀ e, may' e → may e)
    (hroles : ∀ x ∈ roles'.names, x ∈ roles.names) : r.Routes c may' roles' where
  exits e he := h.exits e (hmay e he)
  jumps := h.jumps
  apart x hx hmem := h.apart x hx (hroles x hmem)

/-- The code of a function. -/
theorem function (r : Region) (id : NodeId) (hmay : ∀ e, may e → e = .ret) :
    r.function.Routes (.ofFunction id) may roles where
  exits e he v _ := by
    obtain rfl := hmay e he
    refine ⟨.returned id v, rfl, ?_⟩
    rw [Context.ofFunction, arrive, if_neg (by simp [bySignal, Region.function])]
  jumps := nofun
  apart := nofun

/-- The body of a loop. -/
theorem loopBody (h : r.Routes c may roles) (id : NodeId) (hmay : ∀ e, may' e → may e) :
    r.loopBody.Routes (c.inLoop id) may' roles where
  exits e he := by
    by_cases hret : e = .ret
    · subst hret
      exact (h.exits _ (hmay _ he)).loopBody
    · exact delivers_loopBody hret
  jumps _ e he := delivers_loopBody he
  apart := h.apart

/-- The header of a loop, which is left by no exit. -/
theorem header (h : r.Routes c may roles) (drivers : List (BindingId × Name))
    (hroles : ∀ x ∈ roles'.names, x ∈ roles.names) :
    (r.loopHeader drivers).Routes c (fun _ => False) roles' where
  exits _ he := he.elim
  jumps := h.jumps
  apart x hx hmem := h.apart x hx (hroles x hmem)

/-- An exit of the whole code of a wrapper is one of the code that its call stands in. -/
theorem delivers_of_mayExit {ss : List (Stmt Mark)}
    (h : r.Routes c (fun e => Stmt.mayExitList e r.inLoop ss) roles)
    (he : Stmt.mayExitList e false ss) : r.Delivers c e := by
  by_cases hret : e = .ret
  · subst hret
    exact h.exits _ (by rw [Stmt.mayExitList_ret ss r.inLoop false]; exact he)
  · cases hl : r.inLoop with
    | true => exact h.jumps hl e hret
    | false => exact h.exits e (by rw [hl]; exact he)

end Routes

/-- An exit that is not for a loop in the same function or wrapper. -/
theorem Delivers.leave (h : r.Delivers c e) (hl : e = .ret ∨ r.inLoop = false)
    {v : Option (Expr Span)} (hv : e ≠ .ret → v = none) {plain : Stmt Span}
    (hplain : plain.leaving? = some ⟨false, e, v⟩) (span : Span) :
    c.Reaches e v (Lower.leave r e v span plain) := by
  obtain ⟨t, ht, harr⟩ := h v hv
  have hsignal : r.bySignal e = r.inWrapper := by
    rcases hl with rfl | hl
    · rfl
    · cases e <;> simp [bySignal, hl]
  rw [hsignal] at harr
  rw [Lower.leave]
  split
  case isTrue hw =>
    rw [hw] at harr
    exact ⟨r.writeBacks, _, ⟨true, e, v⟩, t, rfl, rfl, rfl, rfl, ht, harr⟩
  case isFalse hw =>
    rw [Bool.eq_false_iff.2 hw] at harr
    exact ⟨[], plain, ⟨false, e, v⟩, t, rfl, hplain, rfl, rfl, ht, harr⟩

/-- A `break` or `continue`, which goes to a loop in the same function or wrapper or leaves it. -/
theorem Routes.jump {may : Exit → Prop} {roles : Roles} (h : r.Routes c may roles) (he : e ≠ .ret)
    (hmay : r.inLoop = false → may e) {plain : Stmt Span}
    (hplain : plain.leaving? = some ⟨false, e, none⟩) (span : Span) :
    c.Reaches e none (if r.inLoop then [plain] else Lower.leave r e none span plain) := by
  cases hl : r.inLoop with
  | true =>
    obtain ⟨t, ht, harr⟩ := h.jumps hl e he none fun _ => rfl
    have hsignal : r.bySignal e = false := by
      cases e with
      | ret => exact absurd rfl he
      | brk | cont => simp [bySignal, hl]
    rw [hsignal] at harr
    exact ⟨[], plain, ⟨false, e, none⟩, t, rfl, hplain, rfl, rfl, ht, harr⟩
  | false => exact (h.exits e (hmay hl)).leave (.inr hl) (fun _ => rfl) hplain span

/-- The call of a wrapper around some statements: every exit of these goes on where it is called. -/
theorem Routes.wrapper (ss : List (Stmt Mark)) (body : List (Stmt Span)) {span : Span}
    {callee : Expr Span} {args : List (Expr Span)} {out : List (Stmt Span)} {ws : WriteBacks}
    {roles ρ : Roles} {w : Wrapper} (h : r.Routes c (fun e => Stmt.mayExitList e r.inLoop ss) roles)
    (hcalls : r.Calls w.exits r.site span (.call span callee args) out ρ)
    (hexits : w.exits = Stmt.exits ss) (hsite : r.site.Handles w.exits)
    (hroles : ∀ x ∈ ρ.names, x ∈ roles.names) :
    ∃ level, CallsWrapper callee body (Lower.wrapperCode w ws body) out level ∧
      ∀ inner : Roles, (∀ x ∈ ws.map (·.1), x ∉ inner.names) →
        (r.wrapper ws).Routes (c.inCall level) (fun e => Stmt.mayExitList e false ss) inner := by
  have hmem : ∀ {e}, Stmt.mayExitList e false ss → e ∈ w.exits := fun he =>
    hexits ▸ Block.mem_exits (b := .mk default ss).2 he
  rw [Calls] at hcalls
  split at hcalls
  case isTrue hempty =>
    have hends : Lower.wrapperCode w ws body = body ++ writeBackStmts ws := by
      rw [Lower.wrapperCode, if_pos hempty]
    refine ⟨.plainCall, .plain hends hcalls.1, fun inner hinner =>
      ⟨fun e he => ?_, fun h => absurd h Bool.false_ne_true, hinner⟩⟩
    rw [List.isEmpty_iff] at hempty
    exact absurd (hmem he) (by simp [hempty])
  case isFalse hne =>
    obtain ⟨sig, hcall, rfl⟩ := hcalls
    rw [signalCall_eq hsite] at hcall
    cases hcall
    have hsig : sig ∉ r.writeBacks.map (·.1) := fun hsig =>
      h.apart sig hsig (hroles sig (by simp))
    have hends : Lower.wrapperCode w ws body =
        body ++ (writeBackStmts ws ++ [.ret .unknown (some (.signal .unknown none none))]) := by
      rw [Lower.wrapperCode, if_neg hne]
      rfl
    exact ⟨.call sig _, .signal hends rfl (reactionOfList?_handlers hsig r.site w.exits).1,
      fun inner hinner => ⟨fun e he => (h.delivers_of_mayExit he).inCall (hmem he) hsite hsig,
        fun h => absurd h Bool.false_ne_true, hinner⟩⟩

end Region

/-! ## Lowered code delivers -/

/-- The lowered header of a `for` delivers if its clauses do. -/
theorem deliversHeader_counting {c : Context} {m : Mark} {i u : Option (Stmt Mark)}
    {e : Option (Expr Mark)} {x : Header Span} :
    DeliversHeader c (.counting m i e u) x ↔ ∃ s i' e' u',
      ((i = none → i' = none) ∧ ∀ y, i = some y → DeliversStmt c y i'.toList) ∧
      ((e = none → e' = none) ∧ ∀ y, e = some y → ∃ y', DeliversExpr y y' ∧ e' = some y') ∧
      ((u = none → u' = none) ∧ ∀ y, u = some y → DeliversStmt c y u'.toList) ∧
      x = .counting s i' e' u' := by
  cases i <;> cases e <;> cases u <;> simp [DeliversHeader]

/-- The value of a `return` of the source is no signal. -/
theorem DeliversExpr.leaving?_ret {e : Expr Mark} {e' : Expr Span}
    (h : DeliversExpr e e') (s : Span) :
    (Stmt.ret s (some e')).leaving? = some ⟨false, .ret, some e'⟩ := by
  cases e' with
  | signal =>
    cases e with
    | function _ _ b =>
      obtain ⟨_, ss⟩ := b
      simp [DeliversExpr] at h
    | _ => simp [DeliversExpr] at h
  | _ => rfl

namespace LoweringPlan

variable {p : LoweringPlan} {fn : FunctionDef Mark} {globals : List Name} {m : Mark}
  {hd : Header Mark} {b : Block Mark} {w : Wrapper}

/-- The wrapper of a block has the exits of the block. -/
theorem Sound.blockExits (hp : p.Sound fn globals) (hx : .block b ∈ fn.nodes)
    (hw : p.analysis.wrapper? b.mark.id = some w) : w.exits = b.exits := by
  have hbw : p.analysis.scoping.blockWrapper? b = some w := (hp.analysed.wrapper? hx).symm.trans hw
  obtain ⟨_, -, -, -, rfl⟩ := Scoping.blockWrapper?_eq_some.1 hbw
  rfl

/-- The wrapper of a loop has the exits of its body. -/
theorem Sound.loopExits (hp : p.Sound fn globals) (hx : .stmt (.loop m hd b) ∈ fn.nodes)
    (hw : (p.loopPlan m.id).wrapper = some w) : w.exits = b.exits := by
  obtain ⟨hoisting, hplan⟩ := hp.analysed.loopPlan? hx
  have hlw : p.analysis.scoping.loopWrapper? m.id b = some w := by
    refine (hp.analysed.wrapper? hx).symm.trans ?_
    rw [LoweringPlan.loopPlan, hplan, Option.getD_some, Scoping.planLoop] at hw
    split at hw
    · cases hw
    · next hf => exact hf.trans hw
  obtain ⟨_, _, -, -, -, rfl⟩ := Scoping.loopWrapper?_eq_some.1 hlw
  rfl

/-- The wrapper of a loop copies its parameters into the drivers of the loop. -/
theorem Sound.mem_loopWriteBacks (hp : p.Sound fn globals) (hx : .stmt (.loop m hd b) ∈ fn.nodes)
    {drivers : List (BindingId × Name)} (hdr : drivers.map (·.1) = (p.loopPlan m.id).fresh)
    {x : Name}
    (h : x ∈ (Lower.loopWriteBacks p (p.loopPlan m.id) drivers).map (·.1)) :
    ∃ d ∈ drivers, d.2 = x := by
  obtain ⟨hoisting, hplan⟩ := hp.analysed.loopPlan? hx
  rw [Lower.loopWriteBacks, List.map_map] at h
  obtain ⟨i, hi, rfl⟩ := List.mem_map.1 h
  have hfresh : i ∈ drivers.map (·.1) := by
    rw [hdr, LoweringPlan.loopPlan, hplan]
    rw [LoweringPlan.loopPlan, hplan] at hi
    exact (p.analysis.scoping.planLoop_subset ..).2 i hi
  obtain ⟨d, hd⟩ := Table.exists_lookup.2 hfresh
  refine ⟨_, Table.mem_of_lookup hd, ?_⟩
  simp [hd]

theorem hoistedDeclarations_map (p : LoweringPlan) (bs : List BindingId) :
    p.hoistedDeclarations bs = (bs.map p.naming.nameOf).map
    (.declaration .unknown · .var none) := by
  rw [hoistedDeclarations, List.map_map]
  rfl

/-- The declaration of a variable has the value that it is lowered to. -/
theorem LowersDeclaration.cases {r : Region} {d : Binding} {value : Option (Expr Span)}
    {out : List (Stmt Span)} {roles : Roles} (h : p.LowersDeclaration r m d value out roles) :
    (∃ s n v, out = [.declaration s n .var v] ∧
      (v = value ∨ value = none ∧ ∃ t, v = some (.literal t .undefined))) ∨
    (value = none ∧ out = []) ∨ ∃ s t n v, value = some v ∧
    out = [.assignment s (.name t n) v] := by
  rw [LowersDeclaration] at h
  split at h
  · refine .inl ⟨_, _, _, h.1, ?_⟩
    cases value with
    | none => exact .inr ⟨rfl, _, rfl⟩
    | some v => exact .inl rfl
  · split at h
    · cases value with
      | none => exact .inr (.inl ⟨rfl, h.1⟩)
      | some v => exact .inr (.inr ⟨_, _, _, v, rfl, h.1⟩)
    · exact .inl ⟨_, _, _, h.1, .inl rfl⟩

end LoweringPlan

namespace Lower

open LoweringPlan

variable {p : LoweringPlan} {fn : FunctionDef Mark} {globals : List Name}

mutual

theorem expr_delivers (hp : p.Sound fn globals) : ∀ (e : Expr Mark) {r : Region} {sc : ScopeId}
    {e' : Expr Span}, e.IsSource → p.analysis.scoping.ResolvedExpr globals sc e →
    (∀ x ∈ e.nodes, x ∈ fn.nodes) → p.LowersExpr r e e' → DeliversExpr e e'
  | .literal .., _, _, _, _, _, _, hl => ⟨_, hl⟩
  | .name .., _, _, _, _, _, _, hl => ⟨_, _, hl⟩
  | .unary _ _ e, _, _, _, hsrc, hres, hin, hl => by
    obtain ⟨e', hl, rfl⟩ := hl
    exact ⟨_, e', expr_delivers hp e hsrc hres
      (fun x hx => hin x (List.mem_cons_of_mem _ hx)) hl, rfl⟩
  | .binary _ _ e f, _, _, _, hsrc, hres, hin, hl => by
    obtain ⟨e', f', hle, hlf, rfl⟩ := hl
    exact ⟨_, e', f', expr_delivers hp e hsrc.1 hres.1
        (fun x hx => hin x (List.mem_cons_of_mem _ (List.mem_append_left _ hx))) hle,
      expr_delivers hp f hsrc.2 hres.2
        (fun x hx => hin x (List.mem_cons_of_mem _ (List.mem_append_right _ hx))) hlf, rfl⟩
  | .call _ f args, _, _, _, hsrc, hres, hin, hl => by
    obtain ⟨f', args', hlf, hla, rfl⟩ := hl
    exact ⟨_, f', args', expr_delivers hp f hsrc.1 hres.1
        (fun x hx => hin x (List.mem_cons_of_mem _ (List.mem_append_left _ hx))) hlf,
      exprs_delivers hp args hsrc.2 hres.2
        (fun x hx => hin x (List.mem_cons_of_mem _ (List.mem_append_right _ hx))) hla, rfl⟩
  | .array _ es, _, _, _, hsrc, hres, hin, hl => by
    obtain ⟨es', hl, rfl⟩ := hl
    exact ⟨_, es', exprs_delivers hp es hsrc hres
      (fun x hx => hin x (List.mem_cons_of_mem _ hx)) hl, rfl⟩
  | .index _ b i, _, _, _, hsrc, hres, hin, hl => by
    obtain ⟨b', i', hlb, hli, rfl⟩ := hl
    exact ⟨_, b', i', expr_delivers hp b hsrc.1 hres.1
        (fun x hx => hin x (List.mem_cons_of_mem _ (List.mem_append_left _ hx))) hlb,
      expr_delivers hp i hsrc.2 hres.2
        (fun x hx => hin x (List.mem_cons_of_mem _ (List.mem_append_right _ hx))) hli, rfl⟩
  | .function k _ (.mk b ss), r, _, _, hsrc, hres, hin, hl => by
    obtain ⟨hoisted, out, roles, hlow, -, rfl⟩ := hl
    refine ⟨k.span, b.span, out, hoisted.map p.naming.nameOf, stmts_delivers hp ss hsrc hres.2
      (fun x hx => hin x (List.mem_cons_of_mem _ (List.mem_cons_of_mem _ hx))) nofun hlow
      (.function r k.id fun e he => ?_), ?_⟩
    · by_contra hret
      exact absurd (Stmt.inLoop_of_mayExitList hret ss hres.2 he).1 (by decide)
    · rw [hoistedDeclarations_map]
  | .signal .., _, _, _, _, _, _, hl | .signalIs .., _, _, _, _, _, _, hl
  | .signalValue .., _, _, _, _, _, _, hl | .unknown .., _, _, _, _, _, _, hl => hl.elim

theorem exprs_delivers (hp : p.Sound fn globals) : ∀ (es : List (Expr Mark)) {r : Region}
    {sc : ScopeId} {es' : List (Expr Span)}, Expr.AreSource es →
    p.analysis.scoping.ResolvedExprs globals sc es → (∀ x ∈ Expr.nodesOfList es, x ∈ fn.nodes) →
    p.LowersExprs r es es' → DeliversExprs es es'
  | [], _, _, _, _, _, _, hl => hl
  | e :: es, _, _, _, hsrc, hres, hin, hl => by
    obtain ⟨e', es', hle, hles, rfl⟩ := hl
    exact ⟨e', es', expr_delivers hp e hsrc.1 hres.1
      (fun x hx => hin x (List.mem_append_left _ hx)) hle, exprs_delivers hp es hsrc.2 hres.2
      (fun x hx => hin x (List.mem_append_right _ hx)) hles, rfl⟩

theorem stmts_delivers (hp : p.Sound fn globals) : ∀ (ss : List (Stmt Mark)) {r : Region}
    {c : Context} {fs sc sc' : ScopeId} {inLoop : Bool} {out : List (Stmt Span)} {roles : Roles},
    Stmt.AreSource ss → p.analysis.scoping.ResolvedStmts globals fs sc inLoop ss →
    (∀ x ∈ Stmt.nodesOfList ss, x ∈ fn.nodes) → (inLoop → r.inLoop ∨ r.inWrapper) →
    p.LowersStmts r sc' ss out roles → r.Routes c (fun e => Stmt.mayExitList e r.inLoop ss) roles →
    DeliversStmts c ss out
  | [], _, _, _, _, _, _, _, _, _, _, _, _, hl, _ => hl.1
  | s :: ss, r, _, _, _, _, _, _, _, hsrc, hres, hin, hloop, hl, hr => by
    obtain ⟨o, os, ρ, ρs, hls, hlss, rfl, rfl⟩ := hl
    refine ⟨o, os, stmt_delivers hp s hsrc.1 hres.1 (fun x hx => hin x (List.mem_append_left _ hx))
      hloop hls (hr.mono (fun e he => ?_) fun x hx => ?_),
      stmts_delivers hp ss hsrc.2 hres.2 (fun x hx => hin x (List.mem_append_right _ hx)) hloop hlss
        (hr.mono (fun e he => ?_) fun x hx => ?_), rfl⟩
    · rw [Stmt.mayExitList, he, Bool.true_or]
    · rw [Roles.names_append]
      exact List.mem_append_left _ hx
    · rw [Stmt.mayExitList, he, Bool.or_true]
    · rw [Roles.names_append]
      exact List.mem_append_right _ hx

theorem block_delivers (hp : p.Sound fn globals) : ∀ (b : Block Mark) {r : Region} {c : Context}
    {fs sc sc' : ScopeId} {inLoop : Bool} {b' : Block Span} {roles : Roles}, b.IsSource →
    p.analysis.scoping.ResolvedBlock globals fs sc inLoop b → (∀ x ∈ b.nodes, x ∈ fn.nodes) →
    (inLoop → r.inLoop ∨ r.inWrapper) → p.LowersBlock r sc' b b' roles →
    r.Routes c (fun e => b.mayExitIn e r.inLoop) roles → DeliversBlock c b b'
  | .mk k ss, r, c, _, _, _, _, _, roles, hsrc, hres, hin, hloop, hl, hr => by
    have hin' : ∀ x ∈ Stmt.nodesOfList ss, x ∈ fn.nodes :=
      fun x hx => hin x (List.mem_cons_of_mem _ hx)
    cases hw : p.analysis.wrapper? k.id with
    | none =>
      obtain ⟨out, hlow, rfl⟩ := (lowersBlock_plain hw).1 hl
      exact ⟨_, out, rfl, .inl (stmts_delivers hp ss hsrc hres.2 hin' hloop hlow hr)⟩
    | some w =>
      obtain ⟨out, inner, call, hlow, -, hcalls, rfl⟩ := (lowersBlock_wrapped hw).1 hl
      have hx : .block (.mk k ss) ∈ fn.nodes := hin _ List.mem_cons_self
      have hexits : w.exits = Stmt.exits ss := hp.blockExits hx hw
      obtain ⟨level, hcall, hroutes⟩ := Region.Routes.wrapper ss out hr hcalls hexits
        (fun e he hne => hloop (Stmt.inLoop_of_mayExitList hne ss hres.2
          (Block.mem_exits.1 (hp.blockExits hx hw ▸ he))).1) fun _ hx => hx
      exact ⟨_, call, rfl, .inr ⟨level, out, _, _, _, stmts_delivers hp ss hsrc hres.2 hin'
        (fun _ => .inr rfl) hlow (hroutes inner nofun), hcall⟩⟩

theorem stmt_delivers (hp : p.Sound fn globals) : ∀ (s : Stmt Mark) {r : Region} {c : Context}
    {fs sc sc' : ScopeId} {inLoop : Bool} {out : List (Stmt Span)} {roles : Roles}, s.IsSource →
    p.analysis.scoping.ResolvedStmt globals fs sc inLoop s → (∀ x ∈ s.nodes, x ∈ fn.nodes) →
    (inLoop → r.inLoop ∨ r.inWrapper) → p.LowersStmt r sc' s out roles →
    r.Routes c (fun e => s.mayExit e r.inLoop) roles → DeliversStmt c s out
  | .declaration _ _ _ none, _, _, _, _, _, _, _, _, _, _, _, _, hl, _ => by
    obtain ⟨b, -, hl⟩ := hl
    rcases hl.cases with ⟨s, n, v, rfl, rfl | ⟨-, t, rfl⟩⟩ | ⟨-, rfl⟩ | ⟨_, _, _, _, hv, -⟩
    · exact .inr ⟨s, n, none, rfl, nofun⟩
    · exact .inr ⟨s, n, _, rfl, fun e he => ⟨t, (Option.some.inj he).symm⟩⟩
    · exact .inl rfl
    · cases hv
  | .declaration _ _ _ (some e), _, _, _, _, _, _, _, _, hsrc, hres, hin, _, hl, _ => by
    obtain ⟨b, e', -, hle, hl⟩ := hl
    have he := expr_delivers hp e hsrc hres.2 (fun x hx => hin x (List.mem_cons_of_mem _ hx)) hle
    rcases hl.cases with ⟨s, n, v, rfl, rfl | ⟨hv, -⟩⟩ | ⟨hv, -⟩ | ⟨s, t, n, v, hv, rfl⟩
    · exact ⟨e', s, s, n, he, .inl rfl⟩
    · cases hv
    · cases hv
    · cases hv
      exact ⟨e', s, t, n, he, .inr rfl⟩
  | .assignment _ t v, r, _, _, sc, _, _, _, _, hsrc, hres, hin, _, hl, _ => by
    obtain ⟨t', v', hlt, hlv, rfl, -⟩ := hl
    have hin₁ : ∀ x ∈ t.nodes, x ∈ fn.nodes :=
      fun x hx => hin x (List.mem_cons_of_mem _ (List.mem_append_left _ hx))
    have hv : p.analysis.scoping.ResolvedExpr globals sc v := by
      cases t with
      | name => exact hres.2
      | index => exact hres.2.2
      | _ => exact hres.elim
    have ht : DeliversExpr t t' := by
      cases t with
      | name => exact ⟨_, _, hlt⟩
      | index k b i => exact expr_delivers hp (.index k b i) hsrc.1 ⟨hres.1, hres.2.1⟩ hin₁ hlt
      | _ => exact hres.elim
    exact ⟨_, t', v', ht, expr_delivers hp v hsrc.2 hv
      (fun x hx => hin x (List.mem_cons_of_mem _ (List.mem_append_right _ hx))) hlv, rfl⟩
  | .expression _ e, _, _, _, _, _, _, _, _, hsrc, hres, hin, _, hl, _ => by
    obtain ⟨e', hl, rfl, -⟩ := hl
    exact ⟨_, e', expr_delivers hp e hsrc hres
      (fun x hx => hin x (List.mem_cons_of_mem _ hx)) hl, rfl⟩
  | .block b, _, _, _, _, _, _, _, _, hsrc, hres, hin, hloop, hl, hr => by
    obtain ⟨b', hl, rfl⟩ := hl
    refine ⟨b', block_delivers hp b hsrc hres.2 hin hloop hl hr, ?_⟩
    split
    · exact .inr rfl
    · exact .inl rfl
  | .branch _ d t none, _, _, _, _, _, _, _, _, hsrc, hres, hin, hloop, hl, hr => by
    obtain ⟨d', t', hld, hlt, rfl⟩ := hl
    refine ⟨_, d', t', expr_delivers hp d hsrc.1 hres.1
        (fun x hx => hin x (List.mem_cons_of_mem _ (List.mem_append_left _ hx))) hld,
      block_delivers hp t hsrc.2 hres.2.2 (fun x hx => hin x (List.mem_cons_of_mem _
        (List.mem_append_right _ (List.mem_append_left _ hx)))) hloop hlt
        (hr.mono (fun e he => ?_) fun _ hx => hx), rfl⟩
    rw [Stmt.mayExit, he, Bool.true_or]
  | .branch _ d t (some f), _, _, _, _, _, _, _, _, hsrc, hres, hin, hloop, hl, hr => by
    obtain ⟨d', t', f', ρt, ρf, hld, hlt, hlf, rfl, rfl⟩ := hl
    refine ⟨_, d', t', f', expr_delivers hp d hsrc.1 hres.1
        (fun x hx => hin x (List.mem_cons_of_mem _ (List.mem_append_left _ hx))) hld,
      block_delivers hp t hsrc.2.1 hres.2.2.1 (fun x hx => hin x (List.mem_cons_of_mem _
        (List.mem_append_right _ (List.mem_append_left _ hx)))) hloop hlt
        (hr.mono (fun e he => ?_) fun x hx => ?_),
      block_delivers hp f hsrc.2.2 hres.2.2.2.2 (fun x hx => hin x (List.mem_cons_of_mem _
        (List.mem_append_right _ (List.mem_append_right _ hx)))) hloop hlf
        (hr.mono (fun e he => ?_) fun x hx => ?_), rfl⟩
    · rw [Stmt.mayExit, he, Bool.true_or]
    · rw [Roles.names_append]
      exact List.mem_append_left _ hx
    · rw [Stmt.mayExit, he, Bool.or_true]
    · rw [Roles.names_append]
      exact List.mem_append_right _ hx
  | .loop k h (.mk b ss), r, c, fs, sc, sc', inLoop, out, roles, hsrc, hres, hin,
      hloop, hl, hr => by
    obtain ⟨-, -, hrh, -, hrs⟩ := hres
    have hx : .stmt (.loop k h (.mk b ss)) ∈ fn.nodes := hin _ List.mem_cons_self
    have hinh : ∀ x ∈ h.nodes, x ∈ fn.nodes :=
      fun x hx => hin x (List.mem_cons_of_mem _ (List.mem_append_left _ hx))
    have hins : ∀ x ∈ Stmt.nodesOfList ss, x ∈ fn.nodes := fun x hx =>
      hin x (Stmt.mem_nodes_body hx)
    have hbody : r.loopBody.Routes (c.inLoop k.id) (fun e => Stmt.mayExitList e true ss) roles :=
      hr.loopBody k.id fun e he => he
    cases hw : (p.loopPlan k.id).wrapper with
    | none =>
      -- `break` and `continue` of the body are for this loop itself
      obtain ⟨h', body, ρh, ρb, hlh, hlb, rfl, rfl⟩ := (lowersStmt_plainLoop hw).1 hl
      exact ⟨_, _, h', body, header_delivers hp h hsrc.1 hrh hinh hlh
          (hr.mono (fun _ h => h.elim) fun x hx => by simp [hx]),
        .inl ⟨stmts_delivers hp ss hsrc.2 hrs hins (fun _ => .inl rfl) hlb
          (hbody.mono (fun _ he => he) fun x hx => by simp [hx]), rfl⟩⟩
    | some w =>
      obtain ⟨drivers, h', body, ρh, ρb, hdr, hlh, hlb, -, hdrivers, hcall⟩ :=
        (lowersStmt_wrappedLoop hw).1 hl
      have hexits : w.exits = Stmt.exits ss := hp.loopExits hx hw
      have hwb : ∀ x ∈ (loopWriteBacks p (p.loopPlan k.id) drivers).map (·.1), x ∉ ρb.names := by
        intro x hxw hxb
        obtain ⟨d, hd, rfl⟩ := hp.mem_loopWriteBacks hx hdr hxw
        refine (hdrivers d hd).2.1 ?_
        rw [Roles.names_append]
        exact List.mem_append_right _ hxb
      have hwrapper : ∀ {callee call ρc}, r.Calls w.exits ⟨r.inWrapper, true⟩ k.span
          (.call k.span callee (loopArgs k drivers)) call ρc → (∀ x ∈ ρc.names, x ∈ roles.names) →
          ∃ level, CallsWrapper callee body
            (wrapperCode w (loopWriteBacks p (p.loopPlan k.id) drivers) body) call level ∧
            DeliversStmts ((c.inLoop k.id).inCall level) ss body := by
        intro callee call ρc hcalls hroles
        obtain ⟨level, hcall, hroutes⟩ := Region.Routes.wrapper ss body hbody hcalls hexits
          (fun _ _ _ => .inl rfl) hroles
        exact ⟨level, hcall, stmts_delivers hp ss hsrc.2 hrs hins (fun _ => .inr rfl) hlb
          (hroutes ρb hwb)⟩
      rw [CallsLoop] at hcall
      split at hcall
      · obtain ⟨name, call, ρc, hcalls, rfl, rfl⟩ := hcall
        obtain ⟨level, hcall, hss⟩ := hwrapper hcalls fun x hx => by simp [hx]
        refine ⟨_, _, h', call, header_delivers hp h hsrc.1 hrh hinh hlh
            (hr.header drivers fun x hx => by simp [hx]),
          .inr ⟨level, body, _, _, _, _, _, hss, hcall, .inr ⟨_, name, rfl, rfl⟩⟩⟩
      · obtain ⟨call, ρc, hcalls, rfl, rfl⟩ := hcall
        obtain ⟨level, hcall, hss⟩ := hwrapper hcalls fun x hx => by simp [hx]
        refine ⟨_, _, h', call, header_delivers hp h hsrc.1 hrh hinh hlh
            (hr.header drivers fun x hx => by simp [hx]),
          .inr ⟨level, body, _, _, _, _, _, hss, hcall, .inl ⟨rfl, rfl⟩⟩⟩
  | .ret _ none, _, _, _, _, _, _, _, _, _, _, _, _, hl, hr => by
    obtain ⟨rfl, -⟩ := hl
    exact (hr.exits .ret rfl).leave (.inl rfl) (fun h => absurd rfl h) rfl _
  | .ret k (some e), _, _, _, _, _, _, _, _, hsrc, hres, hin, _, hl, hr => by
    obtain ⟨e', hle, rfl, -⟩ := hl
    have he := expr_delivers hp e hsrc hres (fun x hx => hin x (List.mem_cons_of_mem _ hx)) hle
    exact ⟨e', he, (hr.exits .ret rfl).leave (.inl rfl) (fun h => absurd rfl h)
      (he.leaving?_ret k.span) _⟩
  | .brk _, _, _, _, _, _, _, _, _, _, _, _, _, hl, hr => by
    obtain ⟨-, rfl⟩ := hl
    exact hr.jump (by decide) (fun h => by simp [Stmt.mayExit, h]) rfl _
  | .cont _, _, _, _, _, _, _, _, _, _, _, _, _, hl, hr => by
    obtain ⟨-, rfl⟩ := hl
    exact hr.jump (by decide) (fun h => by simp [Stmt.mayExit, h]) rfl _
  | .unknown .., _, _, _, _, _, _, _, _, _, _, _, _, hl, _ => hl.elim

theorem header_delivers (hp : p.Sound fn globals) : ∀ (h : Header Mark) {r : Region} {c : Context}
    {fs sc sc' : ScopeId} {loop : NodeId} {h' : Header Span} {roles : Roles}, h.IsSource →
    p.analysis.scoping.ResolvedHeader globals fs sc loop h → (∀ x ∈ h.nodes, x ∈ fn.nodes) →
    p.LowersHeader r sc' h h' roles → r.Routes c (fun _ => False) roles → DeliversHeader c h h'
  | .whileTrue _ e, _, _, _, _, _, _, _, _, hsrc, hres, hin, hl, _ => by
    obtain ⟨e', hl, rfl, -⟩ := hl
    exact ⟨_, e', expr_delivers hp e hsrc hres
      (fun x hx => hin x (List.mem_cons_of_mem _ hx)) hl, rfl⟩
  | .counting _ i e u, _, _, _, _, _, _, _, _, hsrc, hres, hin, hl, hr => by
    obtain ⟨hsi, hse, hsu⟩ := Header.shaped_counting.1 hsrc
    obtain ⟨hri, hre, hru⟩ := Scoping.resolvedHeader_counting.1 hres
    obtain ⟨i', e', u', ρi, ρu, hli, hle, hlu, rfl, rfl⟩ := lowersHeader_counting.1 hl
    rw [Header.nodes_counting] at hin
    have hmay : ∀ {s : Stmt Mark}, s.isInit → ∀ {b} (f : Exit), ¬ (s.mayExit f b = true) := by
      intro s hs b f
      cases s <;> first | exact Bool.false_ne_true | cases hs
    refine deliversHeader_counting.2 ⟨_, i', e', u', ⟨fun h => (hli.1 h).1, ?_⟩, ⟨hle.1, ?_⟩,
      ⟨fun h => (hlu.1 h).1, ?_⟩, rfl⟩
    · cases i with
      | none => exact nofun
      | some s =>
        rintro _ ⟨⟩
        exact stmt_delivers hp s (hsi s rfl).2 (hri s rfl)
          (fun x hx => hin x (List.mem_cons_of_mem _ (List.mem_append_left _ hx)))
          nofun (hli.2 s rfl)
          (hr.mono (hmay (hsi s rfl).1) fun x hx => by simp [hx])
    · cases e with
      | none => exact nofun
      | some y =>
        rintro _ ⟨⟩
        obtain ⟨y', hy, rfl⟩ := hle.2 y rfl
        exact ⟨y', expr_delivers hp y (hse y rfl) (hre y rfl) (fun x hx => hin x
          (List.mem_cons_of_mem _ (List.mem_append_right _ (List.mem_append_left _ hx)))) hy, rfl⟩
    · cases u with
      | none => exact nofun
      | some s =>
        rintro _ ⟨⟩
        exact stmt_delivers hp s (hsu s rfl).2 (hru s rfl) (fun x hx => hin x
          (List.mem_cons_of_mem _ (List.mem_append_right _ (List.mem_append_right _ hx)))) nofun
          (hlu.2 s rfl) (hr.mono (hmay (Resolve.isInit_of_isUpdate (hsu s rfl).1))
          fun x hx => by simp [hx])
  | .forOf _ _ _ e, _, _, _, _, _, _, _, _, hsrc, hres, hin, hl, _ => by
    obtain ⟨e', n, k, hl, -, rfl⟩ := hl
    exact ⟨_, n, k, e', expr_delivers hp e hsrc hres.1
      (fun x hx => hin x (List.mem_cons_of_mem _ hx)) hl, rfl⟩
  | .unknown .., _, _, _, _, _, _, _, _, _, _, _, hl, _ => hl.elim

end

end Lower

/-- An analysed function is lowered to a function that delivers all its exits: each of them,
    followed through the calls of wrappers around it, arrives at the loop or function that it is
    for, with the lowered value of a `return`, and a wrapper that was not left early is gone on
    from. -/
theorem FunctionDef.lower_delivers {fn : FunctionDef Span} (hsrc : fn.IsSource)
    {globals : List Name} {hoisting : Bool} {a : Analysis}
    (h : fn.number.analyse globals hoisting = .ok a) : ∃ out, fn.number.lower a = .ok out ∧
    fn.number.Delivers out := by
  have ha := FunctionDef.analyse_analysed (fn.shaped_number.2 hsrc) (fn.numberFrom_consecutive 1) h
  have hp : LoweringPlan.Sound ⟨a, .ofAnalysis a⟩ fn.number globals := ⟨ha, rfl⟩
  obtain ⟨out, hout, hoisted, body, roles, hlow, -, rfl⟩ := ha.lower_lowers
  refine ⟨_, hout, fn.number.mark.span, fn.number.body.mark.span, body, hoisted.map _, ?_,
    by rw [LoweringPlan.hoistedDeclarations_map]⟩
  generalize fn.number = fn at *
  obtain ⟨k, name, params, b, ss⟩ := fn
  refine Lower.stmts_delivers hp ss ha.source ha.resolved
    (fun x hx => List.mem_cons_of_mem _ (List.mem_cons_of_mem _ hx)) nofun hlow
    (Region.Routes.function .outermost k.id fun e he => ?_)
  by_contra hret
  exact absurd (Stmt.inLoop_of_mayExitList hret ss ha.resolved he).1 (by decide)

/-- The theorem for the function in `capturingLoop`, whose loop has a wrapper that is left by a
    `break`. -/
theorem FunctionDef.lower_delivers_capturingLoop : ∃ a out,
    capturingLoop.number.analyse ["g"] true = .ok a ∧ a.wrappers.map (·.exits) = [[.brk]] ∧
      capturingLoop.number.lower a = .ok out ∧ capturingLoop.number.Delivers out := by
  have hsrc : capturingLoop.IsSource := by
    simp [capturingLoop, FunctionDef.Shaped, Block.Shaped, Stmt.ShapedList, Stmt.Shaped,
      Header.Shaped, Expr.Shaped, Expr.ShapedList]
  have hexits : (capturingLoop.number.analyse ["g"] true).map (·.wrappers.map (·.exits)) =
      .ok [[.brk]] := by rfl
  cases ha : capturingLoop.number.analyse ["g"] true with
  | error e =>
    rw [ha] at hexits
    cases hexits
  | ok a =>
    rw [ha] at hexits
    obtain ⟨out, hout, hdelivers⟩ := FunctionDef.lower_delivers hsrc ha
    exact ⟨a, out, rfl, Except.ok.inj hexits, hout, hdelivers⟩

end FlatScope
