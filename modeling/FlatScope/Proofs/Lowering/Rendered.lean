import FlatScope.Proofs.Lowering.Exits
import FlatScope.Proofs.Lowering.WriteBack

/-!
# What a lowering writes down

`LoweringPlan.RendersStmts` and its companions say piece by piece what a successful lowering makes
of the code of a function, region by region: which statement stands for each declaration, which
function is the wrapper of a block or a loop, and which statements call it. They go together with
what is asked of every function and every wrapper in the lowered code (`Demands`).

They hold of whatever a run of the lowering yields (`Lower.stmts_renders`). The proof follows the
run backwards, so that the `var`s that are moved to the top of a function are known exactly
(`LoweringPlan.hoists`), and not only what they are good for.
-/

namespace FlatScope

/-- What is asked of lowered code: of every function, by its statements, the bindings that are
    declared at its top and what the statements are lowered to; and of every wrapper, by its code,
    the expression that calls it and the statements that do so. -/
structure Demands where
  function : List (Stmt Mark) → List BindingId → List (Stmt Span) → Prop
  wrapper : Wrapper → List (Stmt Span) → Expr Span → List (Stmt Span) → Prop

namespace LoweringPlan

variable (p : LoweringPlan) (D : Demands)

/-- Statements that call a wrapper with the given exits. If there are any, its result is put into a
    variable that is neither that of a binding nor one that is written back, and the statements
    behind it go on with the signals. -/
def CallsBy (r : Region) (exits : List Exit) (site : CallSite) (s : Span) (call : Expr Span)
    (out : List (Stmt Span)) : Prop :=
  if exits.isEmpty then out = plainCall call s
  else ∃ sig, site.Handles exits ∧ sig ∉ r.writeBacks.map (·.1) ∧ sig ∉ p.naming.supply.taken ∧
    out = .declaration s sig .var (some call) :: site.handlers sig exits r.writeBacks s

/-- The drivers of a loop, which are called like no binding. -/
structure AreDrivers (m : Mark) (drivers : List (BindingId × Name)) : Prop where
  keys : drivers.map (·.1) = (p.loopPlan m.id).fresh
  fresh : ∀ d ∈ drivers, d.2 ∉ p.naming.supply.taken

/-- What the declaration of a binding becomes: a variable of the region, or in a wrapper, if it is
    that of a `var`, at most an assignment. -/
def rendersDeclaration (r : Region) (m : Mark) (b : Binding) (value : Option (Expr Span)) :
    List (Stmt Span) :=
  if b.origin.isFunctionScoped = false then
    [.declaration m.span (p.nameOf r b.id) .var (some (value.getD (.literal m.span .undefined)))]
  else if r.inWrapper then
    value.toList.map fun v => .assignment m.span (.name m.span (p.nameOf r b.id)) v
  else [.declaration m.span (p.nameOf r b.id) .var value]

/-- The variable in the lowered header of a loop over a sequence; in a wrapper, a `var` is one of
    the function around it, and not declared. -/
def RendersElement (r : Region) (m : Mark) (n : Name) (k : Option DeclKind) (n' : Name)
    (k' : Option DeclKind) : Prop :=
  match k with
  | none => n' = p.refName r m.id n ∧ k' = none
  | some _ => ∃ b, p.analysis.scoping.declared? m.id = some b ∧ n' = p.nameOf r b.id ∧
    k' = if b.origin.isFunctionScoped && r.inWrapper then none else some .var

mutual

/-- What the lowering makes of an expression in a region. -/
def RendersExpr (r : Region) : Expr Mark → Expr Span → Prop
  | .literal m v, x => x = .literal m.span v
  | .name m n, x => x = .name m.span (p.refName r m.id n)
  | .unary m op e, x => ∃ e', RendersExpr r e e' ∧ x = .unary m.span op e'
  | .binary m op e f, x =>
    ∃ e' f', RendersExpr r e e' ∧ RendersExpr r f f' ∧ x = .binary m.span op e' f'
  | .call m f args, x =>
    ∃ f' args', RendersExpr r f f' ∧ RendersExprs r args args' ∧ x = .call m.span f' args'
  | .array m es, x => ∃ es', RendersExprs r es es' ∧ x = .array m.span es'
  | .index m b i, x =>
    ∃ b' i', RendersExpr r b b' ∧ RendersExpr r i i' ∧ x = .index m.span b' i'
  | .function m ps (.mk b ss), x => ∃ hoisted out, RendersStmts r.function ss out ∧
    D.function ss hoisted out ∧
    x = .function m.span ps (.mk b.span (p.hoistedDeclarations hoisted ++ out))
  | .signal .., _ | .signalIs .., _ | .signalValue .., _ | .unknown .., _ => False

def RendersExprs (r : Region) : List (Expr Mark) → List (Expr Span) → Prop
  | [], xs => xs = []
  | e :: es, xs => ∃ e' es', RendersExpr r e e' ∧ RendersExprs r es es' ∧ xs = e' :: es'

def RendersStmts (r : Region) : List (Stmt Mark) → List (Stmt Span) → Prop
  | [], out => out = []
  | s :: ss, out => ∃ o os, RendersStmt r s o ∧ RendersStmts r ss os ∧ out = o ++ os

/-- What the lowering makes of a block. One with a wrapper makes the wrapper in the call. -/
def RendersBlock (r : Region) : Block Mark → Block Span → Prop
  | .mk m ss, x =>
    match p.analysis.wrapper? m.id with
    | none => ∃ out, RendersStmts r ss out ∧ x = .mk m.span out
    | some w => ∃ body out,
      let code := Lower.wrapperCode w [] body
      let call : Expr Span := .call m.span (.function m.span [] (.mk m.span code)) []
      RendersStmts (r.wrapper []) ss body ∧ p.CallsBy r w.exits r.site m.span call out ∧
        D.wrapper w code call out ∧ x = .mk m.span out

/-- What the lowering makes of a statement. The wrapper of a loop is made in the call or before the
    loop. -/
def RendersStmt (r : Region) : Stmt Mark → List (Stmt Span) → Prop
  | .declaration m _ _ none, out => ∃ b, p.analysis.scoping.declared? m.id = some b ∧
    out = p.rendersDeclaration r m b none
  | .declaration m _ _ (some e), out => ∃ b e', p.analysis.scoping.declared? m.id = some b ∧
    RendersExpr r e e' ∧ out = p.rendersDeclaration r m b (some e')
  | .assignment m t v, out =>
    ∃ t' v', RendersExpr r t t' ∧ RendersExpr r v v' ∧ out = [.assignment m.span t' v']
  | .expression m e, out => ∃ e', RendersExpr r e e' ∧ out = [.expression m.span e']
  | .block b, out => ∃ c, RendersBlock r b c ∧
    out = if (p.analysis.wrapper? b.mark.id).isSome then c.statements else [.block c]
  | .branch m c t none, out =>
    ∃ c' t', RendersExpr r c c' ∧ RendersBlock r t t' ∧ out = [.branch m.span c' t' none]
  | .branch m c t (some e), out => ∃ c' t' e', RendersExpr r c c' ∧ RendersBlock r t t' ∧
    RendersBlock r e e' ∧ out = [.branch m.span c' t' (some e')]
  | .loop m h (.mk b ss), out =>
    match (p.loopPlan m.id).wrapper with
    | none => ∃ h' body, RendersHeader r h h' ∧ RendersStmts r.loopBody ss body ∧
      out = [.loop m.span h' (.mk b.span body)]
    | some w => ∃ (drivers : List (BindingId × Name)) (h' : Header Span)
        (body inner : List (Stmt Span)) (callee : Expr Span),
      let code := Lower.wrapperCode w (Lower.loopWriteBacks p (p.loopPlan m.id) drivers) body
      let wrapper : Expr Span := .function m.span (p.loopParams m) (.mk b.span code)
      let call : Expr Span := .call m.span callee (loopArgs m drivers)
      p.AreDrivers m drivers ∧ RendersHeader (r.loopHeader drivers) h h' ∧
      RendersStmts (p.loopRegion r m drivers) ss body ∧
      p.CallsBy r w.exits ⟨r.inWrapper, true⟩ m.span call inner ∧ D.wrapper w code call inner ∧
      (callee = wrapper ∧ out = [.loop m.span h' (.mk m.span inner)] ∨
        ∃ n, n ∉ p.naming.supply.taken ∧ callee = .name m.span n ∧
          out = [.declaration m.span n .var (some wrapper), .loop m.span h' (.mk m.span inner)])
  | .ret m none, out => out = Lower.leave r .ret none m.span (.ret m.span none)
  | .ret m (some e), out => ∃ e', RendersExpr r e e' ∧
    out = Lower.leave r .ret (some e') m.span (.ret m.span (some e'))
  | .brk m, out =>
    out = if r.inLoop then [.brk m.span] else Lower.leave r .brk none m.span (.brk m.span)
  | .cont m, out =>
    out = if r.inLoop then [.cont m.span] else Lower.leave r .cont none m.span (.cont m.span)
  | .unknown .., _ => False

/-- What the lowering makes of the header of a loop. -/
def RendersHeader (r : Region) : Header Mark → Header Span → Prop
  | .whileTrue m c, x => ∃ c', RendersExpr r c c' ∧ x = .whileTrue m.span c'
  | .counting m i c u, x => ∃ i' c' u',
    (match i with
      | none => i' = none
      | some s => RendersStmt r s i'.toList) ∧
    (match c with
      | none => c' = none
      | some e => ∃ e', RendersExpr r e e' ∧ c' = some e') ∧
    (match u with
      | none => u' = none
      | some s => RendersStmt r s u'.toList) ∧
    x = .counting m.span i' c' u'
  | .forOf m n k e, x => ∃ e' n' k', RendersExpr r e e' ∧ p.RendersElement r m n k n' k' ∧
    x = .forOf m.span n' k' e'
  | .unknown .., _ => False

end

/-- What the lowering makes of a function. -/
def RendersFunction (fn : FunctionDef Mark) (out : FunctionDef Span) : Prop :=
  ∃ hoisted body, p.RendersStmts D .outermost fn.body.statements body ∧
    D.function fn.body.statements hoisted body ∧
    out = ⟨fn.mark.span, fn.name, fn.params,
      .mk fn.body.mark.span (p.hoistedDeclarations hoisted ++ body)⟩

/-! ## What is moved to the top of a function -/

/-- The binding that a node declares, if it belongs to the whole function. -/
def varOf (m : Mark) : List BindingId :=
  (p.analysis.scoping.declared? m.id).toList.filterMap fun b =>
    if b.origin.isFunctionScoped then some b.id else none

mutual

/-- The bindings whose declarations are moved to the top of the function, in the order of the text;
    `inWrapper` says whether the code is that of a wrapper. -/
def hoists (inWrapper : Bool) : Stmt Mark → List BindingId
  | .declaration m _ _ _ => if inWrapper then p.varOf m else []
  | .block b => hoistsBlock inWrapper b
  | .branch _ _ t none => hoistsBlock inWrapper t
  | .branch _ _ t (some e) => hoistsBlock inWrapper t ++ hoistsBlock inWrapper e
  | .loop m h (.mk _ ss) => hoistsHeader inWrapper h ++
    hoistsList (inWrapper || (p.loopPlan m.id).wrapper.isSome) ss
  | _ => []

def hoistsList (inWrapper : Bool) : List (Stmt Mark) → List BindingId
  | [] => []
  | s :: ss => hoists inWrapper s ++ hoistsList inWrapper ss

def hoistsBlock (inWrapper : Bool) : Block Mark → List BindingId
  | .mk m ss => hoistsList (inWrapper || (p.analysis.wrapper? m.id).isSome) ss

def hoistsHeader (inWrapper : Bool) : Header Mark → List BindingId
  | .counting _ i _ u =>
    (match i with
      | none => []
      | some s => hoists inWrapper s) ++
    (match u with
      | none => []
      | some s => hoists inWrapper s)
  | .forOf m _ (some _) _ => if inWrapper then p.varOf m else []
  | _ => []

end

/-- The list with a binding that it may have already. -/
def hoistOne (bs : List BindingId) (b : BindingId) : List BindingId :=
  if bs.contains b then bs else bs ++ [b]

/-- The bindings of a list, each once. -/
def hoistAll (bs cs : List BindingId) : List BindingId := cs.foldl hoistOne bs

theorem mem_hoistAll {bs cs : List BindingId} {b : BindingId} :
    b ∈ hoistAll bs cs ↔ b ∈ bs ∨ b ∈ cs := by
  induction cs generalizing bs with
  | nil => simp [hoistAll]
  | cons c cs ih =>
    rw [hoistAll, List.foldl_cons, ← hoistAll, ih, hoistOne]
    split
    · rename_i hc
      have hc : c ∈ bs := by simpa using hc
      exact ⟨fun h => h.imp_right (List.mem_cons_of_mem _), fun h => h.elim .inl fun h =>
        (List.mem_cons.1 h).elim (fun h => .inl (h ▸ hc)) .inr⟩
    · rw [List.mem_append, List.mem_singleton, List.mem_cons, or_assoc]

theorem hoistAll_nodup {bs cs : List BindingId} (h : bs.Nodup) : (hoistAll bs cs).Nodup := by
  induction cs generalizing bs with
  | nil => exact h
  | cons c cs ih =>
    refine ih ?_
    rw [hoistOne]
    split
    · exact h
    · rename_i hc
      refine List.nodup_append.2 ⟨h, List.nodup_cons.2 ⟨List.not_mem_nil, List.nodup_nil⟩, ?_⟩
      intro b hb d hd he
      obtain rfl := List.mem_singleton.1 hd
      exact hc (by simpa using he ▸ hb)

/-! ## Regions in the course of a lowering -/

section Regions

variable {p : LoweringPlan} {fn : FunctionDef Mark} {globals : List Name} {r : Region}
  {st st' : LoweringState}

/-- The drivers of a region are those of bindings of blocks and loops, and called like no
    binding. -/
structure DrivesApart (p : LoweringPlan) (r : Region) : Prop where
  blocks : ∀ b ∈ p.analysis.scoping.bindings, b.origin.isFunctionScoped = true →
    r.drivers.lookup b.id = none
  fresh : ∀ d ∈ r.drivers, d.2 ∉ p.naming.supply.taken

/-- A lowering into a region, whose drivers are kept apart: the names of the bindings and of the
    variables that are written back before the region is left are in use. -/
structure Steady (p : LoweringPlan) (r : Region) (st : LoweringState) : Prop where
  drivers : p.DrivesApart r
  writeBacks : ∀ x ∈ r.writeBacks.map (·.1), x ∈ st.supply.taken
  supply : ∀ x ∈ p.naming.supply.taken, x ∈ st.supply.taken

theorem DrivesApart.outermost : p.DrivesApart .outermost :=
  ⟨fun _ _ _ => rfl, fun _ hd => absurd hd List.not_mem_nil⟩

theorem DrivesApart.loopHeader (h : p.DrivesApart r) (hp : p.Sound fn globals) {m : Mark}
    {hd : Header Mark} {b : Block Mark} (hx : .stmt (.loop m hd b) ∈ fn.nodes)
    {drivers : List (BindingId × Name)} (hdr : p.AreDrivers m drivers) :
    p.DrivesApart (r.loopHeader drivers) where
  blocks c hc ho := by
    rw [Region.loopHeader, Table.lookup_append_of_none]
    · exact h.blocks c hc ho
    · rw [Table.lookup_eq_none, hdr.keys]
      intro hm
      obtain ⟨-, -, -, d, hd, hid, -, hno⟩ := hp.of_fresh hx hm
      obtain rfl := hp.analysed.eq_of_id hd hc hid
      rw [ho] at hno
      cases hno
  fresh d hd := (List.mem_append.1 hd).elim (hdr.fresh d) (h.fresh d)

namespace Steady

theorem mono (h : p.Steady r st) (hst : ∀ x ∈ st.supply.taken, x ∈ st'.supply.taken) :
    p.Steady r st' := ⟨h.drivers, fun x hx => hst x (h.writeBacks x hx),
    fun x hx => hst x (h.supply x hx)⟩

theorem outermost (h : ∀ x ∈ p.naming.supply.taken, x ∈ st.supply.taken) : p.Steady .outermost st :=
  ⟨.outermost, fun _ h => absurd h List.not_mem_nil, h⟩

theorem function (h : p.Steady r st) : p.Steady r.function ⟨st.supply, []⟩ :=
  ⟨⟨h.drivers.blocks, h.drivers.fresh⟩, nofun, h.supply⟩

theorem wrapper (h : p.Steady r st) : p.Steady (r.wrapper []) st :=
  ⟨⟨h.drivers.blocks, h.drivers.fresh⟩, nofun, h.supply⟩

theorem loopBody (h : p.Steady r st) : p.Steady r.loopBody st :=
  ⟨⟨h.drivers.blocks, h.drivers.fresh⟩, h.writeBacks, h.supply⟩

/-- The header of a loop with drivers. -/
theorem loopHeader (h : p.Steady r st) (hp : p.Sound fn globals) {m : Mark} {hd : Header Mark}
    {b : Block Mark} (hx : .stmt (.loop m hd b) ∈ fn.nodes) {drivers : List (BindingId × Name)}
    (hdr : p.AreDrivers m drivers) : p.Steady (r.loopHeader drivers) st :=
  ⟨h.drivers.loopHeader hp hx hdr, h.writeBacks, h.supply⟩

/-- The wrapper of a loop with drivers. -/
theorem loopRegion (h : p.Steady r st) (hp : p.Sound fn globals) {m : Mark} {hd : Header Mark}
    {b : Block Mark} (hx : .stmt (.loop m hd b) ∈ fn.nodes) {drivers : List (BindingId × Name)}
    (hdr : p.AreDrivers m drivers) (htaken : ∀ d ∈ drivers, d.2 ∈ st.supply.taken) :
    p.Steady (p.loopRegion r m drivers) st where
  drivers := ⟨h.drivers.blocks, h.drivers.fresh⟩
  writeBacks x hm := by
    obtain ⟨d, hd, rfl⟩ := hp.mem_loopWriteBacks hx hdr.keys hm
    exact htaken d hd
  supply := h.supply

end Steady

end Regions

end LoweringPlan

/-! ## Runs of the lowering -/

namespace Lower

open LoweringPlan

variable {p : LoweringPlan} {D : Demands} {fn : FunctionDef Mark} {globals : List Name} {r : Region}
  {st st' st'' : LoweringState} {α β : Type} {bs cs : List BindingId}

theorem bind_ok {x : Lower α} {f : α → Lower β} {b : β} (h : (x >>= f) st = .ok (b, st'')) :
    ∃ a st', x st = .ok (a, st') ∧ f a st' = .ok (b, st'') := by
  change (x st >>= fun y => f y.1 y.2) = _ at h
  cases hx : x st with
  | error e =>
    rw [hx] at h
    cases h
  | ok y =>
    rw [hx] at h
    exact ⟨y.1, y.2, rfl, h⟩

theorem pure_ok {a b : α} (h : (pure a : Lower α) st = .ok (b, st')) : b = a ∧ st' = st := by
  cases h
  exact ⟨rfl, rfl⟩

/-- A run moves the declarations of the given bindings to the top, and uses names that were not used
    before. -/
structure Moves (bs : List BindingId) (st st' : LoweringState) : Prop where
  hoisted : st'.hoisted = hoistAll st.hoisted bs
  taken : ∀ x ∈ st.supply.taken, x ∈ st'.supply.taken

namespace Moves

theorem refl (st : LoweringState) : Moves [] st st := ⟨rfl, fun _ hx => hx⟩

theorem append (h : Moves bs st st') (h' : Moves cs st' st'') : Moves (bs ++ cs) st st'' where
  hoisted := by rw [h'.hoisted, h.hoisted, hoistAll, hoistAll, hoistAll, List.foldl_append]
  taken x hx := h'.taken x (h.taken x hx)

end Moves

theorem hoist_moves {b : BindingId} {u : Unit} (h : hoist b st = .ok (u, st')) :
    Moves [b] st st' := by
  cases h
  refine ⟨?_, fun x hx => ?_⟩
  · rw [hoistAll, List.foldl_cons, List.foldl_nil, hoistOne]
    dsimp only
    split <;> rfl
  · dsimp only
    split <;> exact hx

theorem fresh_moves {stem x : Name} (h : fresh stem st = .ok (x, st')) :
    x ∉ st.supply.taken ∧ x ∈ st'.supply.taken ∧ Moves [] st st' := by
  cases h
  exact ⟨st.supply.fresh_not_mem stem, List.mem_cons_self, rfl,
    fun _ hy => List.mem_cons_of_mem _ hy⟩

/-- The code of a function, with what it hoists, which the function around it does not see. -/
theorem withHoisted_ok {code : Lower (List (Stmt Span))} {out : List (Stmt Span)}
    (h : withHoisted p code st = .ok (out, st')) : ∃ body inner,
      code ⟨st.supply, []⟩ = .ok (body, inner) ∧ out = p.hoistedDeclarations inner.hoisted ++ body ∧
        st' = ⟨inner.supply, st.hoisted⟩ := by
  change (code ⟨st.supply, []⟩ >>= fun y =>
    Except.ok (p.hoistedDeclarations y.2.hoisted ++ y.1, (⟨y.2.supply, st.hoisted⟩ :
      LoweringState))) = _ at h
  cases hc : code ⟨st.supply, []⟩ with
  | error e =>
    rw [hc] at h
    cases h
  | ok y =>
    rw [hc] at h
    cases h
    exact ⟨y.1, y.2, rfl, rfl, rfl⟩

/-- The call of a wrapper. -/
theorem callWrapper_renders {call : Expr Span} {exits : List Exit} {site : CallSite} {s : Span}
    {out : List (Stmt Span)} (hst : p.Steady r st)
    (h : callWrapper call exits site r.writeBacks s st = .ok (out, st')) :
    p.CallsBy r exits site s call out ∧ Moves [] st st' := by
  rw [callWrapper] at h
  rw [CallsBy]
  split at h
  · rename_i hempty
    obtain ⟨rfl, rfl⟩ := pure_ok h
    rw [if_pos hempty]
    exact ⟨rfl, .refl _⟩
  · rename_i hne
    obtain ⟨sig, st₁, hfresh, h⟩ := bind_ok h
    obtain ⟨hsig, -, hmoves⟩ := fresh_moves hfresh
    rw [if_neg hne]
    cases hcall : signalCall call sig exits site r.writeBacks s with
    | error e =>
      rw [hcall] at h
      cases h
    | ok stmts =>
      rw [hcall] at h
      obtain ⟨rfl, rfl⟩ := pure_ok h
      obtain ⟨hh, hout⟩ := signalCall_ok hcall
      exact ⟨⟨sig, hh, fun hm => hsig (hst.writeBacks _ hm),
        fun hm => hsig (hst.supply _ hm), hout⟩, hmoves⟩

theorem makeDrivers_moves {m : Mark} {drivers : List (BindingId × Name)} (hst : p.Steady r st)
    (h : makeDrivers p (p.loopPlan m.id) st = .ok (drivers, st')) : p.AreDrivers m drivers ∧
      (∀ d ∈ drivers, d.2 ∈ st'.supply.taken) ∧ Moves [] st st' := by
  obtain ⟨ds, s, hds, hkeys, hnew, htaken, hh⟩ := makeDrivers_ok p (p.loopPlan m.id) st
  cases hds.symm.trans h
  exact ⟨⟨hkeys, fun d hd hm => (hnew d hd).1 (hst.supply _ hm)⟩,
    fun d hd => (hnew d hd).2, hh, htaken⟩

theorem varOf_eq {m : Mark} {b : Binding} (hb : p.analysis.scoping.declared? m.id = some b) :
    p.varOf m = if b.origin.isFunctionScoped then [b.id] else [] := by
  rw [varOf, hb]
  cases hs : b.origin.isFunctionScoped <;> simp [hs]

/-- A declaration. -/
theorem declaration_renders {m : Mark} {b : Binding} {value : Option (Expr Span)}
    {out : List (Stmt Span)} (hb : p.analysis.scoping.declared? m.id = some b)
    (h : declaration p r m b value st = .ok (out, st')) :
    out = p.rendersDeclaration r m b value ∧
    Moves (if r.inWrapper then p.varOf m else []) st st' := by
  rw [declaration] at h
  rw [rendersDeclaration, varOf_eq hb]
  cases hs : b.origin.isFunctionScoped with
  | false =>
    rw [hs] at h
    obtain ⟨rfl, rfl⟩ := pure_ok h
    rw [if_pos rfl]
    exact ⟨rfl, by split <;> exact .refl _⟩
  | true =>
    rw [hs] at h
    cases hw : r.inWrapper with
    | false =>
      rw [hw] at h
      obtain ⟨rfl, rfl⟩ := pure_ok h
      exact ⟨rfl, .refl _⟩
    | true =>
      rw [hw] at h
      obtain ⟨_, st₁, hh, h⟩ := bind_ok h
      obtain ⟨rfl, rfl⟩ := pure_ok h
      exact ⟨rfl, hoist_moves hh⟩

theorem declaredBy_ok {m : Mark} {x : Name} {b : Binding} (h : declaredBy p m x st = .ok (b, st')) :
    p.analysis.scoping.declared? m.id = some b ∧ st' = st := by
  rw [declaredBy] at h
  cases hd : p.analysis.scoping.declared? m.id with
  | none =>
    rw [hd] at h
    cases h
  | some d =>
    rw [hd] at h
    obtain ⟨rfl, rfl⟩ := pure_ok h
    exact ⟨rfl, rfl⟩

/-- The variable of a loop over a sequence. -/
theorem elementVariable_renders {m : Mark} {x : Name} {k : Option DeclKind}
    {y : Name × Option DeclKind} (h : elementVariable p r m x k st = .ok (y, st')) :
    p.RendersElement r m x k y.1 y.2 ∧
      Moves (if k.isSome && r.inWrapper then p.varOf m else []) st st' := by
  cases k with
  | none =>
    obtain ⟨rfl, rfl⟩ := pure_ok h
    exact ⟨⟨rfl, rfl⟩, .refl _⟩
  | some k =>
    rw [elementVariable] at h
    cases hb : p.analysis.scoping.declared? m.id with
    | none =>
      rw [hb] at h
      cases h
    | some b =>
      rw [hb] at h
      dsimp only at h
      rw [RendersElement, varOf_eq hb]
      cases hs : b.origin.isFunctionScoped <;> cases hw : r.inWrapper <;> rw [hs, hw] at h
      case true.true =>
        obtain ⟨_, st₁, hh, h⟩ := bind_ok h
        obtain ⟨rfl, rfl⟩ := pure_ok h
        exact ⟨⟨b, hb, rfl, by rw [hs]; rfl⟩, hoist_moves hh⟩
      all_goals
        obtain ⟨rfl, rfl⟩ := pure_ok h
        exact ⟨⟨b, hb, rfl, by rw [hs]; rfl⟩, .refl _⟩

theorem jump_ok {e : Exit} {s : Span} {plain : Stmt Span} {out : List (Stmt Span)}
    (h : jump r e s plain st = .ok (out, st')) :
    out = (if r.inLoop then [plain] else leave r e none s plain) ∧ st' = st := by
  rw [jump] at h
  split at h
  · rename_i hl
    rw [if_pos hl]
    exact pure_ok h
  · rename_i hl
    rw [if_neg hl]
    split at h
    · exact pure_ok h
    · cases h

theorem single_toList {s : Span} {out : List (Stmt Span)} {o : Option (Stmt Span)}
    (h : single s out st = .ok (o, st')) : out = o.toList ∧ st' = st := by
  match out with
  | [] | [_] =>
    obtain ⟨rfl, rfl⟩ := pure_ok h
    exact ⟨rfl, rfl⟩
  | _ :: _ :: _ => cases h

end Lower

namespace LoweringPlan

variable {p : LoweringPlan} {D : Demands} {fn : FunctionDef Mark} {globals : List Name} {r : Region}

/-- The demands hold wherever a lowering writes down a function or the call of a wrapper. -/
structure Meets (p : LoweringPlan) (fn : FunctionDef Mark) (globals : List Name) (D : Demands) :
    Prop where
  function : ∀ {r id ps k ss parent out}, p.analysis.scoping.OpensFunction id ps (.mk k ss) parent →
    p.analysis.scoping.ResolvedStmts globals id id false ss → p.DrivesApart r → Stmt.AreSource ss →
    (∀ y ∈ Stmt.nodesOfList ss, y ∈ fn.nodes) → p.RendersStmts D r.function ss out →
    D.function ss (hoistAll [] (p.hoistsList false ss)) out
  block : ∀ {r fs sc inLoop m ss w body call out},
    p.analysis.scoping.ResolvedBlock globals fs sc inLoop (.mk m ss) → p.DrivesApart r →
    Stmt.AreSource ss → (∀ y ∈ (Block.mk m ss).nodes, y ∈ fn.nodes) →
    p.analysis.wrapper? m.id = some w → p.RendersStmts D (r.wrapper []) ss body →
    p.CallsBy r w.exits r.site m.span call out →
    call = .call m.span (.function m.span [] (.mk m.span (Lower.wrapperCode w [] body))) [] →
    D.wrapper w (Lower.wrapperCode w [] body) call out
  loop : ∀ {r fs sc inLoop m b hd ss w drivers body callee out},
    p.analysis.scoping.ResolvedStmt globals fs sc inLoop (.loop m hd (.mk b ss)) → p.DrivesApart r →
    Stmt.AreSource ss → (∀ y ∈ (Stmt.loop m hd (.mk b ss)).nodes, y ∈ fn.nodes) →
    (p.loopPlan m.id).wrapper = some w → p.AreDrivers m drivers →
    p.RendersStmts D (p.loopRegion r m drivers) ss body →
    p.CallsBy r w.exits ⟨r.inWrapper, true⟩ m.span (.call m.span callee (loopArgs m drivers)) out →
    D.wrapper w (Lower.wrapperCode w (Lower.loopWriteBacks p (p.loopPlan m.id) drivers) body)
      (.call m.span callee (loopArgs m drivers)) out

/-- What the lowering makes of the header of a `for`, by its clauses. -/
theorem rendersHeader_counting {m : Mark} {i : Option (Stmt Mark)} {c : Option (Expr Mark)}
    {u : Option (Stmt Mark)} {x : Header Span} :
    p.RendersHeader D r (.counting m i c u) x ↔ ∃ i' c' u',
      ((i = none → i' = none) ∧ ∀ s, i = some s → p.RendersStmt D r s i'.toList) ∧
      ((c = none → c' = none) ∧ ∀ e, c = some e → ∃ e', p.RendersExpr D r e e' ∧ c' = some e') ∧
      ((u = none → u' = none) ∧ ∀ s, u = some s → p.RendersStmt D r s u'.toList) ∧
      x = .counting m.span i' c' u' := by
  cases i <;> cases c <;> cases u <;> simp [RendersHeader]

theorem hoistsHeader_counting {w : Bool} {m : Mark} {i : Option (Stmt Mark)}
    {c : Option (Expr Mark)} {u : Option (Stmt Mark)} : p.hoistsHeader w (.counting m i c u) =
      i.elim [] (p.hoists w) ++ u.elim [] (p.hoists w) := by
  cases i <;> cases u <;> rfl

end LoweringPlan

/-! ## Every run of the lowering -/

namespace Lower

open LoweringPlan

variable {p : LoweringPlan} {D : Demands} {fn : FunctionDef Mark} {globals : List Name}

mutual

theorem expr_renders (hp : p.Sound fn globals) (hD : p.Meets fn globals D) :
    ∀ {e : Expr Mark} {r : Region} {sc : ScopeId} {st st' : LoweringState} {x : Expr Span},
    e.IsSource →
    p.analysis.scoping.ResolvedExpr globals sc e → (∀ y ∈ e.nodes, y ∈ fn.nodes) → p.Steady r st →
    expr p r e st = .ok (x, st') → p.RendersExpr D r e x ∧ Moves [] st st'
  | .literal .., _, _, _, _, _, _, _, _, _, h | .name .., _, _, _, _, _, _, _, _, _, h => by
    rw [expr] at h
    obtain ⟨rfl, rfl⟩ := pure_ok h
    exact ⟨rfl, .refl _⟩
  | .unary _ _ e, _, sc, _, _, _, hsrc, hres, hin, hst, h => by
    have hsub : e.IsSource := hsrc
    have hsubres : p.analysis.scoping.ResolvedExpr globals sc e := hres
    rw [expr] at h
    obtain ⟨e', st₁, he, h⟩ := bind_ok h
    obtain ⟨rfl, rfl⟩ := pure_ok h
    obtain ⟨hr, hm⟩ := expr_renders hp hD hsub hsubres
      (fun y hy => hin y (List.mem_cons_of_mem _ hy)) hst he
    exact ⟨⟨e', hr, rfl⟩, hm⟩
  | .binary _ _ e f, _, _, _, _, _, hsrc, hres, hin, hst, h => by
    rw [expr] at h
    obtain ⟨e', st₁, he, h⟩ := bind_ok h
    obtain ⟨f', st₂, hf, h⟩ := bind_ok h
    obtain ⟨rfl, rfl⟩ := pure_ok h
    obtain ⟨hre, hme⟩ := expr_renders hp hD hsrc.1 hres.1
      (fun y hy => hin y (List.mem_cons_of_mem _ (List.mem_append_left _ hy))) hst he
    obtain ⟨hrf, hmf⟩ := expr_renders hp hD hsrc.2 hres.2
      (fun y hy => hin y (List.mem_cons_of_mem _ (List.mem_append_right _ hy)))
      (hst.mono hme.taken) hf
    exact ⟨⟨e', f', hre, hrf, rfl⟩, hme.append hmf⟩
  | .call _ e es, _, _, _, _, _, hsrc, hres, hin, hst, h => by
    rw [expr] at h
    obtain ⟨e', st₁, he, h⟩ := bind_ok h
    obtain ⟨es', st₂, hf, h⟩ := bind_ok h
    obtain ⟨rfl, rfl⟩ := pure_ok h
    obtain ⟨hre, hme⟩ := expr_renders hp hD hsrc.1 hres.1
      (fun y hy => hin y (List.mem_cons_of_mem _ (List.mem_append_left _ hy))) hst he
    obtain ⟨hrf, hmf⟩ := exprs_renders hp hD hsrc.2 hres.2
      (fun y hy => hin y (List.mem_cons_of_mem _ (List.mem_append_right _ hy)))
      (hst.mono hme.taken) hf
    exact ⟨⟨e', es', hre, hrf, rfl⟩, hme.append hmf⟩
  | .array _ es, _, _, _, _, _, hsrc, hres, hin, hst, h => by
    have hin' : ∀ y ∈ Expr.nodesOfList es, y ∈ fn.nodes :=
      fun y hy => hin y (List.mem_cons_of_mem _ hy)
    rw [expr] at h
    obtain ⟨es', st₁, he, h⟩ := bind_ok h
    obtain ⟨rfl, rfl⟩ := pure_ok h
    obtain ⟨hr, hm⟩ := exprs_renders hp hD hsrc hres hin' hst he
    exact ⟨⟨es', hr, rfl⟩, hm⟩
  | .index _ b i, _, _, _, _, _, hsrc, hres, hin, hst, h => by
    rw [expr] at h
    obtain ⟨b', st₁, hb, h⟩ := bind_ok h
    obtain ⟨i', st₂, hi, h⟩ := bind_ok h
    obtain ⟨rfl, rfl⟩ := pure_ok h
    obtain ⟨hrb, hmb⟩ := expr_renders hp hD hsrc.1 hres.1
      (fun y hy => hin y (List.mem_cons_of_mem _ (List.mem_append_left _ hy))) hst hb
    obtain ⟨hri, hmi⟩ := expr_renders hp hD hsrc.2 hres.2
      (fun y hy => hin y (List.mem_cons_of_mem _ (List.mem_append_right _ hy)))
      (hst.mono hmb.taken) hi
    exact ⟨⟨b', i', hrb, hri, rfl⟩, hmb.append hmi⟩
  | .function _ _ (.mk _ ss), r, _, st, _, _, hsrc, hres, hin, hst, h => by
    have hin' : ∀ y ∈ Stmt.nodesOfList ss, y ∈ fn.nodes :=
      fun y hy => hin y (List.mem_cons_of_mem _ (List.mem_cons_of_mem _ hy))
    rw [expr] at h
    obtain ⟨out, st₁, hrun, h⟩ := bind_ok h
    obtain ⟨rfl, rfl⟩ := pure_ok h
    obtain ⟨body, inner, hbody, rfl, rfl⟩ := withHoisted_ok hrun
    obtain ⟨hr, hm⟩ := stmts_renders hp hD hsrc hres.2 hin' hst.function hbody
    have hoisted : inner.hoisted = hoistAll [] (p.hoistsList false ss) := hm.hoisted
    exact ⟨⟨inner.hoisted, body, hr,
      hoisted ▸ hD.function hres.1 hres.2 hst.drivers hsrc hin' hr, rfl⟩, rfl, hm.taken⟩
  | .signal _ _ none, _, _, _, _, _, hsrc, _, _, _, _ => hsrc.elim
  | .signal _ _ (some _), _, _, _, _, _, hsrc, _, _, _, _
  | .signalIs .., _, _, _, _, _, hsrc, _, _, _, _
  | .signalValue .., _, _, _, _, _, hsrc, _, _, _, _ => hsrc.1.elim
  | .unknown .., _, _, _, _, _, hsrc, _, _, _, _ => hsrc.elim

theorem exprs_renders (hp : p.Sound fn globals) (hD : p.Meets fn globals D) :
    ∀ {es : List (Expr Mark)} {r : Region} {sc : ScopeId} {st st' : LoweringState}
    {xs : List (Expr Span)}, Expr.AreSource es → p.analysis.scoping.ResolvedExprs globals sc es →
    (∀ y ∈ Expr.nodesOfList es, y ∈ fn.nodes) → p.Steady r st → exprs p r es st = .ok (xs, st') →
    p.RendersExprs D r es xs ∧ Moves [] st st'
  | [], _, _, _, _, _, _, _, _, _, h => by
    rw [exprs] at h
    obtain ⟨rfl, rfl⟩ := pure_ok h
    exact ⟨rfl, .refl _⟩
  | e :: es, _, _, _, _, _, hsrc, hres, hin, hst, h => by
    rw [exprs] at h
    obtain ⟨e', st₁, he, h⟩ := bind_ok h
    obtain ⟨es', st₂, hes, h⟩ := bind_ok h
    obtain ⟨rfl, rfl⟩ := pure_ok h
    obtain ⟨hre, hme⟩ := expr_renders hp hD hsrc.1 hres.1
      (fun y hy => hin y (List.mem_append_left _ hy)) hst he
    obtain ⟨hrs, hms⟩ := exprs_renders hp hD hsrc.2 hres.2
      (fun y hy => hin y (List.mem_append_right _ hy)) (hst.mono hme.taken) hes
    exact ⟨⟨e', es', hre, hrs, rfl⟩, hme.append hms⟩

theorem stmts_renders (hp : p.Sound fn globals) (hD : p.Meets fn globals D) :
    ∀ {ss : List (Stmt Mark)} {r : Region} {fs sc : ScopeId} {inLoop : Bool} {st st' :
    LoweringState}
    {out : List (Stmt Span)}, Stmt.AreSource ss →
    p.analysis.scoping.ResolvedStmts globals fs sc inLoop ss →
    (∀ y ∈ Stmt.nodesOfList ss, y ∈ fn.nodes) → p.Steady r st → stmts p r ss st = .ok (out, st') →
    p.RendersStmts D r ss out ∧ Moves (p.hoistsList r.inWrapper ss) st st'
  | [], _, _, _, _, _, _, _, _, _, _, _, h => by
    rw [stmts] at h
    obtain ⟨rfl, rfl⟩ := pure_ok h
    exact ⟨rfl, .refl _⟩
  | s :: ss, _, _, _, _, _, _, _, hsrc, hres, hin, hst, h => by
    rw [stmts] at h
    obtain ⟨o, st₁, hs, h⟩ := bind_ok h
    obtain ⟨os, st₂, hss, h⟩ := bind_ok h
    obtain ⟨rfl, rfl⟩ := pure_ok h
    obtain ⟨hr, hm⟩ := stmt_renders hp hD hsrc.1 hres.1
      (fun y hy => hin y (List.mem_append_left _ hy)) hst hs
    obtain ⟨hrs, hms⟩ := stmts_renders hp hD hsrc.2 hres.2
      (fun y hy => hin y (List.mem_append_right _ hy)) (hst.mono hm.taken) hss
    exact ⟨⟨o, os, hr, hrs, rfl⟩, hm.append hms⟩

theorem block_renders (hp : p.Sound fn globals) (hD : p.Meets fn globals D) :
    ∀ {b : Block Mark} {r : Region} {fs sc : ScopeId} {inLoop : Bool} {st st' : LoweringState}
    {x : Block Span}, b.IsSource → p.analysis.scoping.ResolvedBlock globals fs sc inLoop b →
    (∀ y ∈ b.nodes, y ∈ fn.nodes) → p.Steady r st → block p r b st = .ok (x, st') →
    p.RendersBlock D r b x ∧ Moves (p.hoistsBlock r.inWrapper b) st st'
  | .mk m ss, r, _, _, _, st, _, _, hsrc, hres, hin, hst, h => by
    have hin' : ∀ y ∈ Stmt.nodesOfList ss, y ∈ fn.nodes :=
      fun y hy => hin y (List.mem_cons_of_mem _ hy)
    rw [block] at h
    rw [RendersBlock, hoistsBlock]
    cases hw : p.analysis.wrapper? m.id with
    | none =>
      rw [hw] at h
      obtain ⟨out, st₁, hss, h⟩ := bind_ok h
      obtain ⟨rfl, rfl⟩ := pure_ok h
      obtain ⟨hr, hm⟩ := stmts_renders hp hD hsrc hres.2 hin' hst hss
      rw [Option.isSome_none, Bool.or_false]
      exact ⟨⟨out, hr, rfl⟩, hm⟩
    | some w =>
      rw [hw] at h
      obtain ⟨body, st₁, hss, h⟩ := bind_ok h
      obtain ⟨out, st₂, hcall, h⟩ := bind_ok h
      obtain ⟨rfl, rfl⟩ := pure_ok h
      obtain ⟨hr, hm⟩ := stmts_renders hp hD hsrc hres.2 hin' hst.wrapper hss
      obtain ⟨hc, hmc⟩ := callWrapper_renders (hst.mono hm.taken) hcall
      have hmoves := hm.append hmc
      rw [List.append_nil] at hmoves
      rw [Option.isSome_some, Bool.or_true]
      exact ⟨⟨body, out, hr, hc, hD.block hres hst.drivers hsrc hin hw hr hc rfl, rfl⟩, hmoves⟩

theorem stmt_renders (hp : p.Sound fn globals) (hD : p.Meets fn globals D) :
    ∀ {s : Stmt Mark} {r : Region} {fs sc : ScopeId} {inLoop : Bool} {st st' : LoweringState}
    {out : List (Stmt Span)}, s.IsSource → p.analysis.scoping.ResolvedStmt globals fs sc inLoop s →
    (∀ y ∈ s.nodes, y ∈ fn.nodes) → p.Steady r st → stmt p r s st = .ok (out, st') →
    p.RendersStmt D r s out ∧ Moves (p.hoists r.inWrapper s) st st'
  | .declaration m n _ none, _, _, _, _, _, _, _, _, _, _, _, h => by
    rw [stmt] at h
    obtain ⟨b, st₁, hb, hd⟩ := bind_ok h
    obtain ⟨hdecl, hst₁⟩ := declaredBy_ok hb
    subst hst₁
    obtain ⟨rfl, hm⟩ := declaration_renders hdecl hd
    exact ⟨⟨b, hdecl, rfl⟩, hm⟩
  | .declaration m n _ (some e), _, _, _, _, _, _, _, hsrc, hres, hin, hst, h => by
    have hsub : e.IsSource := hsrc
    rw [stmt] at h
    obtain ⟨b, st₁, hb, hrest⟩ := bind_ok h
    obtain ⟨hdecl, hst₁⟩ := declaredBy_ok hb
    subst hst₁
    obtain ⟨e', st₂, he, hd⟩ := bind_ok hrest
    obtain ⟨hre, hme⟩ := expr_renders hp hD hsub hres.2
      (fun y hy => hin y (List.mem_cons_of_mem _ hy)) hst he
    obtain ⟨rfl, hm⟩ := declaration_renders hdecl hd
    exact ⟨⟨b, e', hdecl, hre, rfl⟩, hme.append hm⟩
  | .assignment k t v, r, fs, sc, inLoop, st, _, _, hsrc, hres, hin, hst, h => by
    have htin : ∀ y ∈ t.nodes, y ∈ fn.nodes :=
      fun y hy => hin y (List.mem_cons_of_mem _ (List.mem_append_left _ hy))
    rw [stmt] at h
    obtain ⟨t', st₁, ht, h⟩ := bind_ok h
    obtain ⟨v', st₂, hv, h⟩ := bind_ok h
    obtain ⟨rfl, rfl⟩ := pure_ok h
    -- the target is resolved as one that is written, and is lowered like any other expression
    obtain ⟨⟨hrt, hmt⟩, hresv⟩ : (p.RendersExpr D r t t' ∧ Moves [] st st₁) ∧
        p.analysis.scoping.ResolvedExpr globals sc v := by
      cases t with
      | name =>
        rw [expr] at ht
        obtain ⟨rfl, rfl⟩ := pure_ok ht
        exact ⟨⟨rfl, .refl _⟩, hres.2⟩
      | index l b i =>
        have hresi : p.analysis.scoping.ResolvedExpr globals sc (.index l b i) := ⟨hres.1, hres.2.1⟩
        exact ⟨expr_renders hp hD hsrc.1 hresi htin hst ht, hres.2.2⟩
      | _ => exact hres.elim
    obtain ⟨hrv, hmv⟩ := expr_renders hp hD hsrc.2 hresv
      (fun y hy => hin y (List.mem_cons_of_mem _ (List.mem_append_right _ hy)))
      (hst.mono hmt.taken) hv
    exact ⟨⟨t', v', hrt, hrv, rfl⟩, hmt.append hmv⟩
  | .expression _ e, _, _, sc, _, _, _, _, hsrc, hres, hin, hst, h => by
    have hsub : e.IsSource := hsrc
    have hsubres : p.analysis.scoping.ResolvedExpr globals sc e := hres
    rw [stmt] at h
    obtain ⟨e', st₁, he, h⟩ := bind_ok h
    obtain ⟨rfl, rfl⟩ := pure_ok h
    obtain ⟨hre, hme⟩ := expr_renders hp hD hsub hsubres
      (fun y hy => hin y (List.mem_cons_of_mem _ hy)) hst he
    exact ⟨⟨e', hre, rfl⟩, hme⟩
  | .block b, _, _, _, _, _, _, _, hsrc, hres, hin, hst, h => by
    have hsub : b.IsSource := hsrc
    rw [stmt] at h
    obtain ⟨c, st₁, hb, h⟩ := bind_ok h
    obtain ⟨rfl, rfl⟩ := pure_ok h
    obtain ⟨hr, hm⟩ := block_renders hp hD hsub hres.2 hin hst hb
    exact ⟨⟨c, hr, rfl⟩, hm⟩
  | .branch _ c t none, _, _, _, _, _, _, _, hsrc, hres, hin, hst, h => by
    rw [stmt] at h
    obtain ⟨c', st₁, hc, h⟩ := bind_ok h
    obtain ⟨t', st₂, ht, h⟩ := bind_ok h
    obtain ⟨rfl, rfl⟩ := pure_ok h
    obtain ⟨hrc, hmc⟩ := expr_renders hp hD hsrc.1 hres.1
      (fun y hy => hin y (List.mem_cons_of_mem _ (List.mem_append_left _ hy))) hst hc
    obtain ⟨hrt, hmt⟩ := block_renders hp hD hsrc.2 hres.2.2
      (fun y hy => hin y (List.mem_cons_of_mem _
      (List.mem_append_right _ (List.mem_append_left _ hy)))) (hst.mono hmc.taken) ht
    exact ⟨⟨c', t', hrc, hrt, rfl⟩, hmc.append hmt⟩
  | .branch _ c t (some e), _, _, _, _, _, _, _, hsrc, hres, hin, hst, h => by
    rw [stmt] at h
    obtain ⟨c', st₁, hc, h⟩ := bind_ok h
    obtain ⟨t', st₂, ht, h⟩ := bind_ok h
    obtain ⟨e', st₃, he, h⟩ := bind_ok h
    obtain ⟨rfl, rfl⟩ := pure_ok h
    obtain ⟨hrc, hmc⟩ := expr_renders hp hD hsrc.1 hres.1
      (fun y hy => hin y (List.mem_cons_of_mem _ (List.mem_append_left _ hy))) hst hc
    have hst₁ := hst.mono hmc.taken
    obtain ⟨hrt, hmt⟩ := block_renders hp hD hsrc.2.1 hres.2.2.1 (fun y hy => hin y
      (List.mem_cons_of_mem _ (List.mem_append_right _ (List.mem_append_left _ hy)))) hst₁ ht
    obtain ⟨hre, hme⟩ := block_renders hp hD hsrc.2.2 hres.2.2.2.2 (fun y hy => hin y
      (List.mem_cons_of_mem _ (List.mem_append_right _ (List.mem_append_right _ hy))))
      (hst₁.mono hmt.taken) he
    exact ⟨⟨c', t', e', hrc, hrt, hre, rfl⟩, hmc.append (hmt.append hme)⟩
  | .loop m hd (.mk b ss), r, fs, sc, inLoop, st, _, _, hsrc, hres, hin, hst, h => by
    have hx : .stmt (.loop m hd (.mk b ss)) ∈ fn.nodes := hin _ List.mem_cons_self
    have hinh : ∀ y ∈ hd.nodes, y ∈ fn.nodes :=
      fun y hy => hin y (List.mem_cons_of_mem _ (List.mem_append_left _ hy))
    have hinb : ∀ y ∈ Stmt.nodesOfList ss, y ∈ fn.nodes := fun y hy =>
      hin y (Stmt.mem_nodes_body hy)
    have ⟨_, _, hresh, _, hresb⟩ := hres
    rw [stmt] at h
    rw [RendersStmt, hoists]
    cases hw : (p.loopPlan m.id).wrapper with
    | none =>
      rw [hw] at h
      obtain ⟨h', st₁, hh, h⟩ := bind_ok h
      obtain ⟨body, st₂, hb, h⟩ := bind_ok h
      obtain ⟨rfl, rfl⟩ := pure_ok h
      obtain ⟨hrh, hmh⟩ := header_renders hp hD hsrc.1 hresh hinh hst hh
      obtain ⟨hrb, hmb⟩ := stmts_renders hp hD hsrc.2 hresb hinb (hst.mono hmh.taken).loopBody hb
      rw [Option.isSome_none, Bool.or_false]
      exact ⟨⟨h', body, hrh, hrb, rfl⟩, hmh.append hmb⟩
    | some w =>
      rw [hw] at h
      obtain ⟨drivers, st₁, hdr, h⟩ := bind_ok h
      obtain ⟨h', st₂, hh, h⟩ := bind_ok h
      obtain ⟨body, st₃, hb, h⟩ := bind_ok h
      obtain ⟨hdrivers, htaken, hmd⟩ := makeDrivers_moves hst hdr
      obtain ⟨hrh, hmh⟩ := header_renders hp hD hsrc.1 hresh hinh
        ((hst.mono hmd.taken).loopHeader hp hx hdrivers) hh
      have hst₂ := hst.mono (hmd.append hmh).taken
      obtain ⟨hrb, hmb⟩ := stmts_renders hp hD hsrc.2 hresb hinb
        (hst₂.loopRegion hp hx hdrivers fun d hd => hmh.taken _ (htaken d hd)) hb
      have hst₃ := hst₂.mono hmb.taken
      have hmoves := (hmd.append hmh).append hmb
      rw [Option.isSome_some, Bool.or_true]
      rw [wrappedLoop] at h
      dsimp only at h
      cases hhoist : (p.loopPlan m.id).hoist with
      | true =>
        rw [hhoist] at h
        obtain ⟨name, st₄, hname, h⟩ := bind_ok h
        obtain ⟨inner, st₅, hcall, h⟩ := bind_ok h
        obtain ⟨rfl, rfl⟩ := pure_ok h
        obtain ⟨hnew, -, hmn⟩ := fresh_moves hname
        obtain ⟨hc, hmc⟩ := callWrapper_renders (hst₃.mono hmn.taken) hcall
        have hall := (hmoves.append hmn).append hmc
        rw [List.append_nil, List.append_nil] at hall
        exact ⟨⟨drivers, h', body, inner, _, hdrivers, hrh, hrb, hc,
          hD.loop hres hst.drivers hsrc.2 hin hw hdrivers hrb hc,
          .inr ⟨name, fun hm => hnew (hst₃.supply _ hm), rfl, rfl⟩⟩, hall⟩
      | false =>
        rw [hhoist] at h
        obtain ⟨inner, st₄, hcall, h⟩ := bind_ok h
        obtain ⟨rfl, rfl⟩ := pure_ok h
        obtain ⟨hc, hmc⟩ := callWrapper_renders hst₃ hcall
        have hall := hmoves.append hmc
        rw [List.append_nil] at hall
        exact ⟨⟨drivers, h', body, inner, _, hdrivers, hrh, hrb, hc,
          hD.loop hres hst.drivers hsrc.2 hin hw hdrivers hrb hc, .inl ⟨rfl, rfl⟩⟩, hall⟩
  | .ret _ none, _, _, _, _, _, _, _, _, _, _, _, h => by
    rw [stmt] at h
    obtain ⟨rfl, rfl⟩ := pure_ok h
    exact ⟨rfl, .refl _⟩
  | .ret _ (some e), _, _, sc, _, _, _, _, hsrc, hres, hin, hst, h => by
    have hsub : e.IsSource := hsrc
    have hsubres : p.analysis.scoping.ResolvedExpr globals sc e := hres
    rw [stmt] at h
    obtain ⟨e', st₁, he, h⟩ := bind_ok h
    obtain ⟨rfl, rfl⟩ := pure_ok h
    obtain ⟨hre, hme⟩ := expr_renders hp hD hsub hsubres
      (fun y hy => hin y (List.mem_cons_of_mem _ hy)) hst he
    exact ⟨⟨e', hre, rfl⟩, hme⟩
  | .brk _, _, _, _, _, _, _, _, _, _, _, _, h | .cont _, _, _, _, _, _, _, _, _, _, _, _, h => by
    rw [stmt] at h
    obtain ⟨rfl, rfl⟩ := jump_ok h
    exact ⟨rfl, .refl _⟩
  | .unknown .., _, _, _, _, _, _, _, hsrc, _, _, _, _ => hsrc.elim

theorem header_renders (hp : p.Sound fn globals) (hD : p.Meets fn globals D) :
    ∀ {h : Header Mark} {r : Region} {fs sc : ScopeId} {loop : NodeId} {st st' : LoweringState}
    {x : Header Span}, h.IsSource → p.analysis.scoping.ResolvedHeader globals fs sc loop h →
    (∀ y ∈ h.nodes, y ∈ fn.nodes) → p.Steady r st → header p r h st = .ok (x, st') →
    p.RendersHeader D r h x ∧ Moves (p.hoistsHeader r.inWrapper h) st st'
  | .whileTrue _ c, _, _, sc, _, _, _, _, hsrc, hres, hin, hst, h => by
    have hsub : c.IsSource := hsrc
    have hsubres : p.analysis.scoping.ResolvedExpr globals sc c := hres
    rw [header] at h
    obtain ⟨c', st₁, hc, h⟩ := bind_ok h
    obtain ⟨rfl, rfl⟩ := pure_ok h
    obtain ⟨hrc, hmc⟩ := expr_renders hp hD hsub hsubres
      (fun y hy => hin y (List.mem_cons_of_mem _ hy)) hst hc
    exact ⟨⟨c', hrc, rfl⟩, hmc⟩
  | .counting m i c u, r, _, _, _, st, st', _, hsrc, hres, hin, hst, h => by
    obtain ⟨hsi, hsc, hsu⟩ := Header.shaped_counting.1 hsrc
    obtain ⟨hresi, hresc, hresu⟩ := Scoping.resolvedHeader_counting.1 hres
    rw [Header.nodes_counting] at hin
    rw [header_counting] at h
    obtain ⟨i', st₁, hi, h⟩ := bind_ok h
    obtain ⟨c', st₂, hc, h⟩ := bind_ok h
    obtain ⟨u', st₃, hu, h⟩ := bind_ok h
    obtain ⟨rfl, hst₃⟩ := pure_ok h
    subst hst₃
    have A : ((i = none → i' = none) ∧ ∀ s, i = some s → p.RendersStmt D r s i'.toList) ∧
        Moves (i.elim [] (p.hoists r.inWrapper)) st st₁ := by
      cases i with
      | none =>
        obtain ⟨rfl, rfl⟩ := pure_ok hi
        exact ⟨⟨fun _ => rfl, nofun⟩, .refl _⟩
      | some s =>
        obtain ⟨o, st₄, hs, hi⟩ := bind_ok hi
        obtain ⟨rfl, rfl⟩ := single_toList hi
        obtain ⟨hr, hm⟩ := stmt_renders hp hD (hsi s rfl).2 (hresi s rfl)
          (fun y hy => hin y (List.mem_cons_of_mem _ (List.mem_append_left _ hy))) hst hs
        refine ⟨⟨nofun, ?_⟩, hm⟩
        rintro _ ⟨⟩
        exact hr
    obtain ⟨hri, hmi⟩ := A
    have hst₁ := hst.mono hmi.taken
    have B : ((c = none → c' = none) ∧ ∀ e, c = some e → ∃ e', p.RendersExpr D r e e' ∧
      c' = some e') ∧
        Moves [] st₁ st₂ := by
      cases c with
      | none =>
        obtain ⟨rfl, rfl⟩ := pure_ok hc
        exact ⟨⟨fun _ => rfl, nofun⟩, .refl _⟩
      | some e =>
        obtain ⟨e', st₄, he, hc⟩ := bind_ok hc
        obtain ⟨rfl, rfl⟩ := pure_ok hc
        obtain ⟨hr, hm⟩ := expr_renders hp hD (hsc e rfl) (hresc e rfl) (fun y hy => hin y
          (List.mem_cons_of_mem _ (List.mem_append_right _ (List.mem_append_left _ hy)))) hst₁ he
        refine ⟨⟨nofun, ?_⟩, hm⟩
        rintro _ ⟨⟩
        exact ⟨e', hr, rfl⟩
    obtain ⟨hrc, hmc⟩ := B
    have hst₂ := hst₁.mono hmc.taken
    have C : ((u = none → u' = none) ∧ ∀ s, u = some s → p.RendersStmt D r s u'.toList) ∧
        Moves (u.elim [] (p.hoists r.inWrapper)) st₂ st' := by
      cases u with
      | none =>
        obtain ⟨rfl, rfl⟩ := pure_ok hu
        exact ⟨⟨fun _ => rfl, nofun⟩, .refl _⟩
      | some s =>
        obtain ⟨o, st₄, hs, hu⟩ := bind_ok hu
        obtain ⟨rfl, rfl⟩ := single_toList hu
        obtain ⟨hr, hm⟩ := stmt_renders hp hD (hsu s rfl).2 (hresu s rfl) (fun y hy => hin y
          (List.mem_cons_of_mem _ (List.mem_append_right _ (List.mem_append_right _ hy)))) hst₂ hs
        refine ⟨⟨nofun, ?_⟩, hm⟩
        rintro _ ⟨⟩
        exact hr
    obtain ⟨hru, hmu⟩ := C
    have hmoves := hmi.append (hmc.append hmu)
    rw [hoistsHeader_counting]
    exact ⟨rendersHeader_counting.2 ⟨i', c', u', hri, hrc, hru, rfl⟩, hmoves⟩
  | .forOf m n k e, r, _, _, _, st, _, _, hsrc, hres, hin, hst, h => by
    have hsub : e.IsSource := hsrc
    rw [header] at h
    obtain ⟨e', st₁, he, h⟩ := bind_ok h
    obtain ⟨⟨n', k'⟩, st₂, hk, h⟩ := bind_ok h
    obtain ⟨rfl, rfl⟩ := pure_ok h
    obtain ⟨hre, hme⟩ := expr_renders hp hD hsub hres.1
      (fun y hy => hin y (List.mem_cons_of_mem _ hy)) hst he
    obtain ⟨hrk, hmk⟩ := elementVariable_renders hk
    refine ⟨⟨e', n', k', hre, hrk, rfl⟩, ?_⟩
    have hmoves := hme.append hmk
    cases k <;> simpa [hoistsHeader] using hmoves
  | .unknown .., _, _, _, _, _, _, _, hsrc, _, _, _, _ => hsrc.elim

end

end Lower

open LoweringPlan in
/-- What an analysed function is lowered to is what the lowering makes of it, and meets the
    demands. -/
theorem FunctionDef.Analysed.lower_renders {fn : FunctionDef Mark} {globals : List Name}
    {a : Analysis} {D : Demands} (h : fn.Analysed globals a)
    (hD : Meets ⟨a, .ofAnalysis a⟩ fn globals D) : ∃ out, fn.lower a = .ok out ∧
    RendersFunction ⟨a, .ofAnalysis a⟩ D fn out := by
  have hp : Sound ⟨a, .ofAnalysis a⟩ fn globals := ⟨h, rfl⟩
  obtain ⟨out, hout, -⟩ := h.lower_lowers
  refine ⟨out, hout, ?_⟩
  obtain ⟨mark, name, params, ⟨bm, ss⟩⟩ := fn
  have hin : ∀ y ∈ Stmt.nodesOfList ss, y ∈ (FunctionDef.mk mark name params (.mk bm ss)).nodes :=
    fun y hy => List.mem_cons_of_mem _ (List.mem_cons_of_mem _ hy)
  rw [FunctionDef.lower] at hout
  dsimp only at hout
  change (StateT.run (Lower.withHoisted ⟨a, .ofAnalysis a⟩
    (Lower.stmts ⟨a, .ofAnalysis a⟩ .outermost ss)) _ >>= _) = _ at hout
  rw [StateT.run] at hout
  cases hrun : Lower.withHoisted ⟨a, .ofAnalysis a⟩
      (Lower.stmts ⟨a, .ofAnalysis a⟩ .outermost ss) ⟨(Naming.ofAnalysis a).supply, []⟩ with
  | error e =>
    rw [hrun] at hout
    cases hout
  | ok y =>
    rw [hrun] at hout
    obtain ⟨code, st'⟩ := y
    cases hout
    obtain ⟨body, inner, hbody, rfl, rfl⟩ := Lower.withHoisted_ok hrun
    obtain ⟨hr, hm⟩ := Lower.stmts_renders hp hD h.source h.resolved hin
      (.outermost fun _ hx => hx) hbody
    have hoisted : inner.hoisted = hoistAll [] (hoistsList ⟨a, .ofAnalysis a⟩ false ss) :=
      hm.hoisted
    exact ⟨inner.hoisted, body, hr, hoisted ▸
      hD.function (r := .outermost) h.opens h.resolved .outermost h.source hin hr, rfl⟩

end FlatScope
