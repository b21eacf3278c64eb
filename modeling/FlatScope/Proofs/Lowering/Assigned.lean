import FlatScope.Proofs.Lowering.Scoped
import FlatScope.Proofs.Own

/-!
# What lowered code assigns to

A variable of lowered code that holds a binding is set only where the code that is lowered gives the
binding a value, and a driver only in the header of its loop and where its wrapper is left
(`LoweringPlan.Accounts`). Functions further in set it for no other reason (`Accounts.lends`): a
function of the source that uses the binding, a wrapper that writes back to the driver, or a wrapper
around statements that give the binding a value.

The proof looks at one variable, which a function or wrapper around the piece declares, and at its
role. What a name in the piece stands for is the variable only if its role is to hold that
(`LoweringPlan.Views`); further in, this stays so as long as nothing declares the name again.
-/

namespace FlatScope

/-- The number of the name that a node assigns to. -/
def Node.target? : Node Mark → Option NodeId
  | .stmt (.assignment _ (.name m _) _) => some m.id
  | .header (.forOf m _ none _) => some m.id
  | _ => none

namespace Scoping

/-- Nodes assign to a binding. -/
def WrittenIn (a : Scoping) (b : BindingId) (ns : List (Node Mark)) : Prop :=
  ∃ y ∈ ns, ∃ m, y.target? = some m ∧ (a.referenceAt? m).bind (·.binding) = some b

/-- A binding that code sets where it does not declare it: the code assigns to it, or it is a `var`,
    whose declaration in a wrapper is an assignment. -/
def Gives (a : Scoping) (ns : List (Node Mark)) (b : BindingId) : Prop :=
  a.WrittenIn b ns ∨ ∃ d ∈ a.bindings, d.id = b ∧ d.origin.isFunctionScoped

/-- A function among the nodes sets a binding. -/
def Lends (a : Scoping) (ns : List (Node Mark)) (b : BindingId) : Prop :=
  ∃ m ps c, .expr (.function m ps c) ∈ ns ∧ (∀ y ∈ c.nodes, y ∈ ns) ∧ a.Gives c.nodes b

/-- A function or wrapper among what a statement becomes sets a binding. What may stand in the
    header of a `for` becomes no wrapper. -/
def LendsAt (a : Scoping) (s : Stmt Mark) (b : BindingId) : Prop :=
  a.Gives s.nodes b ∧ (s.isInit → a.Lends s.nodes b)

/-- A binding that code may declare which runs in a scope and has these `let`s and `const`s. -/
def Declared (sc : ScopeId) (ls : List (Lexical Mark)) (ns : List (Node Mark))
    (d : Binding) : Prop :=
  d.origin.isFunctionScoped ∨ ls ≠ [] ∧ d.scope = sc ∨ ∃ y ∈ ns, y.mark.id = d.scope

variable {a : Scoping} {ns ms : List (Node Mark)} {b : BindingId}

theorem WrittenIn.mono (h : a.WrittenIn b ns) (hsub : ∀ y ∈ ns, y ∈ ms) : a.WrittenIn b ms := by
  obtain ⟨y, hy, h⟩ := h
  exact ⟨y, hsub y hy, h⟩

theorem Gives.mono (h : a.Gives ns b) (hsub : ∀ y ∈ ns, y ∈ ms) : a.Gives ms b :=
  h.imp_left fun h => h.mono hsub

theorem Lends.mono (h : a.Lends ns b) (hsub : ∀ y ∈ ns, y ∈ ms) : a.Lends ms b := by
  obtain ⟨m, ps, c, hx, hin, h⟩ := h
  exact ⟨m, ps, c, hsub _ hx, fun y hy => hsub y (hin y hy), h⟩

theorem Lends.gives (h : a.Lends ns b) : a.Gives ns b := by
  obtain ⟨m, ps, c, -, hin, h⟩ := h
  exact h.mono hin

theorem LendsAt.of_lends {s : Stmt Mark} (h : a.Lends ns b) (hsub : ∀ y ∈ ns, y ∈ s.nodes) :
    a.LendsAt s b := ⟨h.gives.mono hsub, fun _ => h.mono hsub⟩

theorem LendsAt.of_gives {s : Stmt Mark} (hs : s.isInit = false) (h : a.Gives ns b)
    (hsub : ∀ y ∈ ns, y ∈ s.nodes) : a.LendsAt s b :=
  ⟨h.mono hsub, fun hi => by
    rw [hs] at hi
    cases hi⟩

theorem Declared.mono {sc sc' : ScopeId} {ls ls' : List (Lexical Mark)} {d : Binding}
    (h : Declared sc ls ns d) (hsc : ls ≠ [] → ls' ≠ [] ∧ sc = sc' ∨ ∃ y ∈ ms, y.mark.id = sc)
    (hsub : ∀ y ∈ ns, y ∈ ms) : Declared sc' ls' ms d := by
  rcases h with h | ⟨hls, hd⟩ | ⟨y, hy, hd⟩
  · exact .inl h
  · exact .inr ((hsc hls).imp (fun ⟨hls', he⟩ => ⟨hls', hd.trans he⟩) fun ⟨y, hy, he⟩ =>
      ⟨y, hy, he.trans hd.symm⟩)
  · exact .inr (.inr ⟨y, hsub y hy, hd⟩)

end Scoping

/-- What a variable with a role is set to where it is declared; one that holds a binding may be set
    to anything. -/
def Role.Takes : Role → Option (Expr Span) → Prop
  | .holds (.binding _), _ => False
  | .holds (.driver _), _ | .signal, _ => True
  | .wrapper ps c, v => ∃ m, v = some (.function m ps c)

namespace LoweringPlan

variable (p : LoweringPlan) (fn : FunctionDef Mark)

/-- The driver of a binding is set outside of the header of its loop: the wrapper of the loop writes
    back to it, or a function in the header uses it. -/
def LendsDriver (b : BindingId) : Prop :=
  ∃ m h c, .stmt (.loop m h c) ∈ fn.nodes ∧ b ∈ (p.loopPlan m.id).fresh ∧
    (b ∈ (p.loopPlan m.id).writeBack ∨ p.analysis.scoping.Lends h.nodes b)

/-- Why code in a region sets the variable `x` with the role `σ`: it means a binding with a
    property, or it is a driver that is set outside of its header. -/
def Reason (x : Name) (σ : Role) (r : Region) (P : BindingId → Prop) : Prop :=
  (∃ b, x = p.nameOf r b ∧ σ = .holds (r.slot b) ∧ P b) ∨
    ∃ b, σ = .holds (.driver b) ∧ p.LendsDriver fn b

/-- Own nodes of lowered code, with the variables that the code declares, set the variable `x` only
    for a reason: they declare it, it means a binding with the property `P`, or a function among
    them sets it and it means one with the property `Q`. -/
structure Accounts (x : Name) (σ : Role) (r : Region) (D : Binding → Prop) (P Q : BindingId → Prop)
    (roles : Roles) (os : List (Node Span)) : Prop where
  sets : ∀ {y v}, y ∈ os → y.sets? = some (x, v) →
    x ∈ roles.names ∧ (σ.Takes v ∨
      ∃ d ∈ p.analysis.scoping.bindings, σ = .holds (.binding d.id) ∧ D d) ∨ p.Reason fn x σ r P
  lends : ∀ {y}, y ∈ os → y.Lends x → p.Reason fn x σ r Q

/-- The variable `x` with the role `σ` is what a name in a scope means only if it holds that. -/
structure Views (x : Name) (σ : Role) (r : Region) (sc : ScopeId) : Prop where
  known : ∀ {n b}, p.analysis.scoping.lookup? sc n = some b → p.nameOf r b.id = x →
    σ = .holds (r.slot b.id)
  global : ∀ {n}, p.analysis.scoping.lookup? sc n = none →
    n ∈ p.analysis.scoping.globalsUsed → n ≠ x
  writeBacks : ∀ w ∈ r.writeBacks, w.1 = x → ∃ b, σ = .holds (.driver b) ∧ p.LendsDriver fn b

variable {p fn} {globals : List Name} {x : Name} {σ : Role} {r r' : Region} {D D' : Binding → Prop}
  {P P' Q Q' : BindingId → Prop} {roles roles' ρ : Roles} {os os' : List (Node Span)} {sc : ScopeId}

theorem Reason.mono (h : p.Reason fn x σ r P) (hP : ∀ b, P b → P' b) : p.Reason fn x σ r P' :=
  h.imp_left fun ⟨b, hx, hσ, hb⟩ => ⟨b, hx, hσ, hP b hb⟩

/-- A reason does not depend on more of a region than its drivers. -/
theorem Reason.region (h : p.Reason fn x σ r P) (hr : r'.drivers = r.drivers) :
    p.Reason fn x σ r' P :=
  h.imp_left fun ⟨b, hx, hσ, hb⟩ => ⟨b, by rw [hx, nameOf, nameOf, hr],
    by rw [hσ, Region.slot, Region.slot, hr], hb⟩

namespace Accounts

theorem mono (h : p.Accounts fn x σ r D P Q roles os) (hD : ∀ d, D d → D' d) (hP : ∀ b, P b → P' b)
    (hQ : ∀ b, Q b → Q' b) (hroles : ∀ n ∈ roles.names, n ∈ roles'.names) :
    p.Accounts fn x σ r D' P' Q' roles' os where
  sets hy hs := (h.sets hy hs).imp
    (fun ⟨hx, hσ⟩ => ⟨hroles x hx, hσ.imp_right fun ⟨d, hd, hσ, hb⟩ => ⟨d, hd, hσ, hD d hb⟩⟩)
    fun h => h.mono hP
  lends hy hl := (h.lends hy hl).mono hQ

/-- The same with more reasons for functions. -/
theorem widen (h : p.Accounts fn x σ r D P Q roles os) (hQ : ∀ b, Q b → Q' b) :
    p.Accounts fn x σ r D P Q' roles os :=
  h.mono (fun _ h => h) (fun _ h => h) hQ fun _ h => h

/-- A clause of a `for`: it may declare what the header does. -/
theorem clause {s : Stmt Mark} {o : Option (Stmt Span)} {sc : ScopeId} {ls : List (Lexical Mark)}
    {ns : List (Node Mark)} (h : p.Accounts fn x σ r (Scoping.Declared sc s.lexical?.toList s.nodes)
      (p.analysis.scoping.Gives s.nodes) (p.analysis.scoping.LendsAt s) roles
      (Stmt.ownOfList o.toList)) (hs : s.isInit) (hlex : s.lexical?.toList ≠ [] → ls ≠ [])
    (hsub : ∀ y ∈ s.nodes, y ∈ ns) (hroles : ∀ z ∈ roles, z ∈ roles') :
    p.Accounts fn x σ r (Scoping.Declared sc ls ns) (p.analysis.scoping.Gives ns)
      (p.analysis.scoping.Lends ns) roles' (o.elim [] Stmt.own) := by
  have hacc : p.Accounts fn x σ r (Scoping.Declared sc ls ns) (p.analysis.scoping.Gives ns)
      (p.analysis.scoping.Lends ns) roles' (Stmt.ownOfList o.toList) :=
    h.mono (fun _ h => h.mono (fun hl => .inl ⟨hlex hl, rfl⟩) hsub) (fun _ h => h.mono hsub)
      (fun _ h => (h.2 hs).mono hsub) fun n hn => by
        obtain ⟨τ, hτ⟩ := Roles.exists_of_mem_names hn
        exact Roles.mem_names (hroles _ hτ)
  cases o with
  | none => exact hacc
  | some o => simpa [Stmt.ownOfList] using hacc

theorem region (h : p.Accounts fn x σ r D P Q roles os) (hr : r'.drivers = r.drivers) :
    p.Accounts fn x σ r' D P Q roles os where
  sets hy hs := (h.sets hy hs).imp_right fun h => h.region hr
  lends hy hl := (h.lends hy hl).region hr

theorem nil : p.Accounts fn x σ r D P Q roles [] where
  sets hy := absurd hy List.not_mem_nil
  lends hy := absurd hy List.not_mem_nil

theorem append (h : p.Accounts fn x σ r D P Q roles os) (h' : p.Accounts fn x σ r D P Q roles os') :
    p.Accounts fn x σ r D P Q roles (os ++ os') where
  sets hy := (List.mem_append.1 hy).elim h.sets h'.sets
  lends hy := (List.mem_append.1 hy).elim h.lends h'.lends

/-- A node that makes no function. -/
theorem consSets {y : Node Span} (hy : ∀ m ps c, y ≠ .expr (.function m ps c))
    (hs : ∀ v, y.sets? = some (x, v) → x ∈ roles.names ∧ (σ.Takes v ∨
      ∃ d ∈ p.analysis.scoping.bindings, σ = .holds (.binding d.id) ∧ D d) ∨ p.Reason fn x σ r P)
    (h : p.Accounts fn x σ r D P Q roles os) : p.Accounts fn x σ r D P Q roles (y :: os) where
  sets hz hsz := by
    rcases List.mem_cons.1 hz with rfl | hz
    · exact hs _ hsz
    · exact h.sets hz hsz
  lends hz hl := by
    rcases List.mem_cons.1 hz with rfl | hz
    · obtain ⟨m, ps, c, he, -⟩ := hl
      exact absurd he (hy m ps c)
    · exact h.lends hz hl

/-- A node that sets nothing and makes no function. -/
theorem cons {y : Node Span} (hy : ∀ m ps c, y ≠ .expr (.function m ps c)) (hs : y.sets? = none)
    (h : p.Accounts fn x σ r D P Q roles os) : p.Accounts fn x σ r D P Q roles (y :: os) :=
  h.consSets hy fun v hv => by
    rw [hs] at hv
    cases hv

/-- A node that is a function which sets the variable for a reason. -/
theorem function {m : Span} {ps : List Name} {c : Block Span}
    (h : c.AssignsOutside x ps → p.Reason fn x σ r Q) :
    p.Accounts fn x σ r D P Q roles [.expr (.function m ps c)] where
  sets hy hs := by
    cases List.mem_singleton.1 hy
    cases hs
  lends hy hl := by
    cases List.mem_singleton.1 hy
    obtain ⟨m', ps', c', he, ha⟩ := hl
    cases he
    exact h ha

/-- Code that sets a variable which it does not declare has a reason to. -/
theorem reason {ss : List (Stmt Span)} {m : Span}
    (h : p.Accounts fn x σ r D P P roles (Stmt.ownOfList ss)) (hx : x ∉ roles.names)
    (ha : (Block.mk m ss).Assigns x) : p.Reason fn x σ r P := by
  cases ha with
  | sets hy hs =>
    rcases List.mem_cons.1 hy with rfl | hy
    · cases hs
    · exact (h.sets hy hs).resolve_left fun hr => hx hr.1
  | inside hy hps hv ha =>
    rcases List.mem_cons.1 hy with he | hy
    · cases he
    · exact h.lends hy ⟨_, _, _, rfl, hps, hv, ha⟩

end Accounts

/-! ## Code that is no image of source code -/

namespace Accounts

/-- Two variables, of which one gets the value of the other. -/
theorem copy {w : Name × Name} (hw : w.1 = x → ∃ b, σ = .holds (.driver b) ∧ p.LendsDriver fn b) :
    p.Accounts fn x σ r D P Q roles
      (Stmt.assignment Span.unknown (.name .unknown w.1) (.name .unknown w.2)).own := by
  rw [Stmt.own, Expr.own, Expr.own]
  refine .consSets (by simp) (fun v hv => .inr (.inr (hw ?_)))
    (.cons (by simp) rfl (.cons (by simp) rfl .nil))
  exact (Prod.mk.inj (Option.some.inj hv)).1

theorem writeBacks {ws : WriteBacks}
    (hws : ∀ w ∈ ws, w.1 = x → ∃ b, σ = .holds (.driver b) ∧ p.LendsDriver fn b) :
    p.Accounts fn x σ r D P Q roles (Stmt.ownOfList (writeBackStmts ws)) := by
  induction ws with
  | nil => exact .nil
  | cons w ws ih =>
    rw [writeBackStmts, List.map_cons, Stmt.ownOfList]
    exact (copy (hws w List.mem_cons_self)).append
      (ih fun v hv => hws v (List.mem_cons_of_mem _ hv))

/-- Statements behind write-backs. -/
theorem behind {ws : WriteBacks} {s : Stmt Span}
    (hws : ∀ w ∈ ws, w.1 = x → ∃ b, σ = .holds (.driver b) ∧ p.LendsDriver fn b)
    (hs : p.Accounts fn x σ r D P Q roles s.own) :
    p.Accounts fn x σ r D P Q roles (Stmt.ownOfList (writeBackStmts ws ++ [s])) := by
  rw [Stmt.ownOfList_append, Stmt.ownOfList, Stmt.ownOfList, List.append_nil]
  exact (writeBacks hws).append hs

theorem exit {ws : WriteBacks}
    (hws : ∀ w ∈ ws, w.1 = x → ∃ b, σ = .holds (.driver b) ∧ p.LendsDriver fn b) (k : SignalKind)
    {v : Option (Expr Span)} (hv : ∀ e, v = some e → p.Accounts fn x σ r D P Q roles e.own)
    (m : Span) :
    p.Accounts fn x σ r D P Q roles (Stmt.ownOfList (exitStmts k v ws m)) := by
  refine behind hws ?_
  cases v with
  | none => exact .cons (by simp) rfl (.cons (by simp) rfl .nil)
  | some e => exact .cons (by simp) rfl (.cons (by simp) rfl (hv e rfl))

/-- A branch without an alternative. -/
theorem branch {m k : Span} {c : Expr Span} {ss : List (Stmt Span)}
    (hc : p.Accounts fn x σ r D P Q roles c.own)
    (hss : p.Accounts fn x σ r D P Q roles (Stmt.ownOfList ss)) :
    p.Accounts fn x σ r D P Q roles (Stmt.branch m c (.mk k ss) none).own := by
  rw [Stmt.own, Block.own]
  exact .cons (by simp) rfl (hc.append ((Accounts.cons (by simp) rfl hss).append .nil))

theorem action {ws : WriteBacks}
    (hws : ∀ w ∈ ws, w.1 = x → ∃ b, σ = .holds (.driver b) ∧ p.LendsDriver fn b)
    (sig : Name) (m : Span)
    (e : Exit) (act : ExitAction) :
    p.Accounts fn x σ r D P Q roles (Stmt.ownOfList (actionStmts sig ws m e act)) := by
  cases act with
  | jump =>
    rw [actionStmts]
    cases e <;> exact .cons (by simp) rfl .nil
  | returnValue => exact .cons (by simp) rfl (.cons (by simp) rfl (.cons (by simp) rfl .nil))
  | propagate => exact behind hws (.cons (by simp) rfl (.cons (by simp) rfl .nil))

theorem handlers {ws : WriteBacks}
    (hws : ∀ w ∈ ws, w.1 = x → ∃ b, σ = .holds (.driver b) ∧ p.LendsDriver fn b)
    (sig : Name) (m : Span)
    (site : CallSite) (exits : List Exit) :
    p.Accounts fn x σ r D P Q roles (Stmt.ownOfList (site.handlers sig exits ws m)) := by
  rw [CallSite.handlers]
  split
  · rw [Stmt.ownOfList, Stmt.ownOfList, List.append_nil, propagateAll]
    refine .branch ?_ (.behind hws (.cons (by simp) rfl (.cons (by simp) rfl .nil)))
    rw [Expr.own, Expr.own, Expr.own]
    exact .cons (by simp) rfl (.cons (by simp) rfl (.cons (by simp) rfl .nil))
  · generalize site.plan exits = plan
    induction plan with
    | nil => exact .nil
    | cons e plan ih =>
      obtain ⟨e, act⟩ := e
      rw [List.map_cons, Stmt.ownOfList]
      exact Accounts.append (.branch (.cons (by simp) rfl (.cons (by simp) rfl .nil))
        (.action hws sig m e act)) ih

/-- The call of a wrapper. -/
theorem calls {exits : List Exit} {site : CallSite} {m : Span} {call : Expr Span}
    {out : List (Stmt Span)} (h : r.Calls exits site m call out ρ)
    (hcall : p.Accounts fn x σ r D P Q roles call.own)
    (hws : ∀ w ∈ r.writeBacks, w.1 = x → ∃ b, σ = .holds (.driver b) ∧ p.LendsDriver fn b)
    (hroles : ∀ τ, (x, τ) ∈ ρ → x ∈ roles.names ∧ σ = τ) :
    p.Accounts fn x σ r D P Q roles (Stmt.ownOfList out) := by
  rw [Region.Calls] at h
  split at h
  · obtain ⟨rfl, rfl⟩ := h
    rw [plainCall, Stmt.ownOfList, Stmt.own, Stmt.ownOfList, List.append_nil]
    exact .cons (by simp) rfl hcall
  · obtain ⟨sig, h, rfl⟩ := h
    obtain ⟨-, rfl⟩ := signalCall_ok h
    rw [Stmt.ownOfList, Stmt.own]
    refine Accounts.append (.consSets (by simp) (fun v hv => .inl ?_) hcall)
      (.handlers hws sig m site exits)
    obtain rfl : sig = x := (Prod.mk.inj (Option.some.inj hv)).1
    obtain ⟨hx, rfl⟩ := hroles .signal List.mem_cons_self
    exact ⟨hx, .inl trivial⟩

/-- An early exit of the region. -/
theorem leave (hws : ∀ w ∈ r.writeBacks, w.1 = x → ∃ b, σ = .holds (.driver b) ∧ p.LendsDriver fn b)
    {e : Exit} {v : Option (Expr Span)}
    (hv : ∀ e, v = some e → p.Accounts fn x σ r D P Q roles e.own) {m : Span} {plain : Stmt Span}
    (hplain : p.Accounts fn x σ r D P Q roles plain.own) :
    p.Accounts fn x σ r D P Q roles (Stmt.ownOfList (Lower.leave r e v m plain)) := by
  rw [Lower.leave]
  split
  · exact .exit hws (some e) hv m
  · rw [Stmt.ownOfList, Stmt.ownOfList, List.append_nil]
    exact hplain

/-- The declarations at the top of a function. -/
theorem hoisted (bs : List BindingId) :
    p.Accounts fn x σ r D P Q roles (Stmt.ownOfList (p.hoistedDeclarations bs)) := by
  induction bs with
  | nil => exact .nil
  | cons b bs ih =>
    rw [hoistedDeclarations, List.map_cons, Stmt.ownOfList, Stmt.own]
    exact .append (.cons (by simp) rfl .nil) ih

/-- The code of a wrapper with its end. -/
theorem wrapperCode {ss : List (Stmt Span)}
    (h : p.Accounts fn x σ r D P Q roles (Stmt.ownOfList ss)) (w : Wrapper) {ws : WriteBacks}
    (hws : ∀ v ∈ ws, v.1 = x → ∃ b, σ = .holds (.driver b) ∧ p.LendsDriver fn b) :
    p.Accounts fn x σ r D P Q roles (Stmt.ownOfList (Lower.wrapperCode w ws ss)) := by
  rw [Lower.wrapperCode, Stmt.ownOfList_append]
  refine h.append ?_
  split
  · exact .writeBacks hws
  · exact .exit hws none (by simp) .unknown

end Accounts

/-! ## Going further in -/

namespace Views

/-- The variable of a function or wrapper in the code of that. -/
theorem ofHosts {own : List BindingId} (h : p.Hosts r sc own roles) (hx : (x, σ) ∈ roles)
    (hws : ∀ w ∈ r.writeBacks, w.1 ∉ roles.names) : p.Views fn x σ r sc where
  known {n b} hb hbx := by
    by_cases hown : b.id ∈ own
    · exact h.coherent hx (hbx ▸ (h.here hb hown).2)
    · exact absurd (hbx ▸ Roles.mem_names hx) (h.outer hb hown)
  global hn hg he := h.global hn hg (he ▸ Roles.mem_names hx)
  writeBacks w hw he := absurd (he ▸ Roles.mem_names hx) (hws w hw)

/-- A variable in the code of a function or wrapper that does not declare its name. -/
theorem ofOuter {own : List BindingId} (h : p.Hosts r sc own roles) (hx : x ∉ roles.names)
    (hout : ∀ {n d}, p.analysis.scoping.lookup? sc n = some d → d.id ∉ own → p.nameOf r d.id = x →
      σ = .holds (r.slot d.id))
    (hglobal : ∀ {n}, p.analysis.scoping.lookup? sc n = none →
      n ∈ p.analysis.scoping.globalsUsed → n ≠ x)
    (hws : ∀ w ∈ r.writeBacks, w.1 = x → ∃ b, σ = .holds (.driver b) ∧ p.LendsDriver fn b) :
    p.Views fn x σ r sc where
  known {n b} hb hbx := by
    by_cases hown : b.id ∈ own
    · exact absurd (hbx ▸ Roles.mem_names (h.here hb hown).2) hx
    · exact hout hb hown hbx
  global := hglobal
  writeBacks := hws

theorem loopBody (h : p.Views fn x σ r sc) : p.Views fn x σ r.loopBody sc :=
  ⟨h.known, h.global, h.writeBacks⟩

/-- A block without a wrapper. -/
theorem block (h : p.Views fn x σ r sc) (hp : p.Sound fn globals) {b : Block Mark}
    (ho : p.analysis.scoping.OpensBlock b sc) {out : List (Stmt Span)}
    (hlow : p.LowersStmts r (b.scopeIn sc) b.statements out roles)
    (hroles : ∀ τ, (x, τ) ∈ roles → σ = τ) : p.Views fn x σ r (b.scopeIn sc) := by
  by_cases hne : b.lexicals = []
  · rwa [Block.scopeIn_of_nil hne]
  · rw [Block.scopeIn_of_ne_nil hne] at hlow ⊢
    have hcons := hp.analysed.consistent
    refine ⟨fun {n d} hd hx => ?_, fun hn => h.global (hcons.lookup?_outer (ho.scope hne).2 hn),
      h.writeBacks⟩
    rcases hcons.of_lookup?_inner (ho.scope hne).2 hd with hs | hd'
    · obtain ⟨-, hrole⟩ := role_of_block hp ho hne hlow (hcons.of_lookup? hd).1 hs
      exact hroles _ (hx ▸ hrole)
    · exact h.known hd' hx

/-- The region of the header of a loop with a wrapper. -/
theorem loopHeader (h : p.Views fn x σ r sc) {drivers : List (BindingId × Name)}
    (hdrivers : ∀ d ∈ drivers, d.2 = x → σ = .holds (.driver d.1)) :
    p.Views fn x σ (r.loopHeader drivers) sc := by
  refine ⟨fun {n d} hn hx => ?_, h.global, h.writeBacks⟩
  cases hl : drivers.lookup d.id with
  | some y =>
    have hl' : (r.loopHeader drivers).drivers.lookup d.id = some y :=
      Table.lookup_append_of_some hl
    rw [nameOf, hl'] at hx
    rw [Region.slot, hl']
    exact hdrivers _ (Table.mem_of_lookup hl) hx
  | none =>
    have hl' : (r.loopHeader drivers).drivers.lookup d.id = r.drivers.lookup d.id :=
      Table.lookup_append_of_none hl
    rw [nameOf, hl'] at hx
    rw [Region.slot, hl']
    exact h.known hn hx

/-- The clauses of the header of a loop. -/
theorem header (h : p.Views fn x σ r sc) (hp : p.Sound fn globals) {loop : NodeId}
    {hd : Header Mark} (ho : p.analysis.scoping.OpensLoop loop hd sc) {hd' : Header Span}
    (hlow : p.LowersHeader r (hd.scopeIn loop sc) hd hd' roles)
    (hroles : ∀ τ, (x, τ) ∈ roles → σ = τ) : p.Views fn x σ r (hd.scopeIn loop sc) := by
  have hcons := hp.analysed.consistent
  cases hlex : Resolve.headerLexical? hd with
  | none => rwa [show hd.scopeIn loop sc = sc by simp [Header.scopeIn, hlex]]
  | some l =>
    rw [show hd.scopeIn loop sc = loop by simp [Header.scopeIn, hlex]]
    refine ⟨fun {n d} hn hx => ?_, fun hn => h.global (hcons.lookup?_outer (ho l hlex).1 hn),
      h.writeBacks⟩
    rcases hcons.of_lookup?_inner (ho l hlex).1 hn with hs | hn'
    · obtain ⟨e, hem, hedecl, -, hes, heo, hids⟩ := hp.analysed.of_header ho hlex
      have hmem := hcons.mem_bindingIdsOf.2 ⟨d, (hcons.of_lookup? hn).1, rfl, hs⟩
      rw [hids, List.mem_singleton] at hmem
      obtain rfl := hp.analysed.eq_of_id (hcons.of_lookup? hn).1 hem hmem
      obtain ⟨g, hg, hrole⟩ := role_of_header hlow hlex
      obtain rfl := Option.some.inj (hedecl.symm.trans hg)
      exact hroles _ (hx ▸ hrole (Origin.not_functionScoped (congrArg Origin.kind? heo)
        (Resolve.headerLexical?_kind hlex)))
    · exact h.known hn' hx

/-- The code of the wrapper of a loop. -/
theorem wrappedBody {m b : Mark} {hd : Header Mark} {drivers : List (BindingId × Name)}
    (h : p.Views fn x σ (r.loopHeader drivers) (hd.scopeIn m.id sc)) (hp : p.Sound fn globals)
    {ss : List (Stmt Mark)} (hin : .stmt (.loop m hd (.mk b ss)) ∈ fn.nodes)
    (hl : p.analysis.scoping.HasLoop m.id hd (.mk b ss) sc)
    (hb : p.analysis.scoping.OpensBlock (.mk b ss) (hd.scopeIn m.id sc)) {w : Wrapper}
    (hw : (p.loopPlan m.id).wrapper = some w)
    (hkeys : drivers.map (·.1) = (p.loopPlan m.id).fresh)
    (hdrivers : ∀ d ∈ drivers, d.2 = x → σ = .holds (.driver d.1))
    (hhosts : p.Hosts (p.loopRegion r m drivers) ((Block.mk b ss).scopeIn (hd.scopeIn m.id sc))
      (w.locals ++ w.params) roles) (hx : x ∉ roles.names) :
    p.Views fn x σ (p.loopRegion r m drivers) ((Block.mk b ss).scopeIn (hd.scopeIn m.id sc)) := by
  have hcons := hp.analysed.consistent
  obtain ⟨hfresh, hparams, hlocals, hback⟩ := hp.of_wrappedLoop hin hl hw
  refine .ofOuter hhosts hx (fun {n d} hn hown hnx => ?_) (fun {n} hn hg => ?_) fun v hv he => ?_
  · obtain ⟨hout, hnone⟩ := hp.known_outside hin hl hb hw hkeys hn hown
    have hl' : (r.loopHeader drivers).drivers.lookup d.id = r.drivers.lookup d.id :=
      Table.lookup_append_of_none hnone
    have hslot := h.known hout (by rw [nameOf, hl']; exact hnx)
    rwa [Region.slot, hl'] at hslot
  · exact h.global (hp.unknown_outside hb hn) hg
  · obtain ⟨i, hi, rfl⟩ := List.mem_map.1 hv
    obtain ⟨y, hy⟩ := Table.exists_lookup.2 (hkeys ▸ hback i hi : i ∈ drivers.map (·.1))
    rw [hy] at he
    exact ⟨i, hdrivers _ (Table.mem_of_lookup hy) he, m, hd, _, hin, hback i hi, .inl hi⟩

end Views

/-! ## Code -/

/-- The name of a use, if it is the variable. -/
theorem Views.refName (h : p.Views fn x σ r sc) {node : NodeId} {n : Name} {w : Bool}
    (hr : p.analysis.scoping.Refers globals sc node n w) (hx : p.refName r node n = x) :
    ∃ b, x = p.nameOf r b ∧ σ = .holds (r.slot b) ∧
      (p.analysis.scoping.referenceAt? node).bind (·.binding) = some b := by
  obtain ⟨e, he, -, -, -, hb, hglobal⟩ := hr
  rw [LoweringPlan.refName, he, Option.bind_some, hb] at hx
  cases hl : p.analysis.scoping.lookup? sc n with
  | none =>
    rw [hl] at hx
    exact absurd hx (h.global hl (hglobal hl).2)
  | some b =>
    rw [hl] at hx hb
    exact ⟨b.id, hx.symm, h.known hl hx, by rw [he, Option.bind_some, hb]; rfl⟩

/-- What a statement declares. -/
theorem declared_of_declares {fs : ScopeId} {m : Mark} {n : Name} {k : DeclKind}
    {v : Option (Expr Mark)} {b : Binding} {ns : List (Node Mark)}
    (h : if k.isBlockScoped then b.scope = sc ∧ b.origin.kind? = some k
      else b.scope = fs ∧ b.origin.isFunctionScoped) :
    Scoping.Declared sc (Stmt.declaration m n k v).lexical?.toList ns b := by
  rw [Stmt.lexical?]
  split at h
  · rw [if_pos ‹_›]
    exact .inr (.inl ⟨by simp, h.1⟩)
  · exact .inl h.2

/-- A declaration sets the variable of its binding. -/
theorem LowersDeclaration.accounts {m : Mark} {b : Binding} {v : Option (Expr Span)}
    {out : List (Stmt Span)} (h : p.LowersDeclaration r m b v out roles) {n : Name}
    (hviews : p.Views fn x σ r sc) (hlook : p.analysis.scoping.lookup? sc n = some b)
    (hb : b ∈ p.analysis.scoping.bindings) (hD : D b)
    (hP : b.origin.isFunctionScoped → P b.id) (hroles : ∀ τ, (x, τ) ∈ roles → σ = τ)
    (hv : ∀ e, v = some e → p.Accounts fn x σ r D P Q roles e.own) :
    p.Accounts fn x σ r D P Q roles (Stmt.ownOfList out) := by
  have hdecl : ∀ w : Option (Expr Span), (∀ e, w = some e → p.Accounts fn x σ r D P Q roles e.own) →
      p.role r b.id ∈ roles → p.Accounts fn x σ r D P Q roles
        (Stmt.ownOfList [.declaration m.span (p.nameOf r b.id) .var w]) := by
    intro w hw hrole
    rw [Stmt.ownOfList, Stmt.ownOfList, List.append_nil]
    cases w with
    | none => exact .cons (by simp) rfl .nil
    | some e =>
      refine .consSets (by simp) (fun v hv => .inl ?_) (hw e rfl)
      obtain rfl : p.nameOf r b.id = x := (Prod.mk.inj (Option.some.inj hv)).1
      refine ⟨Roles.mem_names hrole, ?_⟩
      obtain rfl := hroles _ hrole
      cases hs : r.slot b.id with
      | driver => exact .inl trivial
      | binding c =>
        refine .inr ⟨b, hb, ?_, hD⟩
        rw [Region.slot] at hs
        split at hs <;> cases hs
        rfl
  rw [LowersDeclaration] at h
  split at h
  · obtain ⟨rfl, rfl⟩ := h
    refine hdecl _ ?_ List.mem_cons_self
    rintro _ ⟨⟩
    cases v with
    | none => exact .cons (by simp) rfl .nil
    | some e => exact hv e rfl
  · split at h
    · obtain ⟨rfl, rfl⟩ := h
      cases v with
      | none => exact .nil
      | some e =>
        rw [Option.toList, List.map_cons, List.map_nil, Stmt.ownOfList, Stmt.ownOfList,
          List.append_nil, Stmt.own, Expr.own]
        refine .consSets (by simp) (fun v hv => .inr (.inl ?_)) (.cons (by simp) rfl (hv e rfl))
        have hx : p.nameOf r b.id = x := (Prod.mk.inj (Option.some.inj hv)).1
        exact ⟨b.id, hx.symm, hviews.known hlook hx, hP (by simpa using ‹¬ _ = false›)⟩
    · obtain ⟨rfl, rfl⟩ := h
      exact hdecl v hv List.mem_cons_self

/-- What the header of a loop with a wrapper sets in its region, it sets in that of the loop: its
    drivers are declared there. -/
theorem Accounts.of_loopHeader {drivers : List (BindingId × Name)}
    (h : p.Accounts fn x σ (r.loopHeader drivers) D P Q ρ os) (hP : ∀ b, P b → P' b)
    (hQ : ∀ b, Q b → Q' b) (hD : ∀ d, D d → D' d) (hroles : ∀ n ∈ ρ.names, n ∈ roles.names)
    (hdrivers : ∀ d ∈ drivers, d.2 ∈ roles.names)
    (hlends : ∀ d ∈ drivers, Q d.1 → p.LendsDriver fn d.1) :
    p.Accounts fn x σ r D' P' Q' roles os := by
  have hsome : ∀ {b y}, drivers.lookup b = some y →
      (r.loopHeader drivers).drivers.lookup b = some y := Table.lookup_append_of_some
  have hnone : ∀ {b}, drivers.lookup b = none →
      (r.loopHeader drivers).drivers.lookup b = r.drivers.lookup b := Table.lookup_append_of_none
  refine ⟨fun hy hs => ?_, fun hy hl => ?_⟩
  · rcases h.sets hy hs with ⟨hx, hσ⟩ | ⟨b, hx, hσ, hb⟩ | hr
    · exact .inl ⟨hroles x hx, hσ.imp_right fun ⟨d, hd, hσ, hb⟩ => ⟨d, hd, hσ, hD d hb⟩⟩
    · cases hlook : drivers.lookup b with
      | some z =>
        rw [nameOf, hsome hlook] at hx
        rw [Region.slot, hsome hlook] at hσ
        exact .inl ⟨hx ▸ hdrivers _ (Table.mem_of_lookup hlook), .inl (hσ ▸ trivial)⟩
      | none =>
        rw [nameOf, hnone hlook] at hx
        rw [Region.slot, hnone hlook] at hσ
        exact .inr (.inl ⟨b, hx, hσ, hP b hb⟩)
    · exact .inr (.inr hr)
  · rcases h.lends hy hl with ⟨b, hx, hσ, hb⟩ | hr
    · cases hlook : drivers.lookup b with
      | some z =>
        rw [Region.slot, hsome hlook] at hσ
        exact .inr ⟨b, hσ, hlends _ (Table.mem_of_lookup hlook) hb⟩
      | none =>
        rw [nameOf, hnone hlook] at hx
        rw [Region.slot, hnone hlook] at hσ
        exact .inl ⟨b, hx, hσ, hQ b hb⟩
    · exact .inr hr

/-- A loop whose body calls its wrapper. -/
theorem CallsLoop.accounts {m b : Mark} {w : Wrapper} {drivers : List (BindingId × Name)}
    {h' : Header Span} {body : List (Stmt Span)} {ρh : Roles} {out : List (Stmt Span)}
    (h : p.CallsLoop r m b w drivers h' body ρh out roles)
    (hroles : ∀ τ, (x, τ) ∈ roles → σ = τ)
    (hh : (∀ n ∈ ρh.names, n ∈ roles.names) → p.Accounts fn x σ r D P Q roles h'.own)
    (hws : ∀ w ∈ r.writeBacks, w.1 = x → ∃ b, σ = .holds (.driver b) ∧ p.LendsDriver fn b)
    (hcode : (p.loopCode m b w drivers body).AssignsOutside x (p.loopParams m) →
      p.Reason fn x σ r Q) : p.Accounts fn x σ r D P Q roles (Stmt.ownOfList out) := by
  have hargs : p.Accounts fn x σ r D P Q roles (Expr.ownOfList (loopArgs m drivers)) := by
    rw [loopArgs]
    clear h hcode
    induction drivers with
    | nil => exact .nil
    | cons d ds ih => exact .cons (by simp) rfl ih
  have hloop : ∀ {call : List (Stmt Span)}, (∀ n ∈ ρh.names, n ∈ roles.names) →
      p.Accounts fn x σ r D P Q roles (Stmt.ownOfList call) →
      p.Accounts fn x σ r D P Q roles (Stmt.ownOfList [.loop m.span h' (.mk m.span call)]) := by
    intro call hsub hcall
    rw [Stmt.ownOfList, Stmt.ownOfList, List.append_nil, Stmt.own, Block.own]
    exact .cons (by simp) rfl ((hh hsub).append (.cons (by simp) rfl hcall))
  rw [CallsLoop] at h
  split at h
  · obtain ⟨name, call, ρc, hc, rfl, hρ⟩ := h
    have hname : (name, Role.wrapper (p.loopParams m) (p.loopCode m b w drivers body)) ∈ roles := by
      simp [hρ]
    have hsub : ∀ τ, (x, τ) ∈ ρc → x ∈ roles.names ∧ σ = τ := fun τ hτ =>
      have hτ : (x, τ) ∈ roles := by simp [hρ, hτ]
      ⟨Roles.mem_names hτ, hroles τ hτ⟩
    rw [Stmt.ownOfList, Stmt.own]
    refine Accounts.append (.consSets (by simp) (fun v hv => .inl ?_) (.function hcode))
      (hloop (fun n hn => by simp [hρ, hn]) (.calls hc (.cons (by simp) rfl (.append
        (.cons (by simp) rfl .nil) hargs)) hws hsub))
    obtain ⟨rfl, rfl⟩ := Prod.mk.inj (Option.some.inj hv)
    obtain rfl := hroles _ hname
    exact ⟨Roles.mem_names hname, .inl ⟨_, rfl⟩⟩
  · obtain ⟨call, ρc, hc, rfl, hρ⟩ := h
    have hsub : ∀ τ, (x, τ) ∈ ρc → x ∈ roles.names ∧ σ = τ := fun τ hτ =>
      have hτ : (x, τ) ∈ roles := by simp [hρ, hτ]
      ⟨Roles.mem_names hτ, hroles τ hτ⟩
    refine hloop (fun n hn => by simp [hρ, hn]) (.calls hc ?_ hws hsub)
    rw [Expr.own]
    exact .cons (by simp) rfl (.append (.function hcode) hargs)

end LoweringPlan

end FlatScope
