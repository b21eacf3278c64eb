import FlatScope.Proofs.Lowering.Images
import FlatScope.Proofs.Lowering.Scoped
import FlatScope.Proofs.Marks
import FlatScope.Proofs.Nodes

/-!
# The variables of the functions in lowered code

A function in lowered code is one of the source or a wrapper, and the variables that it declares
have roles (`LoweringPlan.Hosts`). `LoweringPlan.Allots` lists the functions in a piece of lowered
code with their variables, beside the variables that the piece declares in the function around it.
No binding has its variable twice, and no driver: what the variables of a function hold are bindings
of scopes that lie between its numbers, and the pieces of a function have different numbers.
-/

namespace FlatScope

variable {α β : Type}

/-! ## Functions among nodes -/

namespace Node

/-- The mark of a function. -/
def function? : Node α → Option α
  | .expr (.function m _ _) => some m
  | _ => none

/-- The marks of the functions among nodes. -/
def functions (ns : List (Node α)) : List α := ns.filterMap function?

variable {x : Node α} {ns ms : List (Node α)}

@[simp] theorem functions_nil : functions ([] : List (Node α)) = [] := rfl

@[simp] theorem functions_append : functions (ns ++ ms) = functions ns ++ functions ms :=
  List.filterMap_append ..

@[simp] theorem functions_cons : functions (x :: ns) = x.function?.toList ++ functions ns := by
  rw [functions, List.filterMap_cons]
  cases x.function? <;> rfl

@[simp] theorem functions_map (f : α → β) : functions (ns.map (map f)) = (functions ns).map f := by
  induction ns with
  | nil => rfl
  | cons x ns ih =>
    have hx : (x.map f).function? = x.function?.map f := by
      cases x with
      | expr e =>
        cases e with
        | signal _ _ v => cases v <;> rfl
        | _ => rfl
      | _ => rfl
    rw [List.map_cons, functions_cons, functions_cons, hx, ih, List.map_append]
    cases x.function? <;> rfl

end Node

open Node

/-- Code that contains no function. -/
def Stmt.Plain (ss : List (Stmt α)) : Prop := functions (Stmt.nodesOfList ss) = []

namespace Stmt

variable {s : Stmt α} {ss ts : List (Stmt α)}

theorem nodesOfList_append : ∀ ss ts : List (Stmt α),
    nodesOfList (ss ++ ts) = nodesOfList ss ++ nodesOfList ts
  | [], _ => rfl
  | s :: ss, ts => by
    rw [List.cons_append, nodesOfList, nodesOfList, nodesOfList_append ss ts, List.append_assoc]

theorem plain_of_forall (h : ∀ s ∈ ss, functions s.nodes = []) : Plain ss := by
  induction ss with
  | nil => rfl
  | cons s ss ih =>
    rw [Plain, nodesOfList, functions_append, h s List.mem_cons_self,
      ih fun t ht => h t (List.mem_cons_of_mem _ ht)]
    rfl

theorem plain_append : Plain (ss ++ ts) ↔ Plain ss ∧ Plain ts := by
  simp [Plain, nodesOfList_append]

/-- Marks do not matter. -/
theorem plain_mapList (f : α → β) : Plain (mapList f ss) ↔ Plain ss := by
  simp [Plain, nodesOfList_map]

end Stmt

section Signals

variable (ws : WriteBacks) (span : Span) (signal : Name)

theorem writeBackStmts_plain : Stmt.Plain (writeBackStmts ws) := by
  refine Stmt.plain_of_forall fun s hs => ?_
  obtain ⟨w, -, rfl⟩ := List.mem_map.1 hs
  rfl

theorem exitStmts_plain (k : SignalKind) : Stmt.Plain (exitStmts k none ws span) :=
  Stmt.plain_append.2 ⟨writeBackStmts_plain ws, rfl⟩

theorem actionStmts_plain (e : Exit) (action : ExitAction) :
    Stmt.Plain (actionStmts signal ws span e action) := by
  cases action with
  | jump => cases e <;> rfl
  | returnValue => rfl
  | propagate => exact Stmt.plain_append.2 ⟨writeBackStmts_plain ws, rfl⟩

theorem CallSite.handlers_plain (site : CallSite) (exits : List Exit) :
    Stmt.Plain (site.handlers signal exits ws span) := by
  have hbranch : ∀ {c : Expr Span} {ss : List (Stmt Span)}, functions c.nodes = [] →
      Stmt.Plain ss → functions (Stmt.branch span c (.mk span ss) none).nodes = [] := by
    intro c ss hc hss
    simpa [Stmt.nodes, Block.nodes, hc, Node.function?, Stmt.Plain] using hss
  refine Stmt.plain_of_forall fun s hs => ?_
  rw [handlers] at hs
  split at hs
  · obtain rfl := List.mem_singleton.1 hs
    exact hbranch rfl (Stmt.plain_append.2 ⟨writeBackStmts_plain ws, rfl⟩)
  · obtain ⟨⟨e, action⟩, -, rfl⟩ := List.mem_map.1 hs
    exact hbranch rfl (actionStmts_plain ws span signal e action)

/-- The end of a wrapper. -/
theorem wrapperEnd_plain (w : Wrapper) : Stmt.Plain (Lower.wrapperCode w ws []) := by
  rw [Lower.wrapperCode, List.nil_append]
  split
  · exact writeBackStmts_plain ws
  · exact exitStmts_plain ws .unknown none

end Signals

namespace LoweringPlan

variable {p : LoweringPlan} {fn : FunctionDef Mark} {globals : List Name}

theorem hoistedDeclarations_plain (bs : List BindingId) :
    Stmt.Plain (p.hoistedDeclarations bs) := by
  refine Stmt.plain_of_forall fun s hs => ?_
  obtain ⟨b, -, rfl⟩ := List.mem_map.1 hs
  rfl

theorem loopArgs_plain (m : Mark) (drivers : List (BindingId × Name)) :
    functions (Expr.nodesOfList (loopArgs m drivers)) = [] := by
  rw [loopArgs]
  induction drivers with
  | nil => rfl
  | cons d ds ih => rw [List.map_cons, Expr.nodesOfList, functions_append, ih]; rfl

/-! ## Slots -/

/-- A slot is for a binding of a scope. Only the parameter of the wrapper of a loop has a driver. -/
def SlotOf (p : LoweringPlan) (fn : FunctionDef Mark) (sc : Nat) : Slot → Prop
  | .binding b => ∃ d ∈ p.analysis.scoping.bindings, d.id = b ∧ d.scope = sc
  | .driver b => (∃ d ∈ p.analysis.scoping.bindings, d.id = b ∧ d.scope = sc) ∧
    ∃ m h c, .stmt (.loop m h c) ∈ fn.nodes ∧ b ∈ (p.loopPlan m.id).fresh

/-- A slot is for a binding of one scope. -/
theorem SlotOf.unique (hp : p.Sound fn globals) {s : Slot} {sc sc' : Nat}
    (h : p.SlotOf fn sc s) (h' : p.SlotOf fn sc' s) : sc = sc' := by
  have hone : ∀ {b}, (∃ d ∈ p.analysis.scoping.bindings, d.id = b ∧ d.scope = sc) →
      (∃ d ∈ p.analysis.scoping.bindings, d.id = b ∧ d.scope = sc') → sc = sc' := by
    rintro b ⟨d, hd, hid, rfl⟩ ⟨e, he, hie, rfl⟩
    rw [hp.analysed.eq_of_id hd he (hid.trans hie.symm)]
  cases s with
  | binding b => exact hone h h'
  | driver b => exact hone h.1 h'.1

/-- The drivers of a region are those of loops with wrappers. -/
def FreshDrivers (p : LoweringPlan) (fn : FunctionDef Mark) (r : Region) : Prop :=
  ∀ b, (r.drivers.lookup b).isSome →
    ∃ m h c, .stmt (.loop m h c) ∈ fn.nodes ∧ b ∈ (p.loopPlan m.id).fresh

theorem FreshDrivers.slotOf {r : Region} (h : p.FreshDrivers fn r) {d : Binding}
    (hd : d ∈ p.analysis.scoping.bindings) : p.SlotOf fn d.scope (r.slot d.id) := by
  rw [Region.slot]
  split
  · exact ⟨⟨d, hd, rfl, rfl⟩, h d.id ‹_›⟩
  · exact ⟨d, hd, rfl, rfl⟩

/-! ## Functions with their variables -/

/-- The variables of a function, whose number is that of its scope. -/
abbrev Allotment := List (ScopeId × Roles)

/-- What the variables of a function are: the names that its scope declares, each with one role. -/
structure Stores (p : LoweringPlan) (a : Scoping) (e : ScopeId × Roles) : Prop where
  names : ∀ x, x ∈ e.2.names ↔ ∃ b, a.lookup? e.1 x = some b ∧ b.scope = e.1
  coherent : ∀ {x σ τ}, (x, σ) ∈ e.2 → (x, τ) ∈ e.2 → σ = τ
  injective : ∀ {x y s}, (x, .holds s) ∈ e.2 → (y, .holds s) ∈ e.2 → x = y
  made : ∀ {x σ}, (x, σ) ∈ e.2 → (∀ b, σ ≠ .holds (.binding b)) →
    x ∉ p.naming.supply.taken ∧ Roles.Synthesized (x, σ)

/-- Variables that hold different things. -/
def Roles.Apart (ρ τ : Roles) : Prop :=
  ∀ {x y s}, (x, Role.holds s) ∈ ρ → (y, Role.holds s) ∉ τ

/-- The functions in a piece of lowered code, with their variables. The piece itself declares the
    variables `ρ` in the function around it; they are for bindings of the scopes `O` around the
    piece and of scopes between `n` and `m`. -/
structure Allots (p : LoweringPlan) (fn : FunctionDef Mark) (a : Scoping) (O : Nat → Prop)
    (n m : Nat) (ρ : Roles) (fs : List Mark) (T : Allotment) : Prop where
  keys : (T.map (·.1)).Perm (fs.map (·.id))
  stores : ∀ e ∈ T, p.Stores a e
  inner : ∀ e ∈ T, ∀ {x s}, (x, .holds s) ∈ e.2 → ∃ sc, p.SlotOf fn sc s ∧ n ≤ sc ∧ sc < m
  outer : ∀ {x s}, (x, .holds s) ∈ ρ → ∃ sc, p.SlotOf fn sc s ∧ (O sc ∨ n ≤ sc ∧ sc < m)
  apart : T.Pairwise fun e f => Roles.Apart e.2 f.2
  outerApart : ∀ e ∈ T, Roles.Apart ρ e.2

namespace Allots

variable {a : Scoping} {O U : Nat → Prop} {n m k i j : Nat} {ρ ρ' ρ₁ ρ₂ : Roles}
  {fs fs' fs₁ fs₂ : List Mark} {T T₁ T₂ : Allotment}

/-- Code without functions. -/
theorem own (hρ : ∀ x s, (x, Role.holds s) ∈ ρ → ∃ sc, p.SlotOf fn sc s ∧ O sc) :
    p.Allots fn a O n m ρ [] [] where
  keys := .nil
  stores := nofun
  inner := nofun
  outer hx := by
    obtain ⟨sc, hs, ho⟩ := hρ _ _ hx
    exact ⟨sc, hs, .inl ho⟩
  apart := .nil
  outerApart := nofun

theorem mono (h : p.Allots fn a O n m ρ fs T) (hn : i ≤ n) (hm : m ≤ j)
    (hO : ∀ sc, O sc → U sc ∨ i ≤ sc ∧ sc < j)
    (hρ : ∀ x s, (x, Role.holds s) ∈ ρ' → (x, Role.holds s) ∈ ρ) (hfs : fs.Perm fs') :
    p.Allots fn a U i j ρ' fs' T where
  keys := h.keys.trans (hfs.map _)
  stores := h.stores
  inner e he _ _ hx := by
    obtain ⟨sc, hs, hl, hu⟩ := h.inner e he hx
    exact ⟨sc, hs, Nat.le_trans hn hl, Nat.lt_of_lt_of_le hu hm⟩
  outer hx := by
    obtain ⟨sc, hs, ho | ⟨hl, hu⟩⟩ := h.outer (hρ _ _ hx)
    · exact ⟨sc, hs, hO sc ho⟩
    · exact ⟨sc, hs, .inr ⟨Nat.le_trans hn hl, Nat.lt_of_lt_of_le hu hm⟩⟩
  apart := h.apart
  outerApart e he _ _ _ hx := h.outerApart e he (hρ _ _ hx)

/-- Two pieces whose variables hold different things. -/
theorem join (h₁ : p.Allots fn a O n m ρ₁ fs₁ T₁) (h₂ : p.Allots fn a O n m ρ₂ fs₂ T₂)
    (h : ∀ e ∈ T₁, ∀ f ∈ T₂, Roles.Apart e.2 f.2) (h₁₂ : ∀ f ∈ T₂, Roles.Apart ρ₁ f.2)
    (h₂₁ : ∀ e ∈ T₁, Roles.Apart ρ₂ e.2) :
    p.Allots fn a O n m (ρ₁ ++ ρ₂) (fs₁ ++ fs₂) (T₁ ++ T₂) where
  keys := by
    rw [List.map_append, List.map_append]
    exact h₁.keys.append h₂.keys
  stores e he := (List.mem_append.1 he).elim (h₁.stores e) (h₂.stores e)
  inner e he _ _ hx := (List.mem_append.1 he).elim (h₁.inner e · hx) (h₂.inner e · hx)
  outer hx := (List.mem_append.1 hx).elim h₁.outer h₂.outer
  apart := List.pairwise_append.2 ⟨h₁.apart, h₂.apart, h⟩
  outerApart e he _ _ _ hx := by
    rcases List.mem_append.1 he with he | he <;> rcases List.mem_append.1 hx with hx | hx
    · exact h₁.outerApart e he hx
    · exact h₂₁ e he hx
    · exact h₁₂ e he hx
    · exact h₂.outerApart e he hx

/-- Two pieces one after the other. -/
theorem append (hp : p.Sound fn globals) (h₁ : p.Allots fn a O n k ρ₁ fs₁ T₁)
    (h₂ : p.Allots fn a O k m ρ₂ fs₂ T₂) (hO : ∀ sc, O sc → sc < n) (hnk : n ≤ k) (hkm : k ≤ m) :
    p.Allots fn a O n m (ρ₁ ++ ρ₂) (fs₁ ++ fs₂) (T₁ ++ T₂) := by
  refine (h₁.mono (Nat.le_refl n) hkm (fun _ => .inl) (fun _ _ h => h) (.refl _)).join
    (h₂.mono hnk (Nat.le_refl m) (fun _ => .inl) (fun _ _ h => h) (.refl _))
    (fun e he f hf _ _ s hx hy => ?_) (fun f hf _ _ s hx hy => ?_) (fun e he _ _ s hx hy => ?_)
  · obtain ⟨sc, hs, -, hu⟩ := h₁.inner e he hx
    obtain ⟨sc', hs', hl, -⟩ := h₂.inner f hf hy
    have := hs.unique hp hs'
    omega
  · obtain ⟨sc, hs, h⟩ := h₁.outer hx
    obtain ⟨sc', hs', hl, hu⟩ := h₂.inner f hf hy
    have := hs.unique hp hs'
    have := h.imp_left (hO sc)
    omega
  · obtain ⟨sc, hs, h⟩ := h₂.outer hx
    obtain ⟨sc', hs', hl, hu⟩ := h₁.inner e he hy
    have := hs.unique hp hs'
    have := h.imp_left (hO sc)
    omega

/-- A function or wrapper around a piece. Besides the variables of the piece it has such for
    bindings of scopes in front of it. -/
theorem close (hp : p.Sound fn globals) (h : p.Allots fn a O n m ρ fs T) {mark : Mark} {τ : Roles}
    (hτ : p.Stores a (mark.id, τ)) (hn : i ≤ n) (hm : n ≤ m) (hO : ∀ sc, O sc → i ≤ sc ∧ sc < n)
    (hsub : ∀ x s, (x, Role.holds s) ∈ τ →
      (x, Role.holds s) ∈ ρ ∨ ∃ sc, p.SlotOf fn sc s ∧ i ≤ sc ∧ sc < n) :
    p.Allots fn a U i m [] (mark :: fs) ((mark.id, τ) :: T) where
  keys := h.keys.cons _
  stores := List.forall_mem_cons.2 ⟨hτ, h.stores⟩
  inner := List.forall_mem_cons.2 ⟨fun {x s} hx => by
    rcases hsub x s hx with hx | ⟨sc, hs, hl, hu⟩
    · obtain ⟨sc, hs, h | h⟩ := h.outer hx
      · have := hO sc h
        exact ⟨sc, hs, by omega⟩
      · exact ⟨sc, hs, by omega⟩
    · exact ⟨sc, hs, hl, Nat.lt_of_lt_of_le hu hm⟩, fun e he {x s} hx => by
    obtain ⟨sc, hs, hl, hu⟩ := h.inner e he hx
    exact ⟨sc, hs, Nat.le_trans hn hl, hu⟩⟩
  outer := nofun
  apart := List.pairwise_cons.2 ⟨fun e he _ _ s hx hy => by
    rcases hsub _ s hx with hx | ⟨sc, hs, -, hu⟩
    · exact h.outerApart e he hx hy
    · obtain ⟨sc', hs', hl, -⟩ := h.inner e he hy
      have := hs.unique hp hs'
      omega, h.apart⟩
  outerApart _ _ := nofun

/-- A loop with a wrapper: the header, and the wrapper around the body. Besides the variables of the
    body the wrapper has those for bindings of the header that have none in the header. -/
theorem loop (hp : p.Sound fn globals) (hh : p.Allots fn a O (n + 1) k ρ₁ fs₁ T₁)
    (hb : p.Allots fn a U (k + 1) m ρ₂ fs₂ T₂) {mark : Mark} {τ : Roles}
    (hτ : p.Stores a (mark.id, τ)) (hnk : n < k) (hkm : k < m) (hO : ∀ sc, O sc → sc ≤ n)
    (hO' : ∀ sc, U sc → sc = k) (hsub : ∀ x s, (x, Role.holds s) ∈ τ →
      (x, Role.holds s) ∈ ρ₂ ∨ p.SlotOf fn n s ∧ ∀ y, (y, Role.holds s) ∉ ρ₁) :
    p.Allots fn a (fun sc => O sc ∧ sc ≠ n) n m ρ₁ (fs₁ ++ mark :: fs₂)
      (T₁ ++ (mark.id, τ) :: T₂) := by
  have hin : ∀ {x s}, (x, Role.holds s) ∈ τ → ∃ sc, p.SlotOf fn sc s ∧
      (k ≤ sc ∧ sc < m ∨ sc = n ∧ ∀ y, (y, Role.holds s) ∉ ρ₁) := by
    intro x s hx
    rcases hsub x s hx with hx | ⟨hs, hno⟩
    · obtain ⟨sc, hs, h⟩ := hb.outer hx
      have := h.imp_left (hO' sc)
      exact ⟨sc, hs, .inl (by omega)⟩
    · exact ⟨n, hs, .inr ⟨rfl, hno⟩⟩
  have hcode := hb.close (U := fun sc => O sc ∧ sc ≠ n) (i := n) hp hτ (by omega) (by omega)
    (fun sc h => by have := hO' sc h; omega) fun x s hx => (hsub x s hx).imp_right fun h =>
      ⟨n, h.1, Nat.le_refl n, by omega⟩
  have hjoin := (hh.mono (U := fun sc => O sc ∧ sc ≠ n) (i := n) (j := m) (by omega) (by omega)
    (fun sc h => ?_) (fun _ _ h => h) (.refl _)).join hcode (fun e he f hf _ _ s hx hy => ?_)
    (fun f hf _ _ s hx hy => ?_) (by simp [Roles.Apart])
  · rwa [List.append_nil] at hjoin
  · have := hO sc h
    by_cases hsc : sc = n
    · exact .inr (by omega)
    · exact .inl ⟨h, hsc⟩
  · obtain ⟨sc, hs, hl, hu⟩ := hh.inner e he hx
    rcases List.mem_cons.1 hf with rfl | hf
    · obtain ⟨sc', hs', h⟩ := hin hy
      have := hs.unique hp hs'
      omega
    · obtain ⟨sc', hs', hl', -⟩ := hb.inner f hf hy
      have := hs.unique hp hs'
      omega
  · obtain ⟨sc, hs, h⟩ := hh.outer hx
    have := h.imp_left (hO sc)
    rcases List.mem_cons.1 hf with rfl | hf
    · obtain ⟨sc', hs', h' | ⟨-, hno⟩⟩ := hin hy
      · have := hs.unique hp hs'
        omega
      · exact hno _ hx
    · obtain ⟨sc', hs', hl', -⟩ := hb.inner f hf hy
      have := hs.unique hp hs'
      omega

end Allots

/-- What is true of every reading in which the variables of the functions in a piece of lowered code
    have their roles. -/
def Yields (p : LoweringPlan) (fn : FunctionDef Mark) (a : Scoping) (O : Nat → Prop) (n m : Nat)
    (ρ : Roles) (fs : List Mark) (P : Reading → Prop) : Prop :=
  ∃ T, p.Allots fn a O n m ρ fs T ∧
    ∀ role, (∀ e ∈ T, ∀ x ∈ e.2, Reading.Binds ⟨a, role⟩ e.1 x.1 x.2) → P ⟨a, role⟩

namespace Yields

variable {a : Scoping} {O U : Nat → Prop} {n m k i j : Nat} {ρ ρ' ρ₁ ρ₂ : Roles}
  {fs fs' fs₁ fs₂ : List Mark} {P P' Q : Reading → Prop}

/-- Code without functions. -/
theorem own (hfs : fs = []) (hρ : ∀ x s, (x, Role.holds s) ∈ ρ → ∃ sc, p.SlotOf fn sc s ∧ O sc)
    (hP : ∀ R : Reading, R.scoping = a → P R) : p.Yields fn a O n m ρ fs P := by
  subst hfs
  exact ⟨[], .own hρ, fun role _ => hP _ rfl⟩

/-- Code without functions, and without variables for bindings. -/
theorem plain (hfs : fs = []) (hρ : ∀ x s, (x, Role.holds s) ∉ ρ)
    (hP : ∀ R : Reading, R.scoping = a → P R) : p.Yields fn a O n m ρ fs P :=
  own hfs (fun x s hx => absurd hx (hρ x s)) hP

theorem mono (h : p.Yields fn a O n m ρ fs P) (hn : i ≤ n) (hm : m ≤ j)
    (hO : ∀ sc, O sc → U sc ∨ i ≤ sc ∧ sc < j)
    (hρ : ∀ x s, (x, Role.holds s) ∈ ρ' → (x, Role.holds s) ∈ ρ) (hfs : fs.Perm fs')
    (hP : ∀ R : Reading, R.scoping = a → P R → P' R) : p.Yields fn a U i j ρ' fs' P' := by
  obtain ⟨T, hT, h⟩ := h
  exact ⟨T, hT.mono hn hm hO hρ hfs, fun role hrole => hP _ rfl (h role hrole)⟩

/-- A node above a piece. -/
theorem under (h : p.Yields fn a O (n + 1) m ρ fs P) (hfs : fs = fs')
    (hP : ∀ R : Reading, R.scoping = a → P R → P' R) : p.Yields fn a O n m ρ fs' P' :=
  h.mono (Nat.le_succ n) (Nat.le_refl m) (fun _ => .inl) (fun _ _ h => h) (.of_eq hfs) hP

/-- Two pieces one after the other. -/
theorem append (hp : p.Sound fn globals) (h₁ : p.Yields fn a O n k ρ₁ fs₁ P)
    (h₂ : p.Yields fn a O k m ρ₂ fs₂ Q) (hO : ∀ sc, O sc → sc < n) (hnk : n ≤ k) (hkm : k ≤ m) :
    p.Yields fn a O n m (ρ₁ ++ ρ₂) (fs₁ ++ fs₂) fun R => P R ∧ Q R := by
  obtain ⟨T₁, hT₁, h₁⟩ := h₁
  obtain ⟨T₂, hT₂, h₂⟩ := h₂
  exact ⟨T₁ ++ T₂, hT₁.append hp hT₂ hO hnk hkm, fun role hrole =>
    ⟨h₁ role fun e he => hrole e (List.mem_append_left _ he),
      h₂ role fun e he => hrole e (List.mem_append_right _ he)⟩⟩

/-- A function or wrapper around a piece. -/
theorem close (hp : p.Sound fn globals) (h : p.Yields fn a O n m ρ fs P) {mark : Mark} {τ : Roles}
    (hτ : p.Stores a (mark.id, τ)) (hn : i ≤ n) (hm : n ≤ m) (hO : ∀ sc, O sc → i ≤ sc ∧ sc < n)
    (hsub : ∀ x s, (x, Role.holds s) ∈ τ →
      (x, Role.holds s) ∈ ρ ∨ ∃ sc, p.SlotOf fn sc s ∧ i ≤ sc ∧ sc < n) :
    p.Yields fn a U i m [] (mark :: fs) fun R =>
      (∀ x ∈ τ, R.Binds mark.id x.1 x.2) ∧ P R := by
  obtain ⟨T, hT, h⟩ := h
  exact ⟨(mark.id, τ) :: T, hT.close hp hτ hn hm hO hsub, fun role hrole =>
    ⟨hrole _ List.mem_cons_self, h role fun e he => hrole e (List.mem_cons_of_mem _ he)⟩⟩

/-- A loop with a wrapper: the header, and the wrapper around the body. -/
theorem loop (hp : p.Sound fn globals) (hh : p.Yields fn a O (n + 1) k ρ₁ fs₁ P)
    (hb : p.Yields fn a U (k + 1) m ρ₂ fs₂ Q) {mark : Mark} {τ : Roles}
    (hτ : p.Stores a (mark.id, τ)) (hnk : n < k) (hkm : k < m) (hO : ∀ sc, O sc → sc ≤ n)
    (hO' : ∀ sc, U sc → sc = k) (hsub : ∀ x s, (x, Role.holds s) ∈ τ →
      (x, Role.holds s) ∈ ρ₂ ∨ p.SlotOf fn n s ∧ ∀ y, (y, Role.holds s) ∉ ρ₁) :
    p.Yields fn a (fun sc => O sc ∧ sc ≠ n) n m ρ₁ (fs₁ ++ mark :: fs₂) fun R =>
      P R ∧ (∀ x ∈ τ, R.Binds mark.id x.1 x.2) ∧ Q R := by
  obtain ⟨T₁, hT₁, hh⟩ := hh
  obtain ⟨T₂, hT₂, hb⟩ := hb
  exact ⟨T₁ ++ (mark.id, τ) :: T₂, hT₁.loop hp hT₂ hτ hnk hkm hO hO' hsub, fun role hrole =>
    ⟨hh role fun e he => hrole e (List.mem_append_left _ he),
      hrole _ (List.mem_append_right _ List.mem_cons_self),
      hb role fun e he => hrole e (List.mem_append_right _ (List.mem_cons_of_mem _ he))⟩⟩

end Yields

end LoweringPlan

end FlatScope
