import FlatScope.Proofs.Likeness
import FlatScope.Proofs.Lowering.Scoped
import FlatScope.Proofs.Regional.Eval
import FlatScope.Proofs.Simulation

/-!
# Lowered programs and machines for regions

When the lowered code of a program runs, an activation of the machine for regions is a frame of the
store, with the same number, and a variable of the frame is the slot that its role says. A `World`
says which roles the variables of a frame have, which frame is around it, and which closures of the
store are closures of the machine; the others are those of wrappers. `World.Matches` is what holds
of the states of the two programs.

A variable is found by looking from frame to frame (`World.Sees`). So a name in lowered code means
the location that the machine finds in its environment if the variable is found in the frame of that
location, and holds the slot (`World.At`). That all names in scope do is `World.Stands`.
-/

namespace FlatScope

/-- A variable has one role, and a slot is that of one variable. -/
structure Roles.Distinct (rs : Roles) : Prop where
  coherent : ∀ {x σ τ}, (x, σ) ∈ rs → (x, τ) ∈ rs → σ = τ
  injective : ∀ {x y s}, (x, .holds s) ∈ rs → (y, .holds s) ∈ rs → x = y

theorem LoweringPlan.Hosts.distinct {p : LoweringPlan} {r : Region} {sc : ScopeId}
    {own : List BindingId} {roles : Roles} (h : p.Hosts r sc own roles) : roles.Distinct :=
  ⟨h.coherent, h.injective⟩

/-- The drivers in a region are for bindings of scopes before the node `n`. -/
def LoweringPlan.DriversBefore (p : LoweringPlan) (r : Region) (n : NodeId) : Prop :=
  ∀ {b x}, r.drivers.lookup b = some x →
    ∃ d ∈ p.analysis.scoping.bindings, d.id = b ∧ d.scope < n

/-- A node of the function in a scope and a region: it comes after the scope, and after the scopes
    of the bindings that have drivers. -/
structure LoweringPlan.Within (p : LoweringPlan) (fn : FunctionDef Mark) (r : Region) (sc : ScopeId)
    (x : Node Mark) : Prop where
  node : x ∈ fn.nodes
  scope : sc < x.mark.id
  drivers : p.DriversBefore r x.mark.id

/-- The outermost frames of two stores, whose variables hold the same but for the numbers of
    closures. -/
structure Frame.Like (κ : Nat → Option Nat) (f g : Frame) : Prop where
  left : f.parent = none
  right : g.parent = none
  cells : List.Forall₂ (fun c d => c.1 = d.1 ∧ ∃ v w : Value, v.Like κ w ∧
    c.2 = ⟨some v, false⟩ ∧ d.2 = ⟨some w, false⟩) f.cells g.cells

namespace Regional

/-- What is known about the states of a lowered program and of the machine for regions. -/
structure World where
  /-- The number of the next frame. -/
  frames : Nat
  /-- The variables of a frame, and what they are for. -/
  host : FrameId → Roles
  /-- The frame around a frame. -/
  parent : FrameId → FrameId
  /-- The closure of the machine that a closure of the lowered program is. -/
  closure : Nat → Option Nat
  /-- The wrappers among the closures of the lowered program. -/
  wrapper : Nat → Option FlatScope.Closure
  /-- Whether the variable for the wrapper of a loop holds the wrapper. -/
  ready : FrameId → Name → Prop

namespace World

/-- A later world. -/
structure Le (w w' : World) : Prop where
  frames : w.frames ≤ w'.frames
  host : ∀ f < w.frames, w'.host f = w.host f
  parent : ∀ f < w.frames, w'.parent f = w.parent f
  closure : ∀ {c d}, w.closure c = some d → w'.closure c = some d
  wrapper : ∀ {c C}, w.wrapper c = some C → w'.wrapper c = some C
  ready : ∀ {f x}, f < w.frames → w.ready f x → w'.ready f x

theorem Le.refl (w : World) : Le w w :=
  ⟨Nat.le_refl _, fun _ _ => rfl, fun _ _ => rfl, id, id, fun _ => id⟩

theorem Le.trans {u v w : World} (h : Le u v) (h' : Le v w) : Le u w where
  frames := Nat.le_trans h.frames h'.frames
  host f hf := (h'.host f (Nat.lt_of_lt_of_le hf h.frames)).trans (h.host f hf)
  parent f hf := (h'.parent f (Nat.lt_of_lt_of_le hf h.frames)).trans (h.parent f hf)
  closure hc := h'.closure (h.closure hc)
  wrapper hc := h'.wrapper (h.wrapper hc)
  ready hf hx := h'.ready (Nat.lt_of_lt_of_le hf h.frames) (h.ready hf hx)

/-! ## Names -/

/-- From the frame `f` on, the variable called `x` is found in the frame `g`; a name that no
    function declares is looked for in the outermost frame. -/
inductive Sees (w : World) (x : Name) : FrameId → FrameId → Prop
  | here {f : FrameId} (hf : 0 < f) (hlt : f < w.frames) (hx : x ∈ (w.host f).names) : Sees w x f f
  | up {f g : FrameId} (hf : 0 < f) (hlt : f < w.frames) (hx : x ∉ (w.host f).names)
      (h : Sees w x (w.parent f) g) : Sees w x f g
  | top : Sees w x 0 0

/-- The variable called `x` from the frame `f` on is the one at the location. -/
structure At (w : World) (f : FrameId) (x : Name) (l : Location) : Prop where
  sees : w.Sees x f l.activation
  positive : 0 < l.activation
  known : l.activation < w.frames
  role : (x, .holds l.slot) ∈ w.host l.activation

variable {w w' : World} {f g : FrameId} {x : Name} {l : Location}

theorem Sees.mono (h : w.Sees x f g) (hle : w.Le w') : w'.Sees x f g := by
  induction h with
  | here hf hlt hx => exact .here hf (Nat.lt_of_lt_of_le hlt hle.frames) (by rwa [hle.host _ hlt])
  | @up f g hf hlt hx h ih =>
    refine .up hf (Nat.lt_of_lt_of_le hlt hle.frames) (by rwa [hle.host _ hlt]) ?_
    rwa [hle.parent _ hlt]
  | top => exact .top

theorem At.mono (h : w.At f x l) (hle : w.Le w') : w'.At f x l :=
  ⟨h.sees.mono hle, h.positive, Nat.lt_of_lt_of_le h.known hle.frames,
    by rw [hle.host _ h.known]; exact h.role⟩

/-- A variable of the frame itself. -/
theorem At.here (hf : 0 < f) (hlt : f < w.frames) {s : Slot} (h : (x, .holds s) ∈ w.host f) :
    w.At f x ⟨f, s⟩ := ⟨.here hf hlt (Roles.mem_names h), hf, hlt, h⟩

/-- A variable that the frame does not have is looked for in the frame around it. -/
theorem At.up (hf : 0 < f) (hlt : f < w.frames) (hx : x ∉ (w.host f).names)
    (h : w.At (w.parent f) x l) : w.At f x l := ⟨.up hf hlt hx h.sees, h.positive, h.known, h.role⟩

/-- The names in a scope are variables at the locations that the environment says, from the frame
    `f` on. -/
structure Stands (w : World) (p : LoweringPlan) (r : Region) (sc : ScopeId) (f : FrameId)
    (env : Env) : Prop where
  known : ∀ {n b}, p.analysis.scoping.lookup? sc n = some b → w.At f (p.nameOf r b.id) (env b.id)
  global : ∀ {n}, p.analysis.scoping.lookup? sc n = none →
    n ∈ p.analysis.scoping.globalsUsed → w.Sees n f 0

theorem Stands.mono {p : LoweringPlan} {r : Region} {sc : ScopeId} {env : Env}
    (h : w.Stands p r sc f env) (hle : w.Le w') : w'.Stands p r sc f env :=
  ⟨fun hb => (h.known hb).mono hle, fun hn hg => (h.global hn hg).mono hle⟩

/-- The code of a region runs in the frame `f`. -/
structure Stays (w : World) (r : Region) (f : FrameId) (pl : Place) : Prop where
  activation : pl.activation = f
  positive : 0 < f
  known : f < w.frames
  inLoop : pl.inLoop = r.inLoop
  plain : r.inWrapper = false → r.writeBacks = []
  writeBacks : List.Forall₂ (fun v l => w.At f v.1 l.1 ∧ w.At f v.2 l.2) r.writeBacks pl.writeBacks

theorem Stays.mono {r : Region} {pl : Place} (h : w.Stays r f pl) (hle : w.Le w') :
    w'.Stays r f pl where
  activation := h.activation
  positive := h.positive
  known := Nat.lt_of_lt_of_le h.known hle.frames
  inLoop := h.inLoop
  plain := h.plain
  writeBacks := h.writeBacks.imp fun _ _ hv => ⟨hv.1.mono hle, hv.2.mono hle⟩

/-! ## States -/

/-- A closure of the lowered program is one of the machine. -/
inductive Represents (w : World) : FlatScope.Closure → Closure → Prop
  | mk {p : LoweringPlan} {fn : FunctionDef Mark} {globals : List Name} {r : Region} {id : NodeId}
      {k : Mark} {ps : List Name} {ss : List (Stmt Mark)} {parent : Option ScopeId}
      {out : List (Stmt Span)} {hoisted : List BindingId} {roles : Roles} {f : FrameId} {env : Env}
      (span : Span) (name : Option Name) (sound : p.Sound fn globals) (source : Stmt.AreSource ss)
      (resolved : p.analysis.scoping.ResolvedStmts globals id id false ss)
      (within : ∀ x ∈ Stmt.nodesOfList ss, p.Within fn r.function id x)
      (opens : p.analysis.scoping.OpensFunction id ps (.mk k ss) parent)
      (lowers : p.LowersStmts r.function id ss out roles)
      (hosts : p.Hosts r.function id (p.analysis.scoping.bindingIdsOf id)
        (p.paramRoles id ps ++ hoisted.map p.ownRole ++ roles))
      (known : ∀ {n b}, p.analysis.scoping.lookup? id n = some b → b.scope ≠ id →
        w.At f (p.nameOf r b.id) (env b.id))
      (global : ∀ {n}, p.analysis.scoping.lookup? id n = none →
        n ∈ p.analysis.scoping.globalsUsed → w.Sees n f 0)
      (frame : f < w.frames) :
      Represents w ⟨ps, .mk span (p.hoistedDeclarations hoisted ++ out), f, name⟩
        ⟨p.analysis.scoping, id, ps, ss, env⟩

theorem Represents.mono {C : FlatScope.Closure} {D : Closure} (h : w.Represents C D)
    (hle : w.Le w') : w'.Represents C D := by
  cases h with
  | mk span name sound source resolved within opens lowers hosts known global frame =>
    exact .mk span name sound source resolved within opens lowers hosts
      (fun hb hs => (known hb hs).mono hle) (fun hn hg => (global hn hg).mono hle)
      (Nat.lt_of_lt_of_le frame hle.frames)

/-- What a variable holds by its role. -/
def Fills (w : World) (m : Machine) (f : FrameId) (x : Name) (v : Value) : Role → Prop
  | .holds s => v.Like w.closure (m.cells ⟨f, s⟩)
  | .signal => True
  | .wrapper ps code => w.ready f x → ∃ c, v = .closure c ∧ w.wrapper c = some ⟨ps, code, f, none⟩

/-- A frame of the store as the world describes it. -/
structure Frames (w : World) (m : Machine) (f : FrameId) (fr : Frame) : Prop where
  parent : fr.parent = some (w.parent f)
  before : w.parent f < f
  names : ∀ x, fr.has x → x ∈ (w.host f).names
  cells : ∀ {x ρ}, (x, ρ) ∈ w.host f → ∃ v, fr.find? x = some ⟨some v, false⟩ ∧ w.Fills m f x v ρ
  distinct : (w.host f).Distinct

/-- What holds of the store of a lowered program and of the machine. -/
structure Matches (w : World) (s : Store) (m : Machine) : Prop where
  size : s.frames.size = w.frames
  activations : m.activations = w.frames
  store : s.Like w.closure m.store
  outermost : ∃ g h, s.frames[0]? = some g ∧ m.store.frames[0]? = some h ∧ g.Like w.closure h
  frames : ∀ {f fr}, 0 < f → s.frames[f]? = some fr → w.Frames m f fr
  injective : ∀ {c d e}, w.closure c = some e → w.closure d = some e → c = d
  closures : ∀ {c d}, w.closure c = some d → ∃ C D, s.closures[c]? = some C ∧
    m.closures[d]? = some D ∧ w.Represents C D
  wrappers : ∀ {c C}, w.wrapper c = some C → s.closures[c]? = some C

theorem Fills.mono {m : Machine} {v : Value} {ρ : Role} (h : w.Fills m f x v ρ) (hle : w.Le w')
    (hr : w'.ready f x → w.ready f x) : w'.Fills m f x v ρ := by
  cases ρ with
  | holds s => exact Value.Like.mono h hle.closure
  | signal => trivial
  | wrapper ps code =>
    intro hx
    obtain ⟨c, hv, hc⟩ := h (hr hx)
    exact ⟨c, hv, hle.wrapper hc⟩

end World

/-- The lowered program runs like the machine for regions. -/
def lowering : Correspondence Store Machine where
  World := World
  le := World.Le
  refl := World.Le.refl
  trans := World.Le.trans
  Matches := World.Matches
  exempt _ := False
  both := True
  strict _ _ := id

end Regional

end FlatScope
