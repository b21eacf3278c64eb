import FlatScope.Proofs.Regional.Variables
import FlatScope.Proofs.Residence.Settled
import FlatScope.Proofs.Safety.Frames

/-!
# Where the variables of a program reside

A program and the machine for regions run side by side. The program makes a frame for every entry of
a function, block or iteration, the machine one location for every binding of an activation, so a
variable of the program *resides* at a location of the machine for some time. A variable that a
closure may come back to has a `home`, for good; any other one is a lodger, until its block is left
or the next iteration begins, when the location is let to the variable of another frame.

A `Joint` is a pair of states with the residences of the variables. What holds of the two states is
`Joint.Matches`, how they may go on is `Joint.Grows`. That the names of a scope mean variables which
reside where an environment of the machine says is `Joint.Resides`.
-/

namespace FlatScope

/-! ## Names from outside of a function -/

namespace Store

variable {s t : Store} {x : Name} {f : FrameId}

/-- From the frame on, no frame has the name but the outermost one. -/
inductive Misses (s : Store) (x : Name) : FrameId → Prop
  | top : Misses s x 0
  | up {f p : FrameId} {fr : Frame} (hf : s.frames[f]? = some fr) (hx : fr.has x = false)
    (hp : fr.parent = some p) (h : Misses s x p) : Misses s x f

/-- No frame gets the name later. -/
theorem Misses.later (h : s.Misses x f) (hl : s.Extends t) : t.Misses x f := by
  induction h with
  | top => exact .top
  | up hf hx hp _ ih =>
    obtain ⟨fr', hf', hp', hx'⟩ := hl.frames hf
    exact .up hf' ((hx' x).trans hx) (hp'.trans hp) ih

/-- A name that no other frame has is looked up in the outermost one. -/
theorem Misses.find? (h : s.Misses x f) (hs : s.Nested) {g : Frame} (hg : s.frames[0]? = some g)
    (hnone : g.parent = none) : s.find? x f = s.find? x 0 := by
  -- it does not matter how many frames may be passed, as long as they suffice
  have hfrom : ∀ n, f < n → findFrom s.frames x n f = findFrom s.frames x 1 0 := by
    induction h with
    | top =>
      intro n hn
      obtain ⟨n, rfl⟩ := Nat.exists_eq_succ_of_ne_zero (Nat.ne_zero_of_lt hn)
      simp only [findFrom, hg, hnone]
      cases g.find? x <;> rfl
    | @up f p fr hf hx hp _ ih =>
      intro n hn
      obtain ⟨n, rfl⟩ := Nat.exists_eq_succ_of_ne_zero (Nat.ne_zero_of_lt hn)
      have hno : fr.find? x = none := by simpa [Frame.has] using hx
      rw [findFrom, hf]
      simp only [hno, hp]
      exact ih n (Nat.lt_of_lt_of_le (hs.parents hf hp) (Nat.le_of_lt_succ hn))
  exact hfrom _ (Nat.lt_succ_self f)

end Store

namespace Regional

/-- A state of the program and one of the machine, and where the variables of the program reside. -/
structure Joint where
  store : Store
  machine : Machine
  /-- The variables of the frames that may be used for as long as the program runs. -/
  home : FrameId → Name → Location → Prop
  /-- The other ones. -/
  lodging : FrameId → Name → Location → Prop

namespace Joint

variable {j j' j'' : Joint} {f g : FrameId} {x y : Name} {k l : Location} {v w : Value}

/-- The variable of the frame resides at the location. -/
def At (j : Joint) (f : FrameId) (x : Name) (l : Location) : Prop := j.home f x l ∨ j.lodging f x l

/-- The closures of the program are those of the machine, by their numbers. -/
def closure (j : Joint) (c : Nat) : Option Nat := if c < j.store.closures.size then some c else none

/-- Values that are alike are the same. -/
theorem eq_of_like (h : v.Like j.closure w) : v = w := by
  cases h with
  | closure h =>
    rw [closure] at h
    split at h <;> cases h
    rfl
  | plain => rfl

/-- Closures of the program are different ones of the machine. -/
theorem closure_injective {c d e : Nat} (hc : j.closure c = some e) (hd : j.closure d = some e) :
    c = d := by
  rw [closure] at hc hd
  split at hc <;> cases hc
  split at hd <;> cases hd
  rfl

/-! ## Bindings and closures -/

/-- From the frame on, the name of a binding means a variable. If it is `used`, the variable resides
    at the location, if it is `set` then nowhere else, and if it is `kept` then for good. -/
def Holds (j : Joint) (f : FrameId) (d : Binding) (l : Location) (used set kept : Prop) : Prop :=
  ∃ g c, j.store.Finds d.name f g ∧ j.store.cell? g d.name = some c ∧
    (c.const = true → d.origin.isConst = true) ∧ (used → j.At g d.name l) ∧
    (set → ∀ k, j.At g d.name k → k = l) ∧ (kept → j.home g d.name l)

/-- The names in a scope mean variables that reside where the environment says, from the frame `f`
    on: those that are used among the nodes, and the bindings of the scopes that are `opened`. -/
structure Resides (j : Joint) (a : Scoping) (sc : ScopeId) (f : FrameId) (env : Env)
    (ns : List (Node Mark)) (opened : ScopeId → Prop) : Prop where
  frame : f < j.store.frames.size
  known : ∀ {n d}, a.lookup? sc n = some d → j.Holds f d (env d.id)
    (opened d.scope ∨ a.UsedIn d.id ns) (opened d.scope ∨ a.WrittenIn d.id ns)
    (a.ClosesOver ns d.id)
  global : ∀ {n}, a.lookup? sc n = none → n ∈ a.globalsUsed → j.store.Misses n f

/-- A closure of the program is one of the machine. What the function uses from outside is at home
    where the environment says. -/
inductive Represents (j : Joint) : FlatScope.Closure → Closure → Prop
  | mk {fn : FunctionDef Mark} {globals : List Name} {a : Analysis} {id : NodeId} {m : Mark}
    {ps : List Name} {ss : List (Stmt Mark)} {parent : Option ScopeId} {f : FrameId} {env : Env}
    (span : Span) (name : Option Name) (settled : fn.Settled globals a)
    (source : Stmt.AreSource ss)
    (resolved : a.scoping.ResolvedStmts globals id id false ss)
    (within : ∀ y ∈ Stmt.nodesOfList ss, y ∈ fn.nodes ∧ id < y.mark.id)
    (opens : a.scoping.OpensFunction id ps (.mk m ss) parent)
    (frame : f < j.store.frames.size)
    (known : ∀ {n d}, a.scoping.lookup? id n = some d → d.scope ≠ id →
      j.Holds f d (env d.id) (a.scoping.UsedIn d.id (Stmt.nodesOfList ss))
        (a.scoping.WrittenIn d.id (Stmt.nodesOfList ss))
        (a.scoping.UsedIn d.id (Stmt.nodesOfList ss)))
    (global : ∀ {n}, a.scoping.lookup? id n = none → n ∈ a.scoping.globalsUsed →
      j.store.Misses n f) :
    Represents j ⟨ps, .mk span (Stmt.mapList Mark.span ss), f, name⟩ ⟨a.scoping, id, ps, ss, env⟩

/-! ## Matching states -/

/-- What holds of the state of the program and that of the machine. A variable that holds something
    holds what its location does. -/
structure Matches (j : Joint) : Prop where
  store : j.store.Like j.closure j.machine.store
  outermost : ∃ g h, j.store.frames[0]? = some g ∧ j.machine.store.frames[0]? = some h ∧
    g.Like j.closure h
  nested : j.store.Nested
  placed : ∀ {f x l}, j.At f x l → 0 < f ∧ f < j.store.frames.size ∧
    l.activation < j.machine.activations
  agrees : ∀ {f x l v c}, j.At f x l → j.store.cell? f x = some ⟨some v, c⟩ →
    v.Like j.closure (j.machine.cells l)
  injective : ∀ {f g x y l}, j.At f x l → j.At g y l → f = g ∧ x = y
  closures : j.store.closures.size = j.machine.closures.size
  represents : ∀ {i : Nat} {C D}, j.store.closures[i]? = some C → j.machine.closures[i]? = some D →
    j.Represents C D

/-- Another pair of states, in which the variables of the old frames reside where they did. -/
structure Extends (j j' : Joint) : Prop where
  later : j.store.Later j'.store
  home : ∀ {f x l}, f < j.store.frames.size → (j'.home f x l ↔ j.home f x l)
  lodging : ∀ {f x l}, f < j.store.frames.size → (j'.lodging f x l ↔ j.lodging f x l)

/-- A later pair of states, in which the variables of new frames reside in new activations. -/
structure Grows (j j' : Joint) : Prop extends j.Extends j' where
  activations : j.machine.activations ≤ j'.machine.activations
  fresh : ∀ {f x l}, j.store.frames.size ≤ f → j'.At f x l →
    j.machine.activations ≤ l.activation

/-- Another pair of states, in which what is at home is still there and resides nowhere else than
    before. -/
structure Keeps (j j' : Joint) : Prop where
  later : j.store.Later j'.store
  home : ∀ {f x l}, j.home f x l → j'.home f x l
  alone : ∀ {f x l k}, j.home f x l → j'.At f x k → j.At f x k

/-! ### Later states -/

theorem closure_later (h : j.store.Later j'.store) {c d : Nat} (hc : j.closure c = some d) :
    j'.closure c = some d := by
  rw [closure] at hc ⊢
  split at hc
  · rename_i hlt
    obtain ⟨C, hC⟩ : ∃ C, j.store.closures[c]? = some C := ⟨_, Array.getElem?_eq_getElem hlt⟩
    rw [if_pos (Array.getElem?_eq_some_iff.1 (h.closures hC)).1]
    exact hc
  · cases hc

/-- The variables of the old frames reside where they did. -/
theorem Extends.at_iff (h : j.Extends j') (hf : f < j.store.frames.size) :
    j'.At f x l ↔ j.At f x l :=
  or_congr (h.home hf) (h.lodging hf)

/-- What is at home is still there. -/
theorem Extends.keeps (h : j.Extends j') (hj : j.Matches) : j.Keeps j' where
  later := h.later
  home hl := (h.home (hj.placed (.inl hl)).2.1).2 hl
  alone hl hk := (h.at_iff (hj.placed (.inl hl)).2.1).1 hk

namespace Grows

theorem refl (hj : j.Matches) : j.Grows j where
  later := .refl _
  home _ := .rfl
  lodging _ := .rfl
  activations := Nat.le_refl _
  fresh hf hl := absurd (hj.placed hl).2.1 (Nat.not_lt.2 hf)

theorem trans (h : j.Grows j') (h' : j'.Grows j'') : j.Grows j'' where
  later := h.later.trans h'.later
  home hf := (h'.home (h.later.lt hf)).trans (h.home hf)
  lodging hf := (h'.lodging (h.later.lt hf)).trans (h.lodging hf)
  activations := Nat.le_trans h.activations h'.activations
  -- a frame is new to `j` if it came before `j'` or after it
  fresh {f _ _} hf hl := by
    rcases Nat.lt_or_ge f j'.store.frames.size with hlt | hge
    · exact h.fresh hf ((h'.at_iff hlt).1 hl)
    · exact Nat.le_trans h.activations (h'.fresh hge hl)

/-- What resides in an old activation did so before. -/
theorem at_before (h : j.Grows j') (hl : l.activation < j.machine.activations)
    (hat : j'.At f x l) : j.At f x l := by
  rcases Nat.lt_or_ge f j.store.frames.size with hlt | hge
  · exact (h.at_iff hlt).1 hat
  · exact absurd hl (Nat.not_lt.2 (h.fresh hge hat))

end Grows

variable {d : Binding} {used set kept used' set' kept' : Prop}

/-- Less can be asked of the variable. -/
theorem Holds.imp (h : j.Holds f d l used set kept) (hu : used' → used) (hs : set' → set)
    (hk : kept' → kept) : j.Holds f d l used' set' kept' := by
  obtain ⟨g, c, hg, hc, hconst, hused, hset, hkept⟩ := h
  exact ⟨g, c, hg, hc, hconst, hused ∘ hu, hset ∘ hs, hkept ∘ hk⟩

/-- The variable of a binding stays where it is. -/
theorem Holds.extends (h : j.Holds f d l used set kept) (hj : j.Extends j') :
    j'.Holds f d l used set kept := by
  obtain ⟨g, c, hg, hc, hconst, hused, hset, hkept⟩ := h
  obtain ⟨c', hc', hcc⟩ := hj.later.consts hc
  have hlt := hg.lt
  exact ⟨g, c', hj.later.finds hg, hc', fun ht => hconst (hcc ▸ ht),
    fun hu => (hj.at_iff hlt).2 (hused hu), fun hs k hk => hset hs k ((hj.at_iff hlt).1 hk),
    fun hk => (hj.home hlt).2 (hkept hk)⟩

/-- What is kept stays as it is. -/
theorem Holds.keeps (h : j.Holds f d l used set used) (hj : j.Keeps j') (hs : set → used) :
    j'.Holds f d l used set used := by
  obtain ⟨g, c, hg, hc, hconst, -, hset, hkept⟩ := h
  obtain ⟨c', hc', hcc⟩ := hj.later.consts hc
  exact ⟨g, c', hj.later.finds hg, hc', fun ht => hconst (hcc ▸ ht),
    fun hu => .inl (hj.home (hkept hu)),
    fun ht k hk => hset ht k (hj.alone (hkept (hs ht)) hk), fun hk => hj.home (hkept hk)⟩

/-- The names of a scope mean the same variables later. -/
theorem Resides.extends {a : Scoping} {sc : ScopeId} {env : Env} {ns : List (Node Mark)}
    {opened : ScopeId → Prop} (h : j.Resides a sc f env ns opened) (hj : j.Extends j') :
    j'.Resides a sc f env ns opened where
  frame := hj.later.lt h.frame
  known hn := (h.known hn).extends hj
  global hn hg := (h.global hn hg).later hj.later.toExtends

/-- The names that are used among some of the nodes, with fewer scopes opened. -/
theorem Resides.sub {a : Scoping} {sc : ScopeId} {env : Env} {ns ms : List (Node Mark)}
    {opened opened' : ScopeId → Prop} (h : j.Resides a sc f env ns opened)
    (hns : ∀ y ∈ ms, y ∈ ns) (ho : ∀ s, opened' s → opened s) :
    j.Resides a sc f env ms opened' where
  frame := h.frame
  known hn := (h.known hn).imp (Or.imp (ho _) (·.mono hns)) (Or.imp (ho _) (·.mono hns))
    (·.mono hns)
  global := h.global

/-- The names that are used among some of the nodes. -/
theorem Resides.on {a : Scoping} {sc : ScopeId} {env : Env} {ns ms : List (Node Mark)}
    {opened : ScopeId → Prop} (h : j.Resides a sc f env ns opened) (hns : ∀ y ∈ ms, y ∈ ns) :
    j.Resides a sc f env ms opened := h.sub hns fun _ => id

/-- Closures that are the same stay so. -/
theorem Represents.keeps {C : FlatScope.Closure} {D : Closure} (h : j.Represents C D)
    (hj : j.Keeps j') : j'.Represents C D := by
  cases h with
  | mk span name settled source resolved within opens frame known global =>
    exact .mk span name settled source resolved within opens (hj.later.lt frame)
      (fun hn hd => (known hn hd).keeps hj .inl)
      (fun hn hg => (global hn hg).later hj.later.toExtends)

end Joint

end Regional

end FlatScope
