import FlatScope.Proofs.Run.Growth

/-!
# What runs of flat code change

A piece of flat code that runs in a frame changes a variable only if an own node of it sets the name
of the variable, or a closure does that uses the name for the same variable. So what a run changes
is said by the own nodes of the code (`Store.Changes`), whatever the code calls: a variable that no
own node and no closure assigns holds the same value at the end (`Store.Changes.keeps`), and no
closure that was made assigns it.

The nodes that set a variable may also be limited to those that make certain closures of it.
-/

namespace FlatScope

/-- The state in which a piece of a program has ended. -/
def Outcome.state? {σ α : Type} : Outcome σ α → Option σ
  | .done _ s | .interrupted _ s => some s
  | .outOfFuel => none

/-- A piece of a program and what comes after it. -/
theorem Process.bind_apply {σ α β : Type} (x : Process σ α) (f : α → Process σ β) (s : σ) :
    (x >>= f) s = match x s with
      | .done a s => f a s
      | .interrupted w s => .interrupted w s
      | .outOfFuel => .outOfFuel := rfl

namespace Store

/-- No closure that uses the name for the variable of the frame assigns it. -/
def Guards (s : Store) (f : FrameId) (x : Name) : Prop :=
  ∀ {i : Nat} {c : Closure}, s.closures[i]? = some c → s.Finds x c.frame f →
    ¬ c.body.AssignsOutside x c.params

/-- The variable holds what it has held before, or one of the closures `K`. -/
def Keeps (K : Closure → Prop) (s s' : Store) (f : FrameId) (x : Name) : Prop :=
  s'.content? f x = s.content? f x ∨
    ∃ i c, s'.closures[i]? = some c ∧ K c ∧ s'.content? f x = some (.closure i)

end Store

/-- A node that runs in a frame sets the name to closures `K` only, and makes no function that
    assigns it. -/
structure Node.Spares (K : Closure → Prop) (env : FrameId) (x : Name) (y : Node Span) : Prop where
  sets : ∀ {v : Option (Expr Span)}, y.sets? = some (x, v) →
    ∃ a ps c, v = some (.function a ps c) ∧ K ⟨ps, c, env, none⟩
  lends : ¬ y.Lends x

/-- What the nodes that run in a frame, and the closures that they call, may change. -/
structure Store.Changes (ns : List (Node Span)) (env : FrameId) (s s' : Store) : Prop where
  sound : s'.Sound
  later : s.Extends s'
  guards : ∀ {f : FrameId} {x : Name}, f < s.frames.size → s.Guards f x →
    (s.Finds x env f → ∀ y ∈ ns, ¬ y.Lends x) → s'.Guards f x
  keeps : ∀ {f : FrameId} {x : Name} {K : Closure → Prop}, f < s.frames.size → s.Guards f x →
    (s.Finds x env f → ∀ y ∈ ns, y.Spares K env x) → s.Keeps K s' f x

/-- Nothing in a block that does not assign a name changes the variable. -/
theorem Block.spares_of_not_assigns {b : Block Span} {x : Name} (h : ¬ b.Assigns x)
    (K : Closure → Prop) (env : FrameId) : ∀ y ∈ b.own, y.Spares K env x := fun _ hy =>
  ⟨fun hs => absurd (.sets hy hs) h, fun ⟨_, _, _, he, ha⟩ =>
    h (.inside (he ▸ hy) ha.params ha.vars ha.assigns)⟩

namespace Store

variable {s s' s'' : Store} {ns ms : List (Node Span)} {env f : FrameId} {x n : Name} {v : Value}

theorem Keeps.trans {K : Closure → Prop} (h : s.Keeps K s' f x) (hx : s'.Extends s'')
    (h' : s'.Keeps K s'' f x) : s.Keeps K s'' f x := by
  rcases h' with h' | h'
  · rcases h with h | ⟨i, c, hi, hc, h⟩
    · exact .inl (h'.trans h)
    · exact .inr ⟨i, c, hx.closures hi, hc, h'.trans h⟩
  · exact .inr h'

/-- A store whose closures are all old ones guards what it has guarded before. -/
theorem Guards.of_closures (h : s.Guards f x) (hs : s.Sound) (hx : s.Extends s')
    (hc : ∀ {i : Nat} {c : Closure}, s'.closures[i]? = some c → s.closures[i]? = some c) :
    s'.Guards f x := fun hi hf => h (hc hi) (hx.of_finds hs hf (hs.closures (hc hi)).1)

namespace Changes

theorem mono (h : s.Changes ns env s') (hsub : ∀ y ∈ ns, y ∈ ms) : s.Changes ms env s' where
  sound := h.sound
  later := h.later
  guards hf hg hl := h.guards hf hg fun hx y hy => hl hx y (hsub y hy)
  keeps hf hg hsp := h.keeps hf hg fun hx y hy => hsp hx y (hsub y hy)

theorem trans (hs : s.Sound) (he : env < s.frames.size) (h : s.Changes ns env s')
    (h' : s'.Changes ns env s'') : s.Changes ns env s'' where
  sound := h'.sound
  later := h.later.trans h'.later
  guards hf hg hl := h'.guards (h.later.lt hf) (h.guards hf hg hl) fun hx =>
    hl (h.later.of_finds hs hx he)
  keeps hf hg hsp := (h.keeps hf hg hsp).trans h'.later
    (h'.keeps (h.later.lt hf) (h.guards hf hg fun hx y hy => (hsp hx y hy).lends) fun hx =>
      hsp (h.later.of_finds hs hx he))

/-- Nothing has happened to frames and closures. -/
theorem of_eq (hs : s.Sound) (hf : s'.frames = s.frames) (hc : s'.closures = s.closures) :
    s.Changes ns env s' where
  sound := ⟨hf ▸ hs.global, fun hi => hs.parents (hf ▸ hi), fun hi => by
    rw [hf]
    exact hs.closures (hc ▸ hi)⟩
  later := .of_eq hf hc
  guards _ hg _ := hg.of_closures hs (.of_eq hf hc) fun hi => hc ▸ hi
  keeps _ _ _ := .inl (by rw [content?, content?, cell?, cell?, hf])

theorem refl (hs : s.Sound) : s.Changes ns env s := .of_eq hs rfl rfl

/-- A node has set a variable. -/
theorem write (hs : s.Sound) {y : Node Span} (hy : y ∈ ns) {e : Option (Expr Span)}
    (hset : y.sets? = some (n, e)) (hf : s.Finds n env f)
    (hv : ∀ a ps c, e = some (.function a ps c) →
      ∃ i, v = .closure i ∧ s.closures[i]? = some ⟨ps, c, env, none⟩) :
    s.Changes ns env (s.write f n v) where
  sound := hs.write f n v
  later := extends_write s f n v
  guards _ hg _ := hg.of_closures hs (extends_write s f n v) fun hi => hi
  keeps {g x K} _ _ hsp := by
    by_cases hgx : (g, x) = (f, n)
    · obtain ⟨rfl, rfl⟩ := Prod.mk.inj hgx
      obtain ⟨a, ps, c, rfl, hK⟩ := (hsp hf y hy).sets hset
      obtain ⟨i, rfl, hi⟩ := hv a ps c rfl
      obtain ⟨d, hd⟩ := hf.cell?
      exact .inr ⟨i, _, hi, hK, content?_write_self hd⟩
    · exact .inl (content?_write_ne hgx)

/-- A node has made a closure. -/
theorem newClosure (hs : s.Sound) (he : env < s.frames.size) {a : Span} {ps : List Name}
    {b : Block Span} (hy : .expr (.function a ps b) ∈ ns) (hb : b.IsFlat) :
    s.Changes ns env (s.newClosure ⟨ps, b, env, none⟩).2 where
  sound := hs.newClosure he hb
  later := extends_newClosure s _
  guards {f x} _ hg hl := fun {i c} hi hx => by
    rcases of_newClosure hi with rfl | hi
    · exact fun ha => hl ((extends_newClosure s _).of_finds hs hx he) _ hy ⟨a, ps, b, rfl, ha⟩
    · exact hg hi ((extends_newClosure s _).of_finds hs hx (hs.closures hi).1)
  keeps _ _ _ := .inl rfl

end Changes

/-- A new frame guards all its variables. -/
theorem guards_newFrame (hs : s.Sound) (fr : Frame) (x : Name) :
    (s.newFrame fr).2.Guards s.frames.size x := fun hi hx => by
  have hlt := (hs.closures hi).1
  exact absurd ((extends_newFrame s fr).of_finds hs hx hlt).lt (Nat.lt_irrefl _)

end Store

end FlatScope
