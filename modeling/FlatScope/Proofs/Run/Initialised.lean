import FlatScope.Parser.Report
import FlatScope.Proofs.Grammar.Legible
import FlatScope.Proofs.Run.History
import FlatScope.Proofs.Run.Sessions
import FlatScope.Proofs.Source

/-!
# Variables obey their declarations

The history of every run of a program that was read is lawful (`Eval.told`), and leads to the frames
that the run leaves. A `let` or `const` stands among the statements of a body or a block, or in the
first clause of a `for`, whose frame was made for it and for the others there (`Eval.Awaits`). So
the declaration finds its own variable, and since its statement runs once in that frame, the
variable is uninitialised.
-/

namespace FlatScope

namespace Frame

variable {f : Frame} {x y : Name} {c : Cell} {v : Value} {content : Option Value} {b : Bool}

/-- The names of the variables of a frame. -/
def names (f : Frame) : List Name := f.cells.map (·.1)

theorem has_iff : f.has x = true ↔ x ∈ f.names := by
  rw [has, find?, Option.isSome_iff_exists]
  exact Table.exists_lookup

theorem names_update : (f.update x v).names = f.names := by
  rw [names, names, update, List.map_map]
  refine List.map_congr_left fun d _ => ?_
  dsimp only [Function.comp]
  split <;> rfl

theorem names_nodup_add (h : f.names.Nodup) (hx : ¬ f.has x = true) : (f.add x c).names.Nodup := by
  rw [has_iff] at hx
  rw [names, add, List.map_append]
  refine List.nodup_append.2 ⟨h, List.nodup_cons.2 ⟨List.not_mem_nil, List.nodup_nil⟩,
    fun y hy z hz => ?_⟩
  obtain rfl := List.mem_singleton.1 hz
  exact fun he => hx (he ▸ hy)

/-- A variable is defined only if there is none of its name. -/
theorem define_ok {g : Frame} (h : f.define x content b = .ok g) :
    ¬ f.has x = true ∧ g = f.add x ⟨content, b⟩ := by
  rw [define] at h
  split at h
  · cases h
  · cases h
    exact ⟨‹_›, rfl⟩

end Frame

namespace Eval

section Frames

variable {f g : Frame}

theorem bindParams_nodup {ps : List Name} {args : List Value} (h : f.names.Nodup) :
    (bindParams f ps args).names.Nodup := by
  induction ps generalizing f args with
  | nil => exact h
  | cons p ps ih =>
    rw [bindParams]
    refine ih ?_
    split
    · rwa [Frame.names_update]
    · exact Frame.names_nodup_add h ‹_›

theorem bindVars_nodup {vars : List (Name × Span)} (h : f.names.Nodup) :
    (bindVars f vars).names.Nodup := by
  induction vars generalizing f with
  | nil => exact h
  | cons v vars ih =>
    rw [bindVars, List.foldl_cons]
    refine ih ?_
    dsimp only
    split
    · exact h
    · exact Frame.names_nodup_add h ‹_›

/-- What a frame has after `let`s and `const`s were defined in it: what it had before, and each of
    these, uninitialised. -/
theorem bindLexicals_ok {ls : List (Lexical Span)} (h : bindLexicals f ls = .ok g)
    (hf : f.names.Nodup) : g.names.Nodup ∧ (ls.map (·.name)).Nodup ∧
      (∀ l ∈ ls, ¬ f.has l.name = true ∧ g.find? l.name = some ⟨none, l.kind == .const⟩) ∧
      ∀ {x c}, f.find? x = some c → g.find? x = some c := by
  induction ls generalizing f with
  | nil =>
    cases h
    exact ⟨hf, List.nodup_nil, fun l hl => absurd hl List.not_mem_nil, fun h => h⟩
  | cons l ls ih =>
    rw [bindLexicals, List.foldlM_cons] at h
    cases hd : f.define l.name none (l.kind == .const) with
    | error e =>
      rw [hd] at h
      cases h
    | ok f' =>
      rw [hd] at h
      obtain ⟨hno, rfl⟩ := Frame.define_ok hd
      have hnone : f.find? l.name = none := by simpa [Frame.has] using hno
      obtain ⟨hg, hls, hcells, hold⟩ := ih h (Frame.names_nodup_add hf hno)
      have hself := Frame.find?_add_self (c := ⟨none, l.kind == .const⟩) hnone
      refine ⟨hg, List.nodup_cons.2 ⟨fun hm => ?_, hls⟩, ?_, fun {x c} hx => hold ?_⟩
      · obtain ⟨l', hl', hname⟩ := List.mem_map.1 hm
        refine (hcells l' hl').1 ?_
        rw [hname, Frame.has, hself]
        rfl
      · rintro l' hl'
        rcases List.mem_cons.1 hl' with rfl | hl'
        · exact ⟨hno, hold hself⟩
        · refine ⟨fun hh => (hcells l' hl').1 ?_, (hcells l' hl').2⟩
          rw [Frame.has] at hh ⊢
          by_cases hx : l'.name = l.name
          · rw [hx, hself]
            rfl
          · rwa [Frame.find?_add_ne hx]
      · rw [Frame.find?_add_ne, hx]
        rintro rfl
        rw [hnone] at hx
        cases hx

end Frames

open Change

variable {α β : Type} {n : Nat} {env : FrameId} {s t : Store} {ps qs : List (FrameId × Name)}
  {cs : List Change} {x : Run α} {f : α → Run β}

/-- All closures have code as it is read. -/
def Sourced (s : Store) : Prop :=
  ∀ (i : Nat) (c : Closure), s.closures[i]? = some c → c.body.IsSource

/-- The frame has the variables of the declarations, none of them initialised. -/
structure Awaits (s : Store) (env : FrameId) (ls : List (Lexical Span)) : Prop where
  cells : ∀ l ∈ ls, cell? s.frames env l.name = some ⟨none, l.kind == .const⟩
  names : (ls.map (·.name)).Nodup

/-- The changes are lawful; they initialise variables only if these are among the given ones, or of
    a frame that is made in the meantime; and the frames at the end are what the changes make of
    those before. -/
structure Tells (ps : List (FrameId × Name)) (s : Store) (cs : List Change) (o : Option Store) :
    Prop where
  lawful : AreLawful s.frames cs
  within : ∀ p ∈ cs.filterMap initialised?, p ∈ ps ∨ s.frames.size ≤ p.1
  ends : ∀ {t}, o = some t → t.frames = replay s.frames cs ∧ Sourced t

/-- A piece of a program makes no frame, writes to no variable, and makes no closure. -/
structure Passive (x : Run α) : Prop where
  keeps : ∀ {s t : Store}, (x s).state? = some t → t.frames = s.frames ∧ t.closures = s.closures

/-! ## Changes one after the other -/

namespace Passive

theorem bind (hx : Passive x) (hf : ∀ a, Passive (f a)) : Passive (x >>= f) where
  keeps {s t} h := by
    rw [Process.bind_apply] at h
    cases hxs : x s with
    | done a r =>
      rw [hxs] at h
      obtain ⟨hr, hrc⟩ := hx.keeps (s := s) (t := r) (by rw [hxs]; rfl)
      obtain ⟨ht, htc⟩ := (hf a).keeps h
      exact ⟨ht.trans hr, htc.trans hrc⟩
    | interrupted w r =>
      rw [hxs] at h
      exact hx.keeps (s := s) (by rw [hxs]; exact h)
    | outOfFuel =>
      rw [hxs] at h
      cases h

theorem pure (a : α) : Passive (Pure.pure a : Run α) where
  keeps h := by
    cases h
    exact ⟨rfl, rfl⟩

theorem interrupt (w : Interrupt) : Passive (Process.interrupt w : Run α) where
  keeps h := by
    cases h
    exact ⟨rfl, rfl⟩

theorem read (g : Store → Except RunError α) : Passive (Process.read g) where
  keeps {s t} h := by
    rw [Process.read] at h
    cases hg : g s <;> rw [hg] at h <;> cases h <;> exact ⟨rfl, rfl⟩

theorem make {g : Store → α × Store} (hf : ∀ s, (g s).2.frames = s.frames)
    (hc : ∀ s, (g s).2.closures = s.closures) : Passive (Process.make g) where
  keeps {s t} h := by
    cases h
    exact ⟨hf s, hc s⟩

theorem changeAt {ι : Type} {place : Store → Except RunError ι} {g : ι → Store → Store}
    (hf : ∀ i s, (g i s).frames = s.frames) (hc : ∀ i s, (g i s).closures = s.closures) :
    Passive (Process.changeAt place g) where
  keeps {s t} h := by
    rw [Process.changeAt] at h
    cases hp : place s <;> rw [hp] at h <;> cases h
    · exact ⟨rfl, rfl⟩
    · exact ⟨hf _ s, hc _ s⟩

theorem failWith (e : Text → RunError) (v : Value) : Passive (Eval.failWith e v : Run α) :=
  (read _).bind fun _ => interrupt _

theorem operate (g : Store → Except RunError Value) : Passive (Eval.operate g) :=
  (read _).bind fun v => make (fun s => by unfold Store.identify; split <;> rfl)
    fun s => by unfold Store.identify; split <;> rfl

theorem sequenceOf (v : Value) : Passive (Eval.sequenceOf v) := by
  unfold Eval.sequenceOf
  split
  · exact pure _
  · exact pure _
  · exact failWith _ _

/-- Nothing is told of a passive piece. -/
theorem tells (hx : Passive x) (hs : Sourced s) : Tells ps s [] (x s).state? where
  lawful := trivial
  within _ hp := absurd hp List.not_mem_nil
  ends h := by
    obtain ⟨hf, hc⟩ := hx.keeps h
    exact ⟨hf, fun i c hi => hs i c (hc ▸ hi)⟩

end Passive

namespace Tells

theorem mono {o : Option Store} (h : Tells ps s cs o) (hsub : ∀ p ∈ ps, p ∈ qs) :
    Tells qs s cs o where
  lawful := h.lawful
  within p hp := (h.within p hp).imp_left (hsub p)
  ends := h.ends

/-- Pieces that end in the same stores. -/
theorem ending {o o' : Option Store} (h : Tells ps s cs o) (ho : ∀ t, o' = some t → o = some t) :
    Tells ps s cs o' where
  lawful := h.lawful
  within := h.within
  ends ht := h.ends (ho _ ht)

/-- Nothing is told within no steps. -/
theorem outOfFuel : Tells ps s [] none :=
  ⟨trivial, fun _ hp => absurd hp List.not_mem_nil, fun h => by cases h⟩

theorem le {o : Option Store} (h : Tells ps s cs o) (ho : o = some t) :
    s.frames.size ≤ t.frames.size := by
  rw [(h.ends ho).1]
  exact size_le_replay _ _

/-- One piece after the other. -/
theorem bind {ds : α → Store → List Change} (hx : Tells ps s cs (x s).state?)
    (hf : ∀ {a t}, x s = .done a t → Sourced t → Tells ps t (ds a t) (f a t).state?) :
    Tells ps s (cs ++ (x s).next ds) ((x >>= f) s).state? := by
  rw [Process.bind_apply]
  cases hxs : x s with
  | done a t =>
    rw [hxs] at hx
    obtain ⟨hframes, hsrc⟩ := hx.ends rfl
    have hds := hf hxs hsrc
    refine ⟨areLawful_append.2 ⟨hx.lawful, hframes ▸ hds.lawful⟩, fun p hp => ?_, fun {r} hr => ?_⟩
    · rw [List.filterMap_append, List.mem_append] at hp
      rcases hp with hp | hp
      · exact hx.within p hp
      · exact (hds.within p hp).imp_right (Nat.le_trans (hx.le rfl))
    · rw [replay_append, ← hframes]
      exact hds.ends hr
  | interrupted w t =>
    rw [hxs] at hx
    simp only [Outcome.next, List.append_nil]
    exact hx
  | outOfFuel =>
    rw [hxs] at hx
    simp only [Outcome.next, List.append_nil]
    exact hx

/-- A passive piece after the other. -/
theorem bindPassive (hx : Tells ps s cs (x s).state?) (hf : ∀ a, Passive (f a)) :
    Tells ps s cs ((x >>= f) s).state? := by
  have h : Tells ps s (cs ++ (x s).next fun _ _ => []) ((x >>= f) s).state? :=
    hx.bind fun _ ht => (hf _).tells ht
  have hnil : (x s).next (fun _ _ => ([] : List Change)) = [] := by cases x s <;> rfl
  rwa [hnil, List.append_nil] at h

/-- The body of a loop. -/
theorem goesOn {x : Run Unit} (h : Tells ps s cs (x s).state?) :
    Tells ps s cs (Eval.goesOn x s).state? := h.ending fun t ht => by
  rw [Eval.goesOn] at ht
  cases hxs : x s with
  | interrupted w r =>
    rw [hxs] at ht
    cases w <;> exact ht
  | _ =>
    rw [hxs] at ht
    exact ht

/-- A frame is made, and a piece runs in it that initialises no other variables than those of the
    frame. -/
theorem made {fr : Frame} {o : Option Store} (hfr : fr.names.Nodup)
    (h : Tells qs (s.newFrame fr).2 cs o) (hq : ∀ p ∈ qs, p.1 = s.frames.size) :
    Tells ps s (.made fr :: cs) o where
  lawful := ⟨hfr, h.lawful⟩
  within p hp := by
    rcases h.within p hp with hp | hp
    · exact .inr (hq p hp ▸ Nat.le_refl _)
    · refine .inr (Nat.le_trans (Nat.le_succ _) ?_)
      rwa [Store.newFrame, Array.size_push] at hp
  ends := h.ends

theorem entering {fr? : Except RunError Frame} {g : FrameId → Run α}
    {rest : FrameId → Store → List Change} (hs : Sourced s)
    (h : ∀ {fr}, fr? = .ok fr → fr.names.Nodup ∧
      Tells ps s (.made fr :: rest s.frames.size (s.newFrame fr).2)
        (g s.frames.size (s.newFrame fr).2).state?) :
    Tells ps s (Eval.entering fr? s rest) ((enter fr? >>= g) s).state? := by
  cases fr? with
  | error e => exact (Passive.interrupt (α := α) (.failed e)).tells hs
  | ok fr => exact (h rfl).2

/-- A frame is copied, and a piece runs then. -/
theorem copied {i : FrameId} {o : Option Store} (hi : i < s.frames.size)
    (h : Tells [] (s.copy i).2 cs o) : Tells ps s (.copied i :: cs) o where
  lawful := ⟨hi, h.lawful⟩
  within p hp := by
    rcases h.within p hp with hp | hp
    · exact absurd hp List.not_mem_nil
    · refine .inr (Nat.le_trans (Nat.le_succ _) ?_)
      rwa [Store.copy, Store.newFrame, Array.size_push] at hp
  ends := h.ends

/-- An assignment, which stops if the variable is uninitialised or a constant. -/
theorem assigning {y : Name} {v : Value} (hs : Sourced s) :
    Tells ps s (Eval.assigning s env y v) (setVariable env y v s).state? := by
  rw [Eval.assigning, setVariable, Process.changeAt]
  cases ht : s.setTarget env y with
  | error e => exact (Passive.interrupt (α := Unit) (.failed e)).tells hs
  | ok o =>
    rw [Store.setTarget] at ht
    split at ht
    · cases ht
    · cases ht
    · cases ht
    · rename_i w hfind
      cases ht
      refine ⟨⟨⟨w, (Store.finds_of_find? hfind).2⟩, trivial⟩,
        fun p hp => absurd hp List.not_mem_nil, fun h => ?_⟩
      cases h
      exact ⟨rfl, hs⟩

/-- A declaration of a variable of the frame, which is uninitialised. -/
theorem initialising {y : Name} {d : DeclKind} {v : Value} (hs : Sourced s)
    (hy : cell? s.frames env y = some ⟨none, d == .const⟩) (hp : (env, y) ∈ ps) :
    Tells ps s (Eval.initialising s env y d v) (startVariable env y v s).state? := by
  have htarget : s.initialTarget env y = .ok env := by
    obtain ⟨fr, hfr, hx⟩ := Option.bind_eq_some_iff.1 hy
    rw [Store.initialTarget, Store.find?, Store.findFrom, hfr]
    simp only [hx]
  rw [Eval.initialising, startVariable, Process.changeAt, htarget]
  refine ⟨⟨hy, trivial⟩, fun p hm => .inl ?_, fun h => ?_⟩
  · obtain rfl := List.mem_singleton.1 hm
    exact hp
  · cases h
    exact ⟨rfl, hs⟩

end Tells

/-! ## Awaited declarations -/

section Awaits

variable {ls : List (Lexical Span)} {fr : Frame}

/-- What a piece does not initialise is still uninitialised after it. -/
theorem Awaits.outlive {o : Option Store} (h : Awaits s env ls) (hx : Tells ps s cs o)
    (ho : o = some t) (hno : ∀ l ∈ ls, (env, l.name) ∉ ps) : Awaits t env ls where
  cells l hl := by
    rw [(hx.ends ho).1]
    have hcell := h.cells l hl
    refine uninitialised_stays hx.lawful hcell fun v hv => ?_
    rcases hx.within (env, l.name) (List.mem_filterMap.2 ⟨_, hv, rfl⟩) with hp | hle
    · exact hno l hl hp
    · exact absurd (lt_of_cell? hcell) (Nat.not_lt.2 hle)
  names := h.names

/-- The variables of a frame that was just made. -/
theorem Awaits.of_newFrame (hcells : ∀ l ∈ ls, fr.find? l.name = some ⟨none, l.kind == .const⟩)
    (hnames : (ls.map (·.name)).Nodup) : Awaits (s.newFrame fr).2 s.frames.size ls where
  cells l hl := by
    rw [cell?, Store.getElem?_newFrame_self, Option.bind_some, hcells l hl]
  names := hnames

theorem Awaits.nil : Awaits s env [] :=
  ⟨fun _ hl => absurd hl List.not_mem_nil, List.nodup_nil⟩

/-- The declarations of a statement and of those after it. -/
theorem Awaits.cons {x : Stmt Span} {ss : List (Stmt Span)}
    (h : Awaits s env ((x :: ss).filterMap Stmt.lexical?)) : Awaits s env x.lexical?.toList ∧
      Awaits s env (ss.filterMap Stmt.lexical?) ∧
      ∀ l ∈ ss.filterMap Stmt.lexical?, ∀ l' ∈ x.lexical?.toList, l.name ≠ l'.name := by
  rw [List.filterMap_cons] at h
  cases hx : x.lexical? with
  | none =>
    rw [hx] at h
    exact ⟨.nil, h, fun _ _ _ hl => absurd hl List.not_mem_nil⟩
  | some l =>
    rw [hx] at h
    obtain ⟨hl, hss⟩ := List.nodup_cons.1 h.names
    refine ⟨⟨fun l' hl' => ?_, List.nodup_cons.2 ⟨List.not_mem_nil, List.nodup_nil⟩⟩,
      ⟨fun l' hl' => h.cells l' (List.mem_cons_of_mem _ hl'), hss⟩, fun l' hl' l'' hl'' he => ?_⟩
    · obtain rfl := List.mem_singleton.1 hl'
      exact h.cells l' List.mem_cons_self
    · obtain rfl := List.mem_singleton.1 hl''
      exact hl (List.mem_map.2 ⟨l', hl', he⟩)

end Awaits

/-- What is copied for every iteration is a declaration. -/
theorem copied?_eq (i : Stmt Span) :
    copied? (some i) = i.lexical?.map fun l => (l.name, l.kind) := by
  cases i with
  | declaration _ _ d _ => cases d <;> rfl
  | _ => rfl

/-- What may stand as the last clause of a `for` declares nothing. -/
theorem lexical?_of_isUpdate {u : Stmt Span} (h : u.isUpdate = true) : u.lexical? = none := by
  cases u <;> first | rfl | cases h

/-! ## The pieces of a program -/

namespace Task

/-- The store that a piece leaves, if it ends within a number of steps. -/
def final? (n : Nat) : Task → Store → Option Store
  | .expr e env, s => (Eval.expr n e env s).state?
  | .exprs es env, s => (Eval.exprs n es env s).state?
  | .call f args, s => (Eval.call n f args s).state?
  | .callClosure c args, s => (Eval.callClosure n c args s).state?
  | .stmts ss env, s => (Eval.stmts n ss env s).state?
  | .block b env, s => (Eval.block n b env s).state?
  | .stmt x env, s => (Eval.stmt n x env s).state?
  | .assign x v env, s => (Eval.assign n x v env s).state?
  | .loop h b env, s => (Eval.loop n h b env s).state?
  | .whileLoop c b env, s => (Eval.whileLoop n c b env s).state?
  | .countingLoop copies c u b env, s => (Eval.countingLoop n copies c u b env s).state?
  | .condition c env, s => (Eval.condition n c env s).state?
  | .update u env, s => (Eval.update n u env s).state?
  | .forOfLoop q i x d b env, s => (Eval.forOfLoop n q i x d b env s).state?

/-- A piece of code as it is read, whose declarations the frame awaits. -/
def Ready (s : Store) : Task → Prop
  | .expr e _ => e.IsSource
  | .exprs es _ => Expr.AreSource es
  | .call .. => True
  | .callClosure c _ => c.body.IsSource
  | .stmts ss env => Stmt.AreSource ss ∧ Awaits s env (ss.filterMap Stmt.lexical?)
  | .block b _ => b.IsSource
  | .stmt x env => x.IsSource ∧ Awaits s env x.lexical?.toList
  | .assign x _ _ => x.IsSource
  | .loop h b _ => h.IsSource ∧ b.IsSource
  | .whileLoop c b _ => c.IsSource ∧ b.IsSource
  | .countingLoop copies c u b env => (copies = true → env < s.frames.size) ∧
    (∀ e, c = some e → e.IsSource) ∧ (∀ x, u = some x → x.isUpdate ∧ x.IsSource) ∧ b.IsSource
  | .condition c _ => ∀ e, c = some e → e.IsSource
  | .update u _ => ∀ x, u = some x → x.isUpdate ∧ x.IsSource
  | .forOfLoop _ _ _ _ b _ => b.IsSource

/-- The variables that a piece initialises in the frame that it runs in. -/
def awaited : Task → List (FrameId × Name)
  | .stmts ss env => (ss.filterMap Stmt.lexical?).map fun l => (env, l.name)
  | .stmt x env => x.lexical?.toList.map fun l => (env, l.name)
  | _ => []

end Task

/-- The histories of all pieces within a number of steps tell what they do. -/
def Told (n : Nat) : Prop :=
  ∀ (p : Task) (s : Store), p.Ready s → Sourced s → Tells p.awaited s (history n p s) (p.final? n s)

theorem not_mem_awaited_nil {p : FrameId × Name} (h : p ∈ ([] : List (FrameId × Name))) : p ∈ ps :=
  absurd h List.not_mem_nil

section Told

variable (ih : Told n)

include ih

theorem Told.expr {e : Expr Span} (he : e.IsSource) (hs : Sourced s) :
    Tells ps s (history n (.expr e env) s) (Eval.expr n e env s).state? :=
  (ih (.expr e env) s he hs).mono fun _ => not_mem_awaited_nil

theorem Told.exprs {es : List (Expr Span)} (he : Expr.AreSource es) (hs : Sourced s) :
    Tells ps s (history n (.exprs es env) s) (Eval.exprs n es env s).state? :=
  (ih (.exprs es env) s he hs).mono fun _ => not_mem_awaited_nil

theorem Told.block {b : Block Span} (hb : b.IsSource) (hs : Sourced s) :
    Tells ps s (history n (.block b env) s) (Eval.block n b env s).state? :=
  (ih (.block b env) s hb hs).mono fun _ => not_mem_awaited_nil

/-! ### Expressions and calls -/

theorem told_binary {m : Span} (op : BinaryOp) {l r : Expr Span} (hl : l.IsSource) (hr : r.IsSource)
    (hs : Sourced s) : Tells ps s (history (n + 1) (.expr (.binary m op l r) env) s)
      (Eval.expr (n + 1) (.binary m op l r) env s).state? := by
  cases op with
  | and =>
    rw [Eval.expr]
    refine (ih.expr hl hs).bind fun {v t} _ ht => ?_
    by_cases hv : v.truthy = true
    · simpa [hv] using ih.expr hr ht
    · simpa [hv] using (Passive.pure v).tells ht
  | or =>
    rw [Eval.expr]
    refine (ih.expr hl hs).bind fun {v t} _ ht => ?_
    by_cases hv : v.truthy = true
    · simpa [hv] using (Passive.pure v).tells ht
    · simpa [hv] using ih.expr hr ht
  | _ =>
    rw [Eval.expr]
    · refine (ih.expr hl hs).bind fun {v t} _ ht => ?_
      simpa using (ih.expr hr ht).bindPassive fun w => Passive.operate _
    all_goals simp

theorem told_expr : ∀ {e : Expr Span}, e.IsSource → Sourced s →
    Tells ps s (history (n + 1) (.expr e env) s) (Eval.expr (n + 1) e env s).state?
  | .literal _ v, _, hs => by
    cases v <;> rw [Eval.expr] <;> exact (Passive.pure _).tells hs
  | .name .., _, hs => by
    rw [Eval.expr]
    exact (Passive.read _).tells hs
  | .unary _ _ e, he, hs => by
    have hsub : e.IsSource := he
    rw [Eval.expr]
    exact (ih.expr hsub hs).bindPassive fun _ => .operate _
  | .binary _ op l r, he, hs => told_binary ih op he.1 he.2 hs
  | .call _ g args, he, hs => by
    rw [Eval.expr]
    exact (ih.expr he.1 hs).bind fun {v t} _ ht => (ih.exprs he.2 ht).bind fun {vs u} _ hu =>
      (ih (.call v vs) u trivial hu).mono fun _ => not_mem_awaited_nil
  | .array _ es, he, hs => by
    rw [Eval.expr]
    exact (ih.exprs he hs).bindPassive fun _ => .make (fun _ => rfl) fun _ => rfl
  | .index _ b i, he, hs => by
    rw [Eval.expr]
    exact (ih.expr he.1 hs).bind fun _ ht => (ih.expr he.2 ht).bindPassive fun _ => .read _
  | .function _ xs b, he, hs => by
    rw [Eval.expr]
    refine ⟨trivial, fun _ hp => absurd hp List.not_mem_nil, fun h => ?_⟩
    cases h
    refine ⟨rfl, fun i c hi => ?_⟩
    rcases Store.of_newClosure hi with rfl | hi
    · exact he
    · exact hs i c hi
  | .signal _ _ none, he, _ => he.elim
  | .signal _ _ (some _), he, _ | .signalIs .., he, _ | .signalValue .., he, _ => he.1.elim
  | .unknown .., he, _ => he.elim

theorem told_exprs {es : List (Expr Span)} (he : Expr.AreSource es) (hs : Sourced s) :
    Tells ps s (history (n + 1) (.exprs es env) s) (Eval.exprs (n + 1) es env s).state? := by
  cases es with
  | nil =>
    rw [Eval.exprs]
    exact (Passive.pure _).tells hs
  | cons e es =>
    rw [Eval.exprs]
    exact (ih.expr he.1 hs).bind fun _ ht => (ih.exprs he.2 ht).bindPassive fun _ => .pure _

theorem told_call (g : Value) (args : List Value) (hs : Sourced s) :
    Tells ps s (history (n + 1) (.call g args) s) (Eval.call (n + 1) g args s).state? := by
  cases g with
  | builtin b =>
    refine Passive.tells ⟨fun {s t} h => ?_⟩ hs
    obtain ⟨hf, hc⟩ := b.call_keeps s args
    rw [call_builtin] at h
    cases hb : b.call s args with
    | mk r t' =>
      rw [hb] at h hf hc
      cases r <;> cases h <;> exact ⟨hf, hc⟩
  | closure i =>
    have hc : (s.closures[i]?.getD default).body.IsSource := by
      cases hi : s.closures[i]? with
      | some c => exact hs i c hi
      | none => trivial
    exact (ih (.callClosure (s.closures[i]?.getD default) args) s hc hs).mono
      fun _ => not_mem_awaited_nil
  | _ => exact (Passive.failWith .notCallable _).tells hs

/-- The frame of a call has its parameters, and awaits the declarations of the body. -/
theorem told_callClosure {c : Closure} {args : List Value} (hc : c.body.IsSource) (hs : Sourced s) :
    Tells ps s (history (n + 1) (.callClosure c args) s)
      (Eval.callClosure (n + 1) c args s).state? := by
  rw [Eval.callClosure]
  refine Tells.entering hs fun {fr} hfr => ?_
  obtain ⟨hnodup, hnames, hcells, -⟩ := bindLexicals_ok hfr
    (bindVars_nodup (bindParams_nodup List.nodup_nil))
  have hbody : Stmt.AreSource c.body.statements := by
    obtain ⟨xs, ⟨k, ss⟩, frame, name⟩ := c
    exact hc
  have hrun := ih (.stmts c.body.statements s.frames.size) (s.newFrame fr).2
    ⟨hbody, .of_newFrame (fun l hl => (hcells l hl).2) hnames⟩ hs
  refine ⟨hnodup, .made hnodup (hrun.ending fun t ht => ?_) fun p hp => ?_⟩
  · rw [Task.final?]
    cases hst : Eval.stmts n c.body.statements s.frames.size (s.newFrame fr).2 with
    | interrupted w r =>
      rw [hst] at ht
      cases w <;> exact ht
    | _ =>
      rw [hst] at ht
      exact ht
  · obtain ⟨l, -, rfl⟩ := List.mem_map.1 hp
    rfl

/-! ### Statements -/

theorem told_stmts {ss : List (Stmt Span)} (hss : Stmt.AreSource ss)
    (ha : Awaits s env (ss.filterMap Stmt.lexical?)) (hs : Sourced s) :
    Tells (Task.stmts ss env).awaited s (history (n + 1) (.stmts ss env) s)
      (Eval.stmts (n + 1) ss env s).state? := by
  cases ss with
  | nil =>
    rw [Eval.stmts]
    exact (Passive.pure _).tells hs
  | cons x ss =>
    obtain ⟨hx, hrest, hne⟩ := ha.cons
    have hfirst := ih (.stmt x env) s ⟨hss.1, hx⟩ hs
    have hawaited : (Task.stmts (x :: ss) env).awaited =
        (Task.stmt x env).awaited ++ (Task.stmts ss env).awaited := by
      rw [Task.awaited, Task.awaited, Task.awaited, List.filterMap_cons]
      cases x.lexical? <;> rfl
    rw [Eval.stmts, hawaited]
    refine (hfirst.mono fun p hp => List.mem_append_left _ hp).bind fun {_ t} hxs ht => ?_
    have hstill : Awaits t env (ss.filterMap Stmt.lexical?) :=
      hrest.outlive hfirst (congrArg Outcome.state? hxs) fun l hl hp => by
        obtain ⟨l', hl', he⟩ := List.mem_map.1 hp
        exact hne l hl l' hl' (Prod.mk.inj he).2.symm
    exact (ih (.stmts ss env) t ⟨hss.2, hstill⟩ ht).mono fun p hp => List.mem_append_right _ hp

theorem told_block {b : Block Span} (hb : b.IsSource) (hs : Sourced s) :
    Tells ps s (history (n + 1) (.block b env) s) (Eval.block (n + 1) b env s).state? := by
  obtain ⟨k, ss⟩ := b
  rw [Eval.block, blockFrame, history]
  cases hls : (Block.mk k ss).lexicals with
  | nil =>
    have ha : Awaits s env (ss.filterMap Stmt.lexical?) := by
      change Awaits s env (Block.mk k ss).lexicals
      rw [hls]
      exact .nil
    refine (ih (.stmts ss env) s ⟨hb, ha⟩ hs).mono fun p hp => ?_
    change p ∈ (Block.mk k ss).lexicals.map _ at hp
    rw [hls] at hp
    exact not_mem_awaited_nil hp
  | cons l ls =>
    dsimp only
    rw [← hls]
    refine Tells.entering hs fun {fr} hfr => ?_
    obtain ⟨hnodup, hnames, hcells, -⟩ := bindLexicals_ok hfr List.nodup_nil
    refine ⟨hnodup, .made hnodup (ih (.stmts ss s.frames.size) (s.newFrame fr).2
      ⟨hb, .of_newFrame (fun l hl => (hcells l hl).2) hnames⟩ hs) fun p hp => ?_⟩
    obtain ⟨l, -, rfl⟩ := List.mem_map.1 hp
    rfl

theorem told_assign {x : Expr Span} {v : Value} (hx : x.IsSource) (hs : Sourced s) :
    Tells ps s (history (n + 1) (.assign x v env) s) (Eval.assign (n + 1) x v env s).state? := by
  cases x with
  | name m y =>
    rw [Eval.assign]
    exact .assigning hs
  | index _ b i =>
    rw [Eval.assign]
    exact (ih.expr hx.1 hs).bind fun _ ht => (ih.expr hx.2 ht).bindPassive fun _ =>
      .changeAt (fun _ _ => rfl) fun _ _ => rfl
  | _ =>
    rw [Eval.assign]
    · exact (Passive.interrupt _).tells hs
    all_goals simp

/-- A `let` or `const`, with the variable that its frame awaits. -/
theorem told_lexical {m : Span} {x : Name} {d : DeclKind} {e : Option (Expr Span)}
    (hd : d.isBlockScoped = true) (he : (Stmt.declaration m x d e).IsSource)
    (ha : Awaits s env (Stmt.declaration m x d e).lexical?.toList) (hs : Sourced s) :
    Tells (Task.stmt (.declaration m x d e) env).awaited s
      (history (n + 1) (.stmt (.declaration m x d e) env) s)
      (Eval.stmt (n + 1) (.declaration m x d e) env s).state? := by
  have hlex : (Stmt.declaration m x d e).lexical? = some ⟨m, x, d⟩ := if_pos hd
  have hcell : ∀ {t}, Awaits t env (Stmt.declaration m x d e).lexical?.toList →
      cell? t.frames env x = some ⟨none, d == .const⟩ := fun h => by
    rw [hlex] at h
    exact h.cells _ List.mem_cons_self
  have hmem : (env, x) ∈ (Task.stmt (.declaration m x d e) env).awaited := by
    rw [Task.awaited, hlex]
    exact List.mem_cons_self
  cases e with
  | none =>
    cases d with
    | var => cases hd
    | letVar | const => exact .initialising hs (hcell ha) hmem
  | some e =>
    have hrun : Tells [] s (history n (.expr e env) s) (Eval.expr n e env s).state? := ih.expr he hs
    cases d with
    | var => cases hd
    | letVar | const =>
      exact (hrun.mono fun _ => not_mem_awaited_nil).bind fun {v t} hv ht => .initialising ht
        (hcell (ha.outlive hrun (congrArg Outcome.state? hv) fun _ _ => List.not_mem_nil)) hmem

theorem told_stmt : ∀ {x : Stmt Span}, x.IsSource → Awaits s env x.lexical?.toList → Sourced s →
    Tells (Task.stmt x env).awaited s (history (n + 1) (.stmt x env) s)
      (Eval.stmt (n + 1) x env s).state?
  | .declaration m x .letVar e, hx, ha, hs => told_lexical ih rfl hx ha hs
  | .declaration m x .const e, hx, ha, hs => told_lexical ih rfl hx ha hs
  | .declaration _ _ .var none, _, _, hs => by
    rw [Eval.stmt]
    exact (Passive.pure _).tells hs
  | .declaration _ _ .var (some e), hx, _, hs => by
    rw [Eval.stmt]
    exact (ih.expr hx hs).bind fun _ ht => .assigning ht
  | .assignment _ y e, hx, _, hs => by
    rw [Eval.stmt]
    exact (ih.expr hx.2 hs).bind fun {v t} _ ht =>
      (ih (.assign y v env) t hx.1 ht).mono fun _ => not_mem_awaited_nil
  | .expression _ e, hx, _, hs => by
    rw [Eval.stmt]
    exact (ih.expr hx hs).bindPassive fun _ => .pure _
  | .block b, hx, _, hs => by
    rw [Eval.stmt]
    exact ih.block hx hs
  | .branch _ c b none, hx, _, hs => by
    rw [Eval.stmt]
    refine (ih.expr hx.1 hs).bind fun {v t} _ ht => ?_
    split
    · exact ih.block hx.2 ht
    · exact (Passive.pure _).tells ht
  | .branch _ c b (some e), hx, _, hs => by
    rw [Eval.stmt]
    refine (ih.expr hx.1 hs).bind fun {v t} _ ht => ?_
    split
    · exact ih.block hx.2.1 ht
    · exact ih.block hx.2.2 ht
  | .loop _ h b, hx, _, hs => by
    rw [Eval.stmt]
    exact (ih (.loop h b env) s hx hs).mono fun _ => not_mem_awaited_nil
  | .ret _ none, _, _, hs => by
    rw [Eval.stmt]
    exact (Passive.interrupt _).tells hs
  | .ret _ (some e), hx, _, hs => by
    rw [Eval.stmt]
    exact (ih.expr hx hs).bindPassive fun _ => .interrupt _
  | .brk _, _, _, hs | .cont _, _, _, hs => by
    rw [Eval.stmt]
    exact (Passive.interrupt _).tells hs
  | .unknown .., hx, _, _ => hx.elim

end Told

/-! ### Loops -/

/-- A round of a `for` that counts. -/
theorem countingLoop_round (copies : Bool) (c : Option (Expr Span)) (u : Option (Stmt Span))
    (b : Block Span) (env : FrameId) : countingLoop (n + 1) copies c u b env = (do
      if ← condition n c env then
        if ← goesOn (block n b env) then
          let next ← Process.make fun s => if copies then s.copy env else (env, s)
          update n u next
          countingLoop n copies c u b next : Run Unit) := by
  funext s
  rw [countingLoop, Process.bind_apply]
  cases condition n c env s with
  | done v s₁ =>
    cases v with
    | false => rfl
    | true =>
      dsimp only [if_true]
      rw [if_pos rfl, Process.bind_apply]
      cases goesOn (block n b env) s₁ with
      | done g s₂ =>
        cases g with
        | false => rfl
        | true =>
          dsimp only
          rw [if_pos rfl, Process.bind_apply, Process.make]
          dsimp only
          generalize (if copies = true then s₂.copy env else (env, s₂)) = next
          change _ = Process.bind (update n u next.1)
            (fun _ => countingLoop n copies c u b next.1) next.2
          unfold Process.bind
          cases update n u next.1 next.2 <;> rfl
      | _ => rfl
  | _ => rfl

section Told

variable (ih : Told n)

include ih

theorem told_whileLoop {c : Expr Span} {b : Block Span} (hc : c.IsSource) (hb : b.IsSource)
    (hs : Sourced s) : Tells ps s (history (n + 1) (.whileLoop c b env) s)
      (Eval.whileLoop (n + 1) c b env s).state? := by
  rw [whileLoop_succ]
  refine (ih.expr hc hs).bind fun {v t} _ ht => ?_
  split
  · refine (ih.block hb ht).goesOn.bind fun {again r} _ hr => ?_
    cases again with
    | true => exact (ih (.whileLoop c b env) r ⟨hc, hb⟩ hr).mono fun _ => not_mem_awaited_nil
    | false => exact (Passive.pure _).tells hr
  · exact (Passive.pure _).tells ht

theorem told_countingLoop {copies : Bool} {c : Option (Expr Span)} {u : Option (Stmt Span)}
    {b : Block Span} (hready : (Task.countingLoop copies c u b env).Ready s) (hs : Sourced s) :
    Tells ps s (history (n + 1) (.countingLoop copies c u b env) s)
      (Eval.countingLoop (n + 1) copies c u b env s).state? := by
  obtain ⟨hlt, hc, hu, hb⟩ := hready
  have hupdate : ∀ {qs next t}, Sourced t → Tells qs t (history n (.update u next) t)
      (Eval.update n u next t).state? := fun {_ next t} ht =>
    (ih (.update u next) t hu ht).mono fun _ => not_mem_awaited_nil
  have hagain : ∀ {qs next t}, (copies = true → next < t.frames.size) → Sourced t →
      Tells qs t (history n (.countingLoop copies c u b next) t)
        (Eval.countingLoop n copies c u b next t).state? := fun {_ next t} hnext ht =>
    (ih (.countingLoop copies c u b next) t ⟨hnext, hc, hu, hb⟩ ht).mono fun _ =>
      not_mem_awaited_nil
  rw [countingLoop_round]
  have htest : Tells ps s (history n (.condition c env) s) (Eval.condition n c env s).state? :=
    (ih (.condition c env) s hc hs).mono fun _ => not_mem_awaited_nil
  refine htest.bind fun {go t} hgo ht => ?_
  cases go with
  | false => exact (Passive.pure _).tells ht
  | true =>
    have hbody : Tells ps t (history n (.block b env) t) (goesOn (Eval.block n b env) t).state? :=
      (ih.block hb ht).goesOn
    refine hbody.bind fun {again r} hagainst hr => ?_
    cases again with
    | false => exact (Passive.pure _).tells hr
    | true =>
      cases copies with
      | false => exact (hupdate hr).bind fun _ hz => hagain Bool.noConfusion hz
      | true =>
        -- the frame of this round is there, so its copy is the frame of the next one
        have hr' : env < r.frames.size := Nat.lt_of_lt_of_le (hlt rfl) (Nat.le_trans
          (htest.le (congrArg Outcome.state? hgo)) (hbody.le (congrArg Outcome.state? hagainst)))
        have hup : Tells [] (r.copy env).2 (history n (.update u (r.copy env).1) (r.copy env).2)
            (Eval.update n u (r.copy env).1 (r.copy env).2).state? := hupdate hr
        refine .copied hr' (hup.bind fun hz hsz => hagain (fun _ => ?_) hsz)
        refine Nat.lt_of_lt_of_le ?_ (hup.le (congrArg Outcome.state? hz))
        rw [Store.copy, Store.newFrame, Array.size_push]
        exact Nat.lt_succ_self _

theorem told_forOfLoop {q : Sequence} {i : Nat} {x : Name} {d : Option DeclKind} {b : Block Span}
    (hb : b.IsSource) (hs : Sourced s) : Tells ps s (history (n + 1) (.forOfLoop q i x d b env) s)
      (Eval.forOfLoop (n + 1) q i x d b env s).state? := by
  rw [forOfLoop_succ, history]
  cases hq : q.at? s i with
  | none => exact (Passive.pure ()).tells hs
  | some v =>
    have hnodup : ∀ c : Cell, Frame.names ⟨some env, [(x, c)]⟩ |>.Nodup := fun _ =>
      List.nodup_cons.2 ⟨List.not_mem_nil, List.nodup_nil⟩
    have hmade : ∀ c : Cell, Tells ps s [.made ⟨some env, [(x, c)]⟩]
        (some (s.newFrame ⟨some env, [(x, c)]⟩).2) := fun c =>
      .made (hnodup c) ((Passive.pure ()).tells (s := (s.newFrame ⟨some env, [(x, c)]⟩).2) hs)
        fun _ hp => absurd hp List.not_mem_nil
    dsimp only
    refine Tells.bind ?_ fun {inner t} _ ht => (ih.block hb ht).goesOn.bind fun {again r} _ hr => ?_
    · rcases d with _ | _ | _ | _
      · exact (Tells.assigning hs).bindPassive fun _ => .pure _
      · exact (Tells.assigning hs).bindPassive fun _ => .pure _
      · exact hmade _
      · exact hmade _
    · cases again with
      | true =>
        exact (ih (.forOfLoop q (i + 1) x d b env) r hb hr).mono fun _ => not_mem_awaited_nil
      | false => exact (Passive.pure _).tells hr

/-- A `for` whose first clause is a `let` or `const` makes a frame for it. -/
theorem told_copied {m : Span} {i : Stmt Span} {l : Lexical Span} {c : Option (Expr Span)}
    {u : Option (Stmt Span)} {b : Block Span} (hi : i.lexical? = some l)
    (hh : (Header.counting m (some i) c u).IsSource) (hb : b.IsSource) (hs : Sourced s) :
    Tells ps s (history (n + 1) (.loop (.counting m (some i) c u) b env) s)
      (Eval.loop (n + 1) (.counting m (some i) c u) b env s).state? := by
  obtain ⟨hinit, hc, hu⟩ := Header.shaped_counting.1 hh
  have hcopied : copied? (some i) = some (l.name, l.kind) := by rw [copied?_eq, hi]; rfl
  simp only [Eval.loop, history, hcopied]
  refine Tells.entering hs fun {fr} hfr => ?_
  have hbound : bindLexicals ⟨some env, []⟩ [l] = .ok fr := by
    rw [bindLexicals, List.foldlM_cons, hfr]
    rfl
  obtain ⟨hnodup, hnames, hcells, -⟩ := bindLexicals_ok hbound List.nodup_nil
  have hlex : i.lexical?.toList = [l] := by rw [hi]; rfl
  have hrun := ih (.stmt i s.frames.size) (s.newFrame fr).2 ⟨(hinit i rfl).2, by
    rw [hlex]
    exact .of_newFrame (fun l hl => (hcells l hl).2) hnames⟩ hs
  refine ⟨hnodup, .made hnodup (hrun.bind fun {_ r} hr hsr => .copied ?_ ?_) fun p hp => ?_⟩
  · refine Nat.lt_of_lt_of_le ?_ (hrun.le (congrArg Outcome.state? hr))
    rw [Store.newFrame, Array.size_push]
    exact Nat.lt_succ_self _
  · refine ih (.countingLoop true c u b (r.copy s.frames.size).1) (r.copy s.frames.size).2
      ⟨fun _ => ?_, hc, hu, hb⟩ hsr
    rw [Store.copy, Store.newFrame, Array.size_push]
    exact Nat.lt_succ_self _
  · obtain ⟨l, -, rfl⟩ := List.mem_map.1 hp
    rfl

theorem told_loop {h : Header Span} {b : Block Span} (hh : h.IsSource) (hb : b.IsSource)
    (hs : Sourced s) : Tells ps s (history (n + 1) (.loop h b env) s)
      (Eval.loop (n + 1) h b env s).state? := by
  cases h with
  | whileTrue m c =>
    rw [Eval.loop]
    exact (ih (.whileLoop c b env) s ⟨hh, hb⟩ hs).mono fun _ => not_mem_awaited_nil
  | counting m i c u =>
    obtain ⟨hinit, hc, hu⟩ := Header.shaped_counting.1 hh
    have hloop : ∀ {qs t}, Sourced t → Tells qs t (history n (.countingLoop false c u b env) t)
        (Eval.countingLoop n false c u b env t).state? := fun {_ t} ht =>
      (ih (.countingLoop false c u b env) t ⟨Bool.noConfusion, hc, hu, hb⟩ ht).mono
        fun _ => not_mem_awaited_nil
    cases i with
    | none =>
      rw [Eval.loop]
      exact hloop hs
    | some i =>
      cases hi : i.lexical? with
      | some l => exact told_copied ih hi hh hb hs
      | none =>
        have hcopied : copied? (some i) = none := by rw [copied?_eq, hi]; rfl
        simp only [Eval.loop, history, hcopied]
        have hrun := ih (.stmt i env) s ⟨(hinit i rfl).2, by rw [hi]; exact .nil⟩ hs
        rw [Task.awaited, hi] at hrun
        exact (hrun.mono fun _ => not_mem_awaited_nil).bind fun _ ht => hloop ht
  | forOf m x d e =>
    rw [Eval.loop]
    exact (ih.expr hh hs).bind fun {v t} _ ht => ((Passive.sequenceOf v).tells ht).bind
      fun {q r} _ hr => (ih (.forOfLoop q 0 x d b env) r hb hr).mono fun _ => not_mem_awaited_nil
  | unknown m x => exact hh.elim

end Told

/-- Histories are lawful, and tell what frames the pieces leave. -/
theorem told (n : Nat) : Told n := by
  induction n with
  | zero =>
    intro p s _ _
    cases p <;> exact .outOfFuel
  | succ n ih =>
    intro p s hp hs
    cases p with
    | expr e env => exact told_expr ih hp hs
    | exprs es env => exact told_exprs ih hp hs
    | call g args => exact told_call ih g args hs
    | callClosure c args => exact told_callClosure ih hp hs
    | stmts ss env => exact told_stmts ih hp.1 hp.2 hs
    | block b env => exact told_block ih hp hs
    | stmt x env => exact told_stmt ih hp.1 hp.2 hs
    | assign x v env => exact told_assign ih hp hs
    | loop h b env => exact told_loop ih hp.1 hp.2 hs
    | whileLoop c b env => exact told_whileLoop ih hp.1 hp.2 hs
    | countingLoop copies c u b env => exact told_countingLoop ih hp hs
    | condition c env =>
      cases c with
      | none => exact (Passive.pure true).tells hs
      | some e => exact (ih.expr (hp e rfl) hs).bindPassive fun _ => .pure _
    | update u env =>
      cases u with
      | none => exact (Passive.pure ()).tells hs
      | some x =>
        obtain ⟨hx, hsrc⟩ := hp x rfl
        have hlex := lexical?_of_isUpdate hx
        have hrun := ih (.stmt x env) s ⟨hsrc, by rw [hlex]; exact .nil⟩ hs
        rw [Task.awaited, hlex] at hrun
        exact hrun
    | forOfLoop q i x d b env => exact told_forOfLoop ih hp hs

end Eval

/-! ## Sessions -/

namespace Program

open Eval Change

variable {p : Program Span} {s₀ s : Store} {cs : List Change}

/-- A program was loaded into the store `s₀`, was called so many times, and waits in the store `s`:
    these are the changes since then. -/
inductive Records (p : Program Span) (s₀ : Store) : List Change → Store → Prop
  | loaded (h : initialStore p = .ok s₀) : Records p s₀ [] s₀
  | called {cs : List Change} {s s' : Store} {n : Nat} {c : Closure} {args : List Value}
    (h : Records p s₀ cs s) (hc : p.Callable s c) (hr : (callClosure n c args s).state? = some s') :
    Records p s₀ (cs ++ history n (.callClosure c args) s) s'

/-- The changes since the program was loaded, up to some step of a call that may never end. -/
def Course (p : Program Span) (s₀ : Store) (cs : List Change) : Prop :=
  ∃ before s n c args, p.Records s₀ before s ∧ p.Callable s c ∧
    cs = before ++ history n (.callClosure c args) s

theorem Callable.isSource {c : Closure} (hp : p.IsSource) (h : p.Callable s c) (hs : Sourced s) :
    c.body.IsSource := by
  rcases h with ⟨i, hi⟩ | rfl
  · exact hs i c hi
  · exact hp.2

/-- A variable that is defined is no closure. -/
theorem sourced_define {s' : Store} {i : FrameId} {x : Name} {content : Option Value} {const : Bool}
    (hs : Sourced s) (h : s.define i x content const = .ok s') : Sourced s' := by
  rw [Store.define] at h
  cases hf : s.frames[i]? with
  | none =>
    rw [hf] at h
    cases h
    exact hs
  | some f =>
    rw [hf] at h
    dsimp only at h
    cases hd : f.define x content const with
    | error e =>
      rw [hd] at h
      cases h
    | ok g =>
      rw [hd] at h
      cases h
      exact hs

/-- Before a program runs, the closures are its functions. -/
theorem sourced_initialStore (hp : p.IsSource) (h : initialStore p = .ok s) : Sourced s := by
  refine initialStore_induction (P := Sourced) (fun i c hi => by cases hi)
    (fun hs hd => sourced_define hs hd) (fun fn hfn s hs i c hi => ?_) h
  rcases Store.of_newClosure hi with rfl | hi
  · exact hp.1 fn hfn
  · exact hs i c hi

/-- What is recorded is lawful and leads to the frames that are there. -/
theorem Records.sound (hp : p.IsSource) (h : p.Records s₀ cs s) :
    AreLawful s₀.frames cs ∧ s.frames = replay s₀.frames cs ∧ Sourced s := by
  induction h with
  | loaded h => exact ⟨trivial, rfl, sourced_initialStore hp h⟩
  | @called cs s s' n c args _ hc hr ih =>
    obtain ⟨hlawful, hframes, hsrc⟩ := ih
    have htold := told n (.callClosure c args) s (hc.isSource hp hsrc) hsrc
    obtain ⟨hs', hsrc'⟩ := htold.ends hr
    exact ⟨areLawful_append.2 ⟨hlawful, hframes ▸ htold.lawful⟩,
      by rw [hs', hframes, replay_append], hsrc'⟩

theorem Course.areLawful (hp : p.IsSource) (h : p.Course s₀ cs) : AreLawful s₀.frames cs := by
  obtain ⟨before, s, n, c, args, hrec, hc, rfl⟩ := h
  obtain ⟨hlawful, hframes, hsrc⟩ := hrec.sound hp
  have htold := told n (.callClosure c args) s (hc.isSource hp hsrc) hsrc
  exact areLawful_append.2 ⟨hlawful, hframes ▸ htold.lawful⟩

end Program

section

open Eval Change

/-- The variables of every run of a program that is read obey their declarations. An expression
    yields something for a name only if that is the content of the variable that it means; a
    variable without content stops the run. The changes that are listed since the program was loaded
    lead to the frames that it leaves. All of them are lawful: a variable is initialised by the
    declaration of its kind while it has no content, and assigned to while it has one and is no
    constant; frames are made with different variables, and copied with their contents. So no
    variable is initialised twice, and a constant keeps the content that it was initialised with. -/
theorem variables_obey_declarations (source : Text) (file : Option Text) (p : Program Span)
    (h : Parser.parseFile source file = .ok p) :
    (∀ (n : Nat) (m : Span) (x : Name) (env : FrameId) (s : Store),
      (∀ v t, Eval.expr n (.name m x) env s = .done v t →
        ∃ i const, s.find? x env = some (i, ⟨some v, const⟩)) ∧
      ∀ i const, s.find? x env = some (i, ⟨none, const⟩) →
        Eval.expr (n + 1) (.name m x) env s = .interrupted (.failed (.uninitialized x)) s) ∧
    (∀ s₀ cs s, p.Records s₀ cs s → s.frames = replay s₀.frames cs) ∧
    ∀ s₀ cs, p.Course s₀ cs → AreLawful s₀.frames cs ∧ (cs.filterMap initialised?).Nodup ∧
      (∀ before i after, cs = before ++ copied i :: after → ∀ x,
        cell? (replay s₀.frames (before ++ [copied i])) (replay s₀.frames before).size x =
          cell? (replay s₀.frames before) i x) ∧
      ∀ before after, cs = before ++ after → ∀ i x v,
        (∀ const, cell? (replay s₀.frames before) i x = some ⟨some v, const⟩ →
          ∃ w, cell? (replay s₀.frames cs) i x = some ⟨some w, const⟩) ∧
        (cell? (replay s₀.frames before) i x = some ⟨some v, true⟩ →
          cell? (replay s₀.frames cs) i x = some ⟨some v, true⟩) := by
  have hp := parseFile_isSource h
  refine ⟨fun n m x env s => ⟨fun v t hv => ?_, fun i const hfind => ?_⟩,
    fun s₀ cs s hrec => (hrec.sound hp).2.1, fun s₀ cs hc => ?_⟩
  · cases n with
    | zero => cases hv
    | succ n =>
      rw [Eval.expr, Process.read, Store.get] at hv
      split at hv
      · rename_i hget
        cases hv
        split at hget
        · cases hget
        · cases hget
        · rename_i i w const hfind
          cases hget
          exact ⟨i, const, hfind⟩
      · cases hv
  · rw [Eval.expr, Process.read, Store.get, hfind]
  · have hlawful := hc.areLawful hp
    refine ⟨hlawful, initialised_nodup hlawful, ?_, ?_⟩
    · -- a copy is the last frame, and has the cells of the frame that is copied
      rintro before i after rfl x
      have hi : i < (replay s₀.frames before).size := (areLawful_append.1 hlawful).2.1
      rw [replay_append]
      change cell? ((replay s₀.frames before).push _) _ x = _
      rw [cell?, cell?, Array.getElem?_push_size, Array.getElem?_eq_getElem hi]
      rfl
    · rintro before after rfl i x v
      have hafter := (areLawful_append.1 hlawful).2
      rw [replay_append]
      exact ⟨fun const hk => content_stays hafter hk, fun hk => constant_stays hafter hk⟩

/-- The theorem for a program that runs a loop with a variable for every iteration around a block
    with a constant: its statements make two constants and a variable that is copied twice. -/
theorem variables_obey_declarations_counted :
    ∃ p s₀ cs s, Parser.parseFile
        "const a=1;for(let i=0;i<a;i=i+1){const b=i;}" none = .ok p ∧ p.Records s₀ cs s ∧
      cs.filterMap initialised? = ([(1, "a"), (2, "i"), (4, "b")] : List (FrameId × Name)) ∧
      (cs.filterMap initialised?).Nodup ∧ s.frames = replay s₀.frames cs := by
  have hrun : (Parser.parseFile "const a=1;for(let i=0;i<a;i=i+1){const b=i;}" none).toOption.any
      fun p => (initialStore p).toOption.any fun s₀ =>
        let c : Closure := ⟨[], (p.main .unknown).body, globalFrame, some mainName⟩
        (callClosure 30 c [] s₀).state?.isSome &&
          (history 30 (.callClosure c []) s₀).filterMap initialised? ==
            ([(1, "a"), (2, "i"), (4, "b")] : List (FrameId × Name)) := by
    decide +kernel
  cases hparse : Parser.parseFile "const a=1;for(let i=0;i<a;i=i+1){const b=i;}" none with
  | error e =>
    rw [hparse] at hrun
    cases hrun
  | ok p =>
    rw [hparse, Except.toOption, Option.any_some] at hrun
    cases hinit : initialStore p with
    | error e =>
      rw [hinit] at hrun
      cases hrun
    | ok s₀ =>
      rw [hinit, Except.toOption, Option.any_some, Bool.and_eq_true] at hrun
      obtain ⟨hend, hinitialised⟩ := hrun
      obtain ⟨s, hs⟩ := Option.isSome_iff_exists.1 hend
      have hcall : p.Callable s₀ ⟨[], (p.main .unknown).body, globalFrame,
        some mainName⟩ := .inr rfl
      have hrec := Program.Records.called (.loaded hinit) hcall hs
      have hobey := variables_obey_declarations _ none p hparse
      exact ⟨p, s₀, _, s, rfl, hrec, eq_of_beq hinitialised,
        (hobey.2.2 s₀ _ ⟨[], s₀, 30, _, [], .loaded hinit, hcall, rfl⟩).2.1,
        hobey.2.1 s₀ _ s hrec⟩

end

end FlatScope
