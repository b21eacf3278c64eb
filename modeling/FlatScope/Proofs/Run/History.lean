import FlatScope.Proofs.Run.Visits

/-!
# What happens to variables

A running program makes frames and copies them, and gives variables their contents: a declaration
initialises its variable, whatever else writes to one assigns to it. `Eval.history` lists these
changes for the run of a piece of code, in the order in which they are made, also if the run is not
finished.

A change is lawful if the variable that it initialises had no content yet, and the variable that it
assigns to had one and is no constant (`Change.Lawful`). Of a lawful history follows what becomes of
a variable: it is initialised at most once (`Change.initialised_nodup`), keeps having a content from
then on (`Change.content_stays`), and always the same one if it is a constant
(`Change.constant_stays`).
-/

namespace FlatScope

/-- A change of the frames of a running program. -/
inductive Change where
  | made (f : Frame)
  /-- A frame with the same variables as another one, which have the same contents. -/
  | copied (i : FrameId)
  /-- The declaration of a variable of the frame gives it its first content. -/
  | initialised (i : FrameId) (x : Name) (const : Bool) (v : Value)
  | assigned (i : FrameId) (x : Name) (v : Value)

namespace Change

variable {F : Array Frame} {c : Change} {cs ds : List Change} {i : FrameId} {x : Name} {v : Value}
  {k : Cell} {b : Bool}

/-- The variable of the given name in one of the frames. -/
def cell? (F : Array Frame) (i : FrameId) (x : Name) : Option Cell := F[i]?.bind (·.find? x)

/-- The frames after a change. -/
def apply (F : Array Frame) : Change → Array Frame
  | made f => F.push f
  | copied i => F.push (F[i]?.getD default)
  | initialised i x _ v | assigned i x v => F.modify i (·.update x v)

/-- The frames after changes. -/
def replay (F : Array Frame) (cs : List Change) : Array Frame := cs.foldl apply F

/-- A frame is made with different variables, what is copied is there, what is initialised is the
    uninitialised variable of the declaration, and what is assigned to is initialised and no
    constant. -/
def Lawful (F : Array Frame) : Change → Prop
  | made f => (f.cells.map (·.1)).Nodup
  | copied i => i < F.size
  | initialised i x const _ => cell? F i x = some ⟨none, const⟩
  | assigned i x _ => ∃ v, cell? F i x = some ⟨some v, false⟩

/-- All the changes are lawful, each in the frames that the ones before it have left. -/
def AreLawful : Array Frame → List Change → Prop
  | _, [] => True
  | F, c :: cs => c.Lawful F ∧ AreLawful (c.apply F) cs

/-- The variable that a change initialises. -/
def initialised? : Change → Option (FrameId × Name)
  | initialised i x _ _ => some (i, x)
  | _ => none

theorem replay_append : replay F (cs ++ ds) = replay (replay F cs) ds := List.foldl_append

theorem areLawful_append :
    AreLawful F (cs ++ ds) ↔ AreLawful F cs ∧ AreLawful (replay F cs) ds := by
  induction cs generalizing F with
  | nil => exact ⟨fun h => ⟨trivial, h⟩, And.right⟩
  | cons c cs ih =>
    rw [List.cons_append, AreLawful, AreLawful, ih, and_assoc]
    rfl

/-! ## One change -/

theorem size_le_apply (F : Array Frame) (c : Change) : F.size ≤ (c.apply F).size := by
  cases c <;> simp [apply]

theorem lt_of_cell? (h : cell? F i x = some k) : i < F.size := by
  obtain ⟨f, hf, -⟩ := Option.bind_eq_some_iff.1 h
  exact (Array.getElem?_eq_some_iff.1 hf).1

theorem cell?_push {f : Frame} (h : i < F.size) : cell? (F.push f) i x = cell? F i x := by
  rw [cell?, cell?, Array.getElem?_push_lt h, Array.getElem?_eq_getElem h]

theorem cell?_update_self (h : cell? F i x = some k) :
    cell? (F.modify i (·.update x v)) i x = some { k with content := some v } := by
  obtain ⟨f, hf, hx⟩ := Option.bind_eq_some_iff.1 h
  rw [cell?, Array.getElem?_modify, if_pos rfl, hf, Option.map_some, Option.bind_some,
    Frame.find?_update_self hx]

theorem cell?_update_ne {j : FrameId} {y : Name} (h : (i, x) ≠ (j, y)) :
    cell? (F.modify j (·.update y v)) i x = cell? F i x := by
  rw [cell?, cell?, Array.getElem?_modify]
  split
  · rename_i hj
    subst hj
    have hxy : x ≠ y := fun hxy => h (by rw [hxy])
    cases F[j]? with
    | none => rfl
    | some f => rw [Option.map_some, Option.bind_some, Option.bind_some, Frame.find?_update_ne hxy]
  · rfl

/-- What a lawful change does to a variable. -/
theorem Lawful.cell?_apply (h : c.Lawful F) (hk : cell? F i x = some k) :
    cell? (c.apply F) i x = some k ∨
      (∃ v, c = initialised i x k.const v ∧ k.content = none ∧
        cell? (c.apply F) i x = some ⟨some v, k.const⟩) ∨
      ∃ v w, c = assigned i x v ∧ k = ⟨some w, false⟩ ∧
      cell? (c.apply F) i x = some ⟨some v, false⟩ := by
  have hlt := lt_of_cell? hk
  cases c with
  | made f => exact .inl ((cell?_push hlt).trans hk)
  | copied j => exact .inl ((cell?_push hlt).trans hk)
  | initialised j y b v =>
    by_cases hj : (i, x) = (j, y)
    · obtain ⟨rfl, rfl⟩ := Prod.mk.inj hj
      obtain rfl := Option.some.inj (hk.symm.trans h)
      exact .inr (.inl ⟨v, rfl, rfl, cell?_update_self hk⟩)
    · exact .inl ((cell?_update_ne hj).trans hk)
  | assigned j y v =>
    by_cases hj : (i, x) = (j, y)
    · obtain ⟨rfl, rfl⟩ := Prod.mk.inj hj
      obtain ⟨w, hw⟩ := h
      obtain rfl := Option.some.inj (hk.symm.trans hw)
      exact .inr (.inr ⟨v, w, rfl, rfl, cell?_update_self hk⟩)
    · exact .inl ((cell?_update_ne hj).trans hk)

/-! ## A history -/

theorem size_le_replay (F : Array Frame) (cs : List Change) : F.size ≤ (replay F cs).size := by
  induction cs generalizing F with
  | nil => exact Nat.le_refl _
  | cons c cs ih => exact Nat.le_trans (size_le_apply F c) (ih _)

/-- A variable that has a content keeps having one. -/
theorem content_stays (h : AreLawful F cs) (hk : cell? F i x = some ⟨some v, b⟩) :
    ∃ w, cell? (replay F cs) i x = some ⟨some w, b⟩ := by
  induction cs generalizing F v with
  | nil => exact ⟨v, hk⟩
  | cons c cs ih =>
    rcases h.1.cell?_apply hk with hc | ⟨_, _, hnone, _⟩ | ⟨w, _, _, he, hc⟩
    · exact ih h.2 hc
    · cases hnone
    · cases he
      exact ih h.2 hc

/-- A constant that has a content keeps it. -/
theorem constant_stays (h : AreLawful F cs) (hk : cell? F i x = some ⟨some v, true⟩) :
    cell? (replay F cs) i x = some ⟨some v, true⟩ := by
  induction cs generalizing F with
  | nil => exact hk
  | cons c cs ih =>
    rcases h.1.cell?_apply hk with hc | ⟨_, _, hnone, _⟩ | ⟨_, _, _, he, _⟩
    · exact ih h.2 hc
    · cases hnone
    · cases he

/-- Only its declaration gives a variable its first content. -/
theorem uninitialised_stays (h : AreLawful F cs) (hk : cell? F i x = some ⟨none, b⟩)
    (hno : ∀ v, initialised i x b v ∉ cs) : cell? (replay F cs) i x = some ⟨none, b⟩ := by
  induction cs generalizing F with
  | nil => exact hk
  | cons c cs ih =>
    rcases h.1.cell?_apply hk with hc | ⟨v, he, _⟩ | ⟨_, _, _, he, _⟩
    · exact ih h.2 hc fun v hv => hno v (List.mem_cons_of_mem _ hv)
    · exact absurd (he ▸ List.mem_cons_self) (hno v)
    · cases he

/-- What has a content is not initialised. -/
theorem not_initialised (h : AreLawful F cs) (hk : cell? F i x = some ⟨some v, b⟩) :
    (i, x) ∉ cs.filterMap initialised? := by
  intro hm
  obtain ⟨c, hc, hci⟩ := List.mem_filterMap.1 hm
  obtain ⟨before, after, rfl⟩ := List.append_of_mem hc
  obtain ⟨hbefore, hrest⟩ := areLawful_append.1 h
  obtain ⟨w, hw⟩ := content_stays hbefore hk
  cases c with
  | initialised j y b' v =>
    obtain ⟨rfl, rfl⟩ := Prod.mk.inj (Option.some.inj hci)
    exact absurd (hw.symm.trans hrest.1) (by simp)
  | _ => cases hci

/-- A variable is initialised at most once. -/
theorem initialised_nodup (h : AreLawful F cs) : (cs.filterMap initialised?).Nodup := by
  induction cs generalizing F with
  | nil => exact List.nodup_nil
  | cons c cs ih =>
    rw [List.filterMap_cons]
    cases c with
    | initialised i x b v =>
      exact List.nodup_cons.2 ⟨not_initialised h.2 (cell?_update_self h.1), ih h.2⟩
    | _ => exact ih h.2

end Change

/-! ## The history of a run -/

/-- What follows the end of a piece of code, if nothing has interrupted it. -/
def Outcome.next {σ α β : Type} (o : Outcome σ α) (f : α → σ → List β) : List β :=
  match o with
  | .done a s => f a s
  | _ => []

namespace Eval

open Change

/-- Makes a frame and goes on in it. -/
def entering (f : Except RunError Frame) (s : Store) (rest : FrameId → Store → List Change) :
    List Change :=
  match f with
  | .ok f => made f :: rest s.frames.size (s.newFrame f).2
  | .error _ => []

/-- Assigns to the variable that the name means. -/
def assigning (s : Store) (env : FrameId) (x : Name) (v : Value) : List Change :=
  match s.setTarget env x with
  | .ok i => [assigned i x v]
  | .error _ => []

/-- Initialises the variable that the name means. -/
def initialising (s : Store) (env : FrameId) (x : Name) (d : DeclKind) (v : Value) : List Change :=
  match s.initialTarget env x with
  | .ok i => [initialised i x (d == .const) v]
  | .error _ => []

/-- The changes that the run of a piece of code makes within a number of steps. -/
def history : Nat → Task → Store → List Change
  | 0, _, _ => []
  | n + 1, .expr e env, s =>
    match e with
    | .unary _ _ e | .signal _ _ (some e) | .signalIs _ e _ | .signalValue _ e =>
      history n (.expr e env) s
    | .binary _ op l r =>
      history n (.expr l env) s ++ (expr n l env s).next fun v t =>
        if (op = .and ∧ ¬ v.truthy) ∨ (op = .or ∧ v.truthy) then [] else history n (.expr r env) t
    | .call _ f args =>
      history n (.expr f env) s ++ (expr n f env s).next fun v t =>
        history n (.exprs args env) t ++ (exprs n args env t).next fun vs u =>
          history n (.call v vs) u
    | .array _ es => history n (.exprs es env) s
    | .index _ b i =>
      history n (.expr b env) s ++ (expr n b env s).next fun _ t => history n (.expr i env) t
    | _ => []
  | n + 1, .exprs es env, s =>
    match es with
    | [] => []
    | e :: es =>
      history n (.expr e env) s ++ (expr n e env s).next fun _ t => history n (.exprs es env) t
  | n + 1, .call f args, s =>
    match f with
    | .closure i => history n (.callClosure (s.closures[i]?.getD default) args) s
    | _ => []
  | n + 1, .callClosure c args, s =>
    entering (callFrame c args) s fun env t => history n (.stmts c.body.statements env) t
  | n + 1, .stmts ss env, s =>
    match ss with
    | [] => []
    | x :: ss =>
      history n (.stmt x env) s ++ (stmt n x env s).next fun _ t => history n (.stmts ss env) t
  | n + 1, .block b env, s =>
    match b.lexicals with
    | [] => history n (.stmts b.statements env) s
    | ls =>
      entering (bindLexicals ⟨some env, []⟩ ls) s fun env t => history n (.stmts b.statements env) t
  | n + 1, .stmt x env, s =>
    match x with
    | .declaration _ _ .var none => []
    | .declaration _ x .var (some e) =>
      history n (.expr e env) s ++ (expr n e env s).next fun v t => assigning t env x v
    | .declaration _ x d none => initialising s env x d .undefined
    | .declaration _ x d (some e) =>
      history n (.expr e env) s ++ (expr n e env s).next fun v t => initialising t env x d v
    | .assignment _ x e =>
      history n (.expr e env) s ++ (expr n e env s).next fun v t => history n (.assign x v env) t
    | .expression _ e | .ret _ (some e) => history n (.expr e env) s
    | .block b => history n (.block b env) s
    | .branch _ c b e =>
      history n (.expr c env) s ++ (expr n c env s).next fun v t =>
        if v.truthy then history n (.block b env) t
        else match e with
          | none => []
          | some b => history n (.block b env) t
    | .loop _ h b => history n (.loop h b env) s
    | _ => []
  | n + 1, .assign x v env, s =>
    match x with
    | .name _ x => assigning s env x v
    | .index _ b i =>
      history n (.expr b env) s ++ (expr n b env s).next fun _ t => history n (.expr i env) t
    | _ => []
  | n + 1, .loop h b env, s =>
    match h with
    | .whileTrue _ c => history n (.whileLoop c b env) s
    | .counting _ i c u =>
      match copied? i, i with
      | some (x, d), some i =>
        entering (Frame.define ⟨some env, []⟩ x none (d == .const)) s fun first t =>
          history n (.stmt i first) t ++ (stmt n i first t).next fun _ r =>
            copied first :: history n (.countingLoop true c u b (r.copy first).1) (r.copy first).2
      | _, some i =>
        history n (.stmt i env) s ++ (stmt n i env s).next fun _ t =>
          history n (.countingLoop false c u b env) t
      | _, none => history n (.countingLoop false c u b env) s
    | .forOf _ x d e =>
      history n (.expr e env) s ++ (expr n e env s).next fun v t =>
        (sequenceOf v t).next fun q r => history n (.forOfLoop q 0 x d b env) r
    | .unknown .. => []
  | n + 1, .whileLoop c b env, s =>
    history n (.expr c env) s ++ (expr n c env s).next fun v t =>
      if v.truthy then
        history n (.block b env) t ++ (goesOn (block n b env) t).next fun again r =>
          if again then history n (.whileLoop c b env) r else []
      else []
  | n + 1, .countingLoop copies c u b env, s =>
    history n (.condition c env) s ++ (condition n c env s).next fun go t =>
      if go then
        history n (.block b env) t ++ (goesOn (block n b env) t).next fun again r =>
          if again then
            if copies then
              copied env :: (history n (.update u (r.copy env).1) (r.copy env).2 ++
                (update n u (r.copy env).1 (r.copy env).2).next fun _ z =>
                  history n (.countingLoop true c u b (r.copy env).1) z)
            else
              history n (.update u env) r ++ (update n u env r).next fun _ z =>
                history n (.countingLoop false c u b env) z
          else []
      else []
  | n + 1, .condition c env, s =>
    match c with
    | none => []
    | some e => history n (.expr e env) s
  | n + 1, .update u env, s =>
    match u with
    | none => []
    | some x => history n (.stmt x env) s
  | n + 1, .forOfLoop q i x d b env, s =>
    match q.at? s i with
    | none => []
    | some v =>
      (match d with
        | some .letVar => entering (Frame.define ⟨some env, []⟩ x (some v) false) s fun _ _ => []
        | some .const => entering (Frame.define ⟨some env, []⟩ x (some v) true) s fun _ _ => []
        | _ => assigning s env x v) ++
      (elementFrame x d v env s).next fun inner t =>
        history n (.block b inner) t ++ (goesOn (block n b inner) t).next fun again r =>
          if again then history n (.forOfLoop q (i + 1) x d b env) r else []

end Eval

end FlatScope
