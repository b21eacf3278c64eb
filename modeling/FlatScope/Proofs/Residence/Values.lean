import FlatScope.Proofs.Regional.Loops
import FlatScope.Proofs.Regional.Values
import FlatScope.Proofs.Residence.Follows

/-!
# Values in both programs

The program and the machine compute with the same values. Operators, arrays and the functions that
every program can call keep the two stores alike (`Joint.Matches.moves`), so the machine follows
each of them.
-/

namespace FlatScope

open Process

namespace Regional.Joint

variable {α β : Type} {i : Nat} {j j' : Joint} {v w : Value}

/-! ## Ends -/

/-- The states have gone on; of a result holds `φ`, and of an interruption `ι`. -/
structure Ends (j : Joint) (φ : Joint → α → Prop) (ι : Joint → Interrupt → Prop)
    (r : Except Interrupt α) (j' : Joint) : Prop where
  agree : j'.Matches
  grows : j.Grows j'
  result : ∀ a, r = .ok a → φ j' a
  stop : ∀ w, r = .error w → ι j' w

/-- An interruption by an error. -/
def Fails (_ : Joint) (w : Interrupt) : Prop := ∃ e, w = .failed e

/-- A value of the program, which is no signal. -/
abbrev Has (j : Joint) (v : Value) : Prop := v.Like j.closure v

/-- Values of the program. -/
abbrev HasAll (j : Joint) (vs : List Value) : Prop := Value.AreLike j.closure vs vs

/-- Yields a value, or fails. -/
abbrev Yields (j : Joint) : Except Interrupt Value → Joint → Prop := Ends j Has Fails

/-- Does something, or fails. -/
abbrev Does (j : Joint) : Except Interrupt Unit → Joint → Prop := Ends j (fun _ _ => True) Fails

variable {φ : Joint → α → Prop} {ψ : Joint → β → Prop} {ι ι' : Joint → Interrupt → Prop}

/-- An end with a result. -/
theorem Ends.ok {a : α} (hj' : j'.Matches) (hle : j.Grows j') (ha : φ j' a) :
    Ends j φ ι (.ok a) j' where
  agree := hj'
  grows := hle
  result := by
    rintro _ ⟨⟩
    exact ha
  stop := by
    rintro _ ⟨⟩

/-- An end by an interruption. -/
theorem Ends.error {q : Interrupt} (hj' : j'.Matches) (hle : j.Grows j') (hq : ι j' q) :
    Ends j φ ι (.error q) j' where
  agree := hj'
  grows := hle
  result := by
    rintro _ ⟨⟩
  stop := by
    rintro _ ⟨⟩
    exact hq

/-- An end of a later piece is one of the piece that it belongs to. -/
theorem Ends.before {r : Except Interrupt α} {j'' : Joint} (h : Ends j' φ ι r j'')
    (hle : j.Grows j') : Ends j φ ι r j'' :=
  ⟨h.agree, hle.trans h.grows, h.result, h.stop⟩

/-- What holds of the ends can be weakened. -/
theorem Ends.imp {φ' : Joint → α → Prop} {r : Except Interrupt α} (h : Ends j φ ι r j')
    (hφ : ∀ a, φ j' a → φ' j' a) (hι : ∀ q, ι j' q → ι' j' q) : Ends j φ' ι' r j' :=
  ⟨h.agree, h.grows, fun a ha => hφ a (h.result a ha), fun q hq => hι q (h.stop q hq)⟩

namespace Follows

variable {x : Nat → FlatScope.Run α} {y : Nat → Run α}

/-- A piece that begins later. -/
theorem before (h : Follows i x y j' (Ends j' φ ι)) (hle : j.Grows j') :
    Follows i x y j' (Ends j φ ι) :=
  h.imp fun _ _ hq => hq.before hle

/-- Both pieces go on with the results of the first parts. -/
theorem next {f : Nat → α → FlatScope.Run β} {g : Nat → α → Run β}
    (h : Follows i x y j (Ends j φ ι)) (hι : ∀ j' q, ι j' q → ι' j' q)
    (hfg : ∀ a j', j'.Matches → j.Grows j' → φ j' a →
      Follows i (f · a) (g · a) j' (Ends j' ψ ι')) :
    Follows i (fun n => x n >>= f n) (fun k => y k >>= g k) j (Ends j ψ ι') :=
  h.bind (fun q j' hq => .error hq.agree hq.grows (hι j' q (hq.stop q rfl)))
    fun a j' hq => (hfg a j' hq.agree hq.grows (hq.result a rfl)).before hq.grows

end Follows

/-! ## Steps on the stores -/

/-- The states after a step that keeps the stores alike. -/
theorem Matches.moves (hj : j.Matches) {s t : Store}
    (h : Store.Moves j.closure j.store j.machine.store s t) :
    ({ j with store := s, machine := { j.machine with store := t } } : Joint).Matches ∧
      j.Grows { j with store := s, machine := { j.machine with store := t } } := by
  have hclosure :
      ({ j with store := s, machine := { j.machine with store := t } } : Joint).closure =
        j.closure := by
    funext c
    rw [closure, closure, h.left.2]
  have hgrows : j.Grows { j with store := s, machine := { j.machine with store := t } } :=
    ⟨⟨.of_eq h.left.1 h.left.2, fun _ => .rfl, fun _ => .rfl⟩, Nat.le_refl _,
      fun hf hl => absurd (hj.placed hl).2.1 (Nat.not_lt.2 hf)⟩
  refine ⟨?_, hgrows⟩
  have hcell : ∀ f x, s.cell? f x = j.store.cell? f x := fun f x => by
    rw [Store.cell?, Store.cell?, h.left.1]
  exact {
    store := by
      rw [hclosure]
      exact h.like
    outermost := by
      obtain ⟨a, b, ha, hb, hab⟩ := hj.outermost
      refine ⟨a, b, ?_, ?_, hclosure ▸ hab⟩
      · rw [← ha]
        exact congrArg (·[0]?) h.left.1
      · rw [← hb]
        exact congrArg (·[0]?) h.right.1
    nested := hj.nested.of_eq h.left.1
    placed := fun hl => by
      obtain ⟨hf, hlt, hact⟩ := hj.placed hl
      refine ⟨hf, ?_, hact⟩
      change _ < s.frames.size
      rw [h.left.1]
      exact hlt
    agrees := fun hl hc => by
      rw [hclosure]
      exact hj.agrees hl ((hcell ..).symm.trans hc)
    injective := hj.injective
    closures := by
      change s.closures.size = _
      rw [h.left.2]
      exact hj.closures
    represents := fun {i C D} hC hD => by
      change s.closures[i]? = some C at hC
      rw [h.left.2] at hC
      exact (hj.represents hC hD).keeps (hgrows.keeps hj) }

/-- A step on both stores that yields the same. -/
theorem store_follows (hj : j.Matches) {x y : FlatScope.Run α} {r : Except Interrupt α}
    {s t : Store} (hx : x j.store = .ended r s) (hy : y j.machine.store = .ended r t)
    (h : Store.Moves j.closure j.store j.machine.store s t)
    (hφ : ∀ a, r = .ok a → ∀ j' : Joint, j'.closure = j.closure → φ j' a)
    (hι : ∀ q, r = .error q → ∃ e, q = .failed e) :
    Follows i (fun _ => x) (fun _ => onStore y) j (Ends j φ Fails) := by
  obtain ⟨hj', hgrows⟩ := hj.moves h
  refine .now (r := r) hx ?_ ⟨hj', hgrows, fun a ha => hφ a ha _ ?_, fun q hq => hι q hq⟩
  · rw [onStore, hy]
    cases r <;> rfl
  · funext c
    rw [closure, closure, h.left.2]

/-- A value of a store that is alike is a value of both. -/
theorem has_of_likeResult {r r' : Except RunError Value} (h : Value.LikeResult j.closure r r') :
    r = r' ∧ ∀ v, r = .ok v → j.Has v := by
  cases h with
  | @ok v w hv =>
    obtain rfl := eq_of_like hv
    refine ⟨rfl, ?_⟩
    rintro _ ⟨⟩
    exact hv
  | error e => exact ⟨rfl, by rintro _ ⟨⟩⟩

/-- A value that is read in both stores. -/
theorem readStore_follows (hj : j.Matches) {x : Store → Except RunError Value}
    (h : Value.LikeResult j.closure (x j.store) (x j.machine.store)) :
    Follows i (fun _ => .read x) (fun _ => onStore (.read x)) j (Yields j) := by
  obtain ⟨heq, hhas⟩ := has_of_likeResult h
  refine store_follows hj (read_eq x _) ((read_eq x _).trans (by rw [← heq])) hj.store.moves
    (fun v hv j' hj' => ?_) fun q hq => ?_
  · cases hx : x j.store with
    | ok u =>
      rw [hx] at hv
      cases hv
      rw [Has, hj']
      exact hhas _ hx
    | error e =>
      rw [hx] at hv
      cases hv
  · cases hx : x j.store with
    | ok u =>
      rw [hx] at hq
      cases hq
    | error e =>
      rw [hx] at hq
      cases hq
      exact ⟨e, rfl⟩

/-- An operator, which yields a plain value. -/
theorem operate_follows (hj : j.Matches) {x : Store → Except RunError Value}
    (h : x j.store = x j.machine.store) (hp : Store.IsPlainResult (x j.store)) :
    Follows i (fun _ => Eval.operate x) (fun _ => onStore (Eval.operate x)) j (Yields j) := by
  cases hx : x j.store with
  | error e =>
    refine store_follows (r := .error (.failed e)) hj (bind_error (by rw [read_eq, hx]; rfl))
      (bind_error (by rw [read_eq, ← h, hx]; rfl)) hj.store.moves (by rintro _ ⟨⟩) ?_
    rintro _ ⟨⟩
    exact ⟨e, rfl⟩
  | ok v =>
    obtain ⟨hsame, hv, hmoves⟩ := hj.store.identify (hp v hx)
    refine store_follows (r := .ok (j.store.identify v).1) hj
      ((bind_ok (by rw [read_eq, hx]; rfl)).trans rfl)
      ((bind_ok (by rw [read_eq, ← h, hx]; rfl)).trans (by rw [hsame]; rfl)) hmoves ?_
      (by rintro _ ⟨⟩)
    rintro _ ⟨⟩ j' -
    exact .plain hv

/-- A value is the wrong one. -/
theorem failWith_follows (hj : j.Matches) (e : Text → RunError) (hv : j.Has v) :
    Follows i (fun _ => Eval.failWith e v) (fun _ => onStore (Eval.failWith e v)) j
      (Ends j φ Fails) := by
  have hrender := hj.store.render hv
  cases hs : v.render j.store with
  | error d =>
    refine store_follows (r := .error (.failed d)) hj
      (bind_error (x := Process.read fun s => v.render s) (by rw [read_eq, hs]; rfl))
      (bind_error (x := Process.read fun s => v.render s) (by rw [read_eq, ← hrender, hs]; rfl))
      hj.store.moves (by rintro _ ⟨⟩) ?_
    rintro _ ⟨⟩
    exact ⟨d, rfl⟩
  | ok t =>
    refine store_follows (r := .error (.failed (e t))) hj
      ((bind_ok (x := Process.read fun s => v.render s) (by rw [read_eq, hs]; rfl)).trans rfl)
      ((bind_ok (x := Process.read fun s => v.render s)
        (by rw [read_eq, ← hrender, hs]; rfl)).trans rfl)
      hj.store.moves (by rintro _ ⟨⟩) ?_
    rintro _ ⟨⟩
    exact ⟨e t, rfl⟩

/-- An operator with one operand. -/
theorem unary_follows (hj : j.Matches) (op : UnaryOp) (hv : j.Has v) :
    Follows i (fun _ => Eval.operate fun s => v.unary s op)
      (fun _ => onStore (Eval.operate fun s => v.unary s op)) j (Yields j) :=
  operate_follows hj (hj.store.unary op hv) (Store.isPlainResult_unary op)

/-- An operator with two operands. Two closures are equal in both programs or in none. -/
theorem binary_follows (hj : j.Matches) (op : BinaryOp) (hv : j.Has v) (hw : j.Has w) :
    Follows i (fun _ => Eval.operate fun s => v.binary s op w)
      (fun _ => onStore (Eval.operate fun s => v.binary s op w)) j (Yields j) :=
  operate_follows hj (hj.store.binary closure_injective op hv hw) (Store.isPlainResult_binary op)

/-- A new array. -/
theorem array_follows (hj : j.Matches) {vs : List Value} (hv : j.HasAll vs) :
    Follows i (fun _ => .make fun s => s.newArray vs.toArray)
      (fun _ => onStore (.make fun s => s.newArray vs.toArray)) j (Yields j) := by
  have hvs : Value.AreLike j.closure vs.toArray.toList vs.toArray.toList := hv
  obtain ⟨hsame, hmoves⟩ := hj.store.newArray hvs
  refine store_follows (r := .ok (j.store.newArray vs.toArray).1) hj rfl
    (by rw [hsame]; rfl) hmoves ?_ (by rintro _ ⟨⟩)
  rintro _ ⟨⟩ j' -
  exact .plain rfl

/-- The element of an array or text. -/
theorem element_follows (hj : j.Matches) (hv : j.Has v) (hw : j.Has w) :
    Follows i (fun _ => .read fun s => v.element s w)
      (fun _ => onStore (.read fun s => v.element s w)) j (Yields j) :=
  readStore_follows hj (hj.store.element hv hw)

/-- An element is assigned to. -/
theorem setElement_follows (hj : j.Matches) {b u : Value} (hv : j.Has v) :
    Follows i
      (fun _ => .changeAt (fun _ => b.elementTarget u) fun (id, i) s => s.setElement id i v)
      (fun _ => onStore (.changeAt (fun _ => b.elementTarget u) fun (id, i) s =>
        s.setElement id i v)) j (Does j) := by
  cases ht : b.elementTarget u with
  | error e =>
    refine store_follows (r := .error (.failed e)) hj rfl rfl hj.store.moves (by rintro _ ⟨⟩) ?_
    rintro _ ⟨⟩
    exact ⟨e, rfl⟩
  | ok target =>
    exact store_follows (r := .ok ()) hj rfl rfl (hj.store.setElement target.1 target.2 hv)
      (fun _ _ _ _ => trivial) (by rintro _ ⟨⟩)

/-- The sequence that a loop goes over. -/
theorem sequence_follows (hj : j.Matches) (hv : j.Has v) :
    Follows i (fun _ => Eval.sequenceOf v) (fun _ => onStore (Eval.sequenceOf v)) j
      (Ends j (fun _ _ => True) Fails) := by
  have hok : ∀ {q : Eval.Sequence}, Eval.sequenceOf v = (Pure.pure q : FlatScope.Run _) →
      Follows i (fun _ => Eval.sequenceOf v) (fun _ => onStore (Eval.sequenceOf v)) j
        (Ends j (fun _ _ => True) Fails) := fun {q} hq => by
    rw [hq]
    exact store_follows (r := .ok q) hj rfl rfl hj.store.moves (fun _ _ _ _ => trivial)
      (by rintro _ ⟨⟩)
  cases v with
  | array id => exact hok rfl
  | text t => exact hok rfl
  | _ => exact failWith_follows hj .notIterable hv

/-- An element, if there is one. -/
theorem lookAt_follows (hj : j.Matches) (q : Eval.Sequence) (k : Nat) :
    Follows i (fun _ => Eval.lookAt q k) (fun _ => onStore (Eval.lookAt q k)) j
      (Ends j (fun j' o => ∀ v, o = some v → j'.Has v) Fails) := by
  obtain ⟨hsame, hhas⟩ : q.at? j.store k = q.at? j.machine.store k ∧
      ∀ v, q.at? j.store k = some v → j.Has v := by
    cases q with
    | array id =>
      have helem := (hj.store.elements id).getElem? k
      rw [Array.getElem?_toList, Array.getElem?_toList] at helem
      rw [Eval.Sequence.at?, Eval.Sequence.at?]
      rcases helem with ⟨hs, ht⟩ | ⟨v, v', hs, ht, hv⟩
      · rw [hs, ht]
        exact ⟨rfl, by rintro _ ⟨⟩⟩
      · obtain rfl := eq_of_like hv
        rw [hs, ht]
        refine ⟨rfl, ?_⟩
        rintro _ ⟨⟩
        exact hv
    | text t =>
      refine ⟨rfl, fun v hv => ?_⟩
      rw [Eval.Sequence.at?, Option.map_eq_some_iff] at hv
      obtain ⟨c, -, rfl⟩ := hv
      exact .plain rfl
  refine store_follows (r := .ok (q.at? j.store k)) hj rfl (by rw [hsame]; rfl) hj.store.moves
    ?_ (by rintro _ ⟨⟩)
  rintro _ ⟨⟩ j' hj' v hv
  rw [Has, hj']
  exact hhas v hv

/-! ## Calls -/

/-- The machine follows the calls of closures that end within a number of steps. -/
def Calls (i : Nat) : Prop := ∀ ⦃j : Joint⦄ ⦃C : FlatScope.Closure⦄ ⦃D : Closure⦄
  ⦃args : List Value⦄, j.Matches → j.Represents C D → j.HasAll args →
    Follows i (fun n => Eval.callClosure n C args) (fun k => callClosure k D args) j (Yields j)

/-- What a function that every program can call ends with. -/
theorem builtin_ended {b : Builtin} {s : Store} {args : List Value} {r : Except RunError Value}
    (h : (b.call s args).1 = r) : (match b.call s args with
      | (.ok v, s) => Outcome.done v s
      | (.error e, s) => .interrupted (.failed e) s) = .ended (raised r) (b.call s args).2 := by
  generalize b.call s args = c at h ⊢
  obtain ⟨r', s'⟩ := c
  obtain rfl : r' = r := h
  cases r' <;> rfl

/-- A call of a function that every program can call. -/
theorem builtin_follows (hj : j.Matches) (b : Builtin) {args : List Value}
    (ha : j.HasAll args) :
    Follows i (fun _ s => match b.call s args with
        | (.ok v, s) => .done v s
        | (.error e, s) => .interrupted (.failed e) s)
      (fun _ => onStore fun s => match b.call s args with
        | (.ok v, s) => .done v s
        | (.error e, s) => .interrupted (.failed e) s) j (Yields j) := by
  obtain ⟨hr, hmoves⟩ := hj.store.builtin b ha
  obtain ⟨heq, hhas⟩ := has_of_likeResult hr
  cases hs : (b.call j.store args).1 with
  | ok v =>
    refine store_follows (r := .ok v) hj ?_ ?_ hmoves ?_ (by rintro _ ⟨⟩)
    · exact builtin_ended hs
    · exact builtin_ended (heq ▸ hs)
    · rintro _ ⟨⟩ j' hj'
      rw [Has, hj']
      exact hhas v hs
  | error e =>
    refine store_follows (r := .error (.failed e)) hj ?_ ?_ hmoves (by rintro _ ⟨⟩) ?_
    · exact builtin_ended hs
    · exact builtin_ended (heq ▸ hs)
    · rintro _ ⟨⟩
      exact ⟨e, rfl⟩

/-- A call of a value. -/
theorem call_follows (h : Calls i) (hj : j.Matches) (hv : j.Has v) {args : List Value}
    (ha : j.HasAll args) :
    Follows i (fun n => Eval.call n v args) (fun k => call k v args) j (Yields j) := by
  cases hv with
  | @closure c d hc =>
    rw [closure] at hc
    split at hc
    · rename_i hlt
      have hC := Array.getElem?_eq_getElem hlt
      have hD := Array.getElem?_eq_getElem (hj.closures ▸ hlt)
      exact .leads (Eval.leads_closure hC args) (World.leads_closure hD args)
        (h hj (hj.represents hC hD) ha)
    · cases hc
  | plain hplain =>
    cases v with
    | builtin b => exact .steps rfl (fun _ => rfl) (fun _ => rfl) (builtin_follows hj b ha)
    | closure => cases hplain
    | _ =>
      exact .steps rfl (fun _ => rfl) (fun _ => rfl)
        (failWith_follows hj .notCallable (.plain hplain))

end Regional.Joint

end FlatScope
