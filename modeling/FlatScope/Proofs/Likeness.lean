import FlatScope.Value.Builtin
import FlatScope.Value.Operator
import Mathlib.Data.List.Forall2

/-!
# Values up to the numbers of closures

Two programs that do the same may make different closures, so their values agree only up to the
numbers of the closures: `v.Like κ w` says that `w` is `v` with every closure replaced as `κ` says,
and that `v` is no signal. Nothing that a program can do with its values, but for calling them,
tells stores apart whose arrays agree in this way (`Store.Like`).
-/

namespace FlatScope

variable {κ κ' : Nat → Option Nat}

/-! ## Values -/

namespace Value

/-- Neither a closure nor a signal. -/
def isPlain : Value → Bool
  | .closure _ | .noSignal | .signal .. => false
  | _ => true

/-- The same value but for the numbers of closures. -/
inductive Like (κ : Nat → Option Nat) : Value → Value → Prop
  | closure {c d : Nat} (h : κ c = some d) : Like κ (.closure c) (.closure d)
  | plain {v : Value} (h : v.isPlain) : Like κ v v

/-- The same values but for the numbers of closures. -/
abbrev AreLike (κ : Nat → Option Nat) : List Value → List Value → Prop := List.Forall₂ (Like κ)

/-- The same result but for the numbers of closures, or the same error. -/
inductive LikeResult (κ : Nat → Option Nat) :
    Except RunError Value → Except RunError Value → Prop
  | ok {v w : Value} (h : v.Like κ w) : LikeResult κ (.ok v) (.ok w)
  | error (e : RunError) : LikeResult κ (.error e) (.error e)

variable {v w v' w' : Value}

/-- Values that are alike stay so when more closures correspond. -/
theorem Like.mono (h : v.Like κ w) (hκ : ∀ {c d}, κ c = some d → κ' c = some d) :
    v.Like κ' w := by
  cases h with
  | closure h => exact .closure (hκ h)
  | plain h => exact .plain h

theorem AreLike.mono {vs ws : List Value} (h : AreLike κ vs ws)
    (hκ : ∀ {c d}, κ c = some d → κ' c = some d) : AreLike κ' vs ws :=
  List.Forall₂.imp (fun _ _ h => h.mono hκ) h

/-- Like values count alike as conditions. -/
theorem Like.truthy (h : v.Like κ w) : v.truthy = w.truthy := by
  cases h <;> rfl

theorem Like.toInteger (h : v.Like κ w) : v.toInteger = w.toInteger := by
  cases h <;> rfl

theorem Like.toIndex? (h : v.Like κ w) : v.toIndex? = w.toIndex? := by
  cases h <;> rfl

/-- Like values name the same place in an array. -/
theorem Like.elementTarget (hv : v.Like κ w) (hp : v'.Like κ w') :
    v.elementTarget v' = w.elementTarget w' := by
  cases hv <;> simp only [Value.elementTarget, hp.toIndex?]

theorem Like.undefined : Like κ .undefined .undefined := .plain rfl

/-- The first argument of a call, or the lack of one. -/
theorem AreLike.head {vs ws : List Value} (h : AreLike κ vs ws) :
    (vs.head?.getD .undefined).Like κ (ws.head?.getD .undefined) := by
  cases h with
  | nil => exact .undefined
  | cons h _ => exact h

theorem AreLike.tail {vs ws : List Value} (h : AreLike κ vs ws) : AreLike κ vs.tail ws.tail := by
  cases h with
  | nil => exact .nil
  | cons _ h => exact h

/-- Elements at one position. -/
theorem AreLike.getElem? {vs ws : List Value} (h : AreLike κ vs ws) (i : Nat) :
    vs[i]? = none ∧ ws[i]? = none ∨ ∃ v w, vs[i]? = some v ∧ ws[i]? = some w ∧ v.Like κ w := by
  induction h generalizing i with
  | nil => exact .inl ⟨rfl, rfl⟩
  | cons h _ ih =>
    cases i with
    | zero => exact .inr ⟨_, _, rfl, rfl, h⟩
    | succ i => exact ih i

theorem AreLike.set {vs ws : List Value} (h : AreLike κ vs ws) (i : Nat) (hv : v.Like κ w) :
    AreLike κ (vs.set i v) (ws.set i w) := by
  induction h generalizing i with
  | nil => exact .nil
  | cons h hs ih =>
    cases i with
    | zero => exact .cons hv hs
    | succ i => exact .cons h (ih i)

end Value

/-- A computation that yields the same for all pairs of elements yields the same for all of them. -/
theorem mapM_congr_forall₂ {α β γ ε : Type} {R : α → β → Prop} {f : α → Except ε γ}
    {g : β → Except ε γ} {xs : List α} {ys : List β} (h : List.Forall₂ R xs ys)
    (hfg : ∀ x y, R x y → f x = g y) : xs.mapM f = ys.mapM g := by
  induction h with
  | nil => rfl
  | cons h _ ih => rw [List.mapM_cons, List.mapM_cons, hfg _ _ h, ih]

/-! ## Stores -/

/-- Stores with the same arrays but for the numbers of closures. -/
structure Store.Like (κ : Nat → Option Nat) (s t : Store) : Prop where
  size : s.arrays.size = t.arrays.size
  elements : ∀ id, Value.AreLike κ (s.elements id).toList (t.elements id).toList
  nans : s.nans = t.nans
  printed : s.printed = t.printed

/-- A change of two stores that keeps them alike and concerns no variables and no closures. -/
structure Store.Moves (κ : Nat → Option Nat) (s t s' t' : Store) : Prop where
  like : s'.Like κ t'
  left : s'.frames = s.frames ∧ s'.closures = s.closures
  right : t'.frames = t.frames ∧ t'.closures = t.closures

namespace Store

variable {s t : Store} {v w v' w' : Value}

theorem Like.mono (h : s.Like κ t) (hκ : ∀ {c d}, κ c = some d → κ' c = some d) : s.Like κ' t :=
  ⟨h.size, fun id => (h.elements id).mono hκ, h.nans, h.printed⟩

theorem Like.moves (h : s.Like κ t) : Moves κ s t s t := ⟨h, ⟨rfl, rfl⟩, ⟨rfl, rfl⟩⟩

/-! ### Reading -/

/-- Like values have the same text in like stores. -/
theorem Like.textFrom (h : s.Like κ t) (fuel : Nat) (hv : v.Like κ w) :
    v.textFrom s fuel = w.textFrom t fuel := by
  induction fuel generalizing v w with
  | zero => rfl
  | succ fuel ih =>
    cases hv with
    | closure => rfl
    | plain hp =>
      cases v with
      | array id =>
        simp only [Value.textFrom, mapM_congr_forall₂ (h.elements id) fun _ _ hv => ih hv]
      | closure | noSignal | signal => cases hp
      | _ => rfl

/-- Like values print alike. -/
theorem Like.render (h : s.Like κ t) (hv : v.Like κ w) : v.render s = w.render t := by
  rw [Value.render, Value.render, Value.depth, Value.depth, h.size]
  exact h.textFrom _ hv

/-- Equality with a plain value does not look at the store. -/
theorem equal_of_isPlain {v w : Value} (hv : v.isPlain) : v.equal s w = v.equal t w := by
  cases v with
  | closure | noSignal | signal => cases hv
  | _ => cases w <;> rfl

theorem equal_closure {c : Nat} : (Value.closure c).equal s w = .ok (Value.closure c = w) := by
  cases w <;> rfl

theorem equal_of_closure {c : Nat} : w.equal s (.closure c) = .ok (w = .closure c) := by
  cases w <;> rfl

/-- Values are equal if those are that they are like. -/
theorem equal_like (hκ : ∀ {c d e}, κ c = some e → κ d = some e → c = d) (hv : v.Like κ w)
    (hv' : v'.Like κ w') : v.equal s v' = w.equal t w' := by
  cases hv with
  | closure h =>
    rw [equal_closure, equal_closure]
    cases hv' with
    | closure h' =>
      simp only [Value.closure.injEq, Except.ok.injEq, decide_eq_decide]
      exact ⟨fun he => Option.some.inj (h.symm.trans (he ▸ h')), fun he => hκ h (he ▸ h')⟩
    | plain hp =>
      cases v' with
      | closure => cases hp
      | _ => simp
  | plain hp =>
    cases hv' with
    | closure h' =>
      rw [equal_of_closure, equal_of_closure]
      cases v with
      | closure => cases hp
      | _ => simp
    | plain hp' => exact equal_of_isPlain hp

/-- An operator refuses values in the same words. -/
theorem Like.refuse (h : s.Like κ t) (op : BinaryOp) (hv : v.Like κ w) (hv' : v'.Like κ w') :
    Value.refuse s op v v' = Value.refuse t op w w' := by
  rw [Value.refuse, Value.refuse, h.render hv, h.render hv']

/-- A result that is no closure and no signal. -/
def IsPlainResult (r : Except RunError Value) : Prop := ∀ v, r = .ok v → v.isPlain

theorem IsPlainResult.like {r : Except RunError Value} (h : IsPlainResult r) :
    Value.LikeResult κ r r := by
  cases r with
  | ok v => exact .ok (.plain (h v rfl))
  | error e => exact .error e

theorem IsPlainResult.map {α : Type} {f : α → Value} (hf : ∀ a, (f a).isPlain)
    (r : Except RunError α) : IsPlainResult (f <$> r) := by
  cases r with
  | ok a =>
    rintro _ ⟨⟩
    exact hf a
  | error e => simp [IsPlainResult, Functor.map, Except.map]

theorem isPlainResult_refuse {op : BinaryOp} : IsPlainResult (Value.refuse s op v w) := by
  rw [Value.refuse]
  cases v.render s <;> cases w.render s <;> simp [IsPlainResult, bind, Except.bind, throw,
    throwThe, MonadExceptOf.throw]

theorem isPlainResult_onNumbers (op : BinaryOp) (m n : Number) :
    IsPlainResult (Value.onNumbers op m n) := by
  have h (r : Except Number.Fault Number) : IsPlainResult (Value.ofNumber r) := by
    cases r <;> simp [IsPlainResult, Value.ofNumber, Value.isPlain]
  cases op <;> first
    | exact h _
    | simp [IsPlainResult, Value.onNumbers, Value.isPlain]

/-- Binary operators yield plain values. -/
theorem isPlainResult_binary (op : BinaryOp) : IsPlainResult (v.binary s op w) := by
  have hbool {f : Bool → Bool} (r : Except RunError Bool) :
      IsPlainResult ((fun b => .bool (f b)) <$> r) := IsPlainResult.map (fun _ => rfl) r
  have htext {f : Text → Text} (r : Except RunError Text) :
      IsPlainResult (do return .text (f (← r))) := by
    cases r <;> simp [IsPlainResult, bind, Except.bind, pure, Except.pure, Value.isPlain]
  unfold Value.binary
  split
  · exact IsPlainResult.map (fun _ => rfl) _
  · exact hbool _
  · exact htext _
  · exact htext (f := (· ++ _)) _
  · exact isPlainResult_onNumbers _ _ _
  · split
    iterate 4 exact fun _ h => by cases h; rfl
    exact isPlainResult_refuse
  · exact isPlainResult_refuse

/-- A binary operator yields the same for values that are like. -/
theorem Like.binary (h : s.Like κ t) (hκ : ∀ {c d e}, κ c = some e → κ d = some e → c = d)
    (op : BinaryOp) (hv : v.Like κ w) (hv' : v'.Like κ w') :
    v.binary s op v' = w.binary t op w' := by
  have he := equal_like (s := s) (t := t) hκ hv hv'
  have hr := h.render hv
  have hr' := h.render hv'
  have hf := h.refuse op hv hv'
  cases hv with
  | closure =>
    cases hv' with
    | closure =>
      unfold Value.binary
      cases op <;> simp only [he, hf]
    | plain =>
      unfold Value.binary
      cases op <;> cases v' <;> simp only [he, hf, hr]
  | plain =>
    cases hv' with
    | closure =>
      unfold Value.binary
      cases op <;> cases v <;> simp only [he, hf, hr']
    | plain =>
      unfold Value.binary
      split <;> first
        | rfl
        | simp only [he, hf, hr, hr']

/-- Unary operators yield plain values. -/
theorem isPlainResult_unary (op : UnaryOp) : IsPlainResult (v.unary s op) := by
  cases op with
  | not => simp [IsPlainResult, Value.unary, Value.isPlain]
  | neg =>
    have hthrow (w : Value) : IsPlainResult (do throw (.notNegatable (← w.render s))) := by
      cases w.render s <;> simp [IsPlainResult, bind, Except.bind, throw, throwThe,
        MonadExceptOf.throw]
    cases v with
    | number => simp [IsPlainResult, Value.unary, Value.isPlain]
    | _ => exact hthrow _
  | other => simp [IsPlainResult, Value.unary]

/-- A unary operator yields the same for values that are like. -/
theorem Like.unary (h : s.Like κ t) (op : UnaryOp) (hv : v.Like κ w) :
    v.unary s op = w.unary t op := by
  have hr := h.render hv
  have ht := hv.truthy
  unfold Value.unary
  cases hv with
  | closure => cases op <;> simp only [hr, ht]
  | plain => cases op <;> cases v <;> simp only [hr]

/-- Elements of arrays that are like are like. -/
theorem Like.element (h : s.Like κ t) (hv : v.Like κ w) (hp : v'.Like κ w') :
    Value.LikeResult κ (v.element s v') (w.element t w') := by
  have hthrow {x y : Value} (hx : x.Like κ y) : Value.LikeResult κ
      (do throw (.notIndexable (← x.render s))) (do throw (.notIndexable (← y.render t))) := by
    rw [h.render hx]
    cases y.render t <;> exact .error _
  cases hv with
  | closure hc => exact hthrow (.closure hc)
  | plain hv =>
    cases v with
    | array id =>
      rw [Value.element, Value.element, hp.toIndex?]
      refine .ok ?_
      split
      · next i _ =>
        rw [← Array.getElem?_toList, ← Array.getElem?_toList]
        rcases (h.elements id).getElem? i with ⟨hs, ht⟩ | ⟨x, y, hs, ht, hxy⟩
        · rw [hs, ht]
          exact .undefined
        · rw [hs, ht]
          exact hxy
      · exact .undefined
    | text t =>
      rw [Value.element, Value.element, hp.toIndex?]
      refine .ok (.plain ?_)
      split
      · next i _ => cases t[i]? <;> rfl
      · rfl
    | closure | noSignal | signal => cases hv
    | _ => exact hthrow (.plain hv)

/-! ### Changes -/

/-- A NaN is told from all others on both sides. -/
theorem Like.identify (h : s.Like κ t) (hv : v.isPlain) :
    (s.identify v).1 = (t.identify v).1 ∧ (s.identify v).1.isPlain ∧
      Moves κ s t (s.identify v).2 (t.identify v).2 := by
  unfold Store.identify
  split
  · exact ⟨by rw [h.nans], rfl, ⟨h.size, h.elements, congrArg (· + 1) h.nans, h.printed⟩,
      ⟨rfl, rfl⟩, ⟨rfl, rfl⟩⟩
  · exact ⟨rfl, hv, h.moves⟩

/-- Both sides make an array. -/
theorem Like.newArray (h : s.Like κ t) {vs ws : Array Value}
    (hv : Value.AreLike κ vs.toList ws.toList) :
    (s.newArray vs).1 = (t.newArray ws).1 ∧ Moves κ s t (s.newArray vs).2 (t.newArray ws).2 := by
  refine ⟨congrArg Value.array h.size, ⟨?_, fun id => ?_, h.nans, h.printed⟩, ⟨rfl, rfl⟩,
    ⟨rfl, rfl⟩⟩
  · simp [Store.newArray, h.size]
  · have hid := h.elements id
    simp only [Store.newArray, Store.elements, Array.getElem?_push, ← h.size] at hid ⊢
    split
    · exact hv
    · exact hid

/-- Both sides change the elements of an array in the same way. -/
theorem Like.modifyElements (h : s.Like κ t) (id : Nat) {f g : Array Value → Array Value}
    (hfg : ∀ {xs ys : Array Value}, Value.AreLike κ xs.toList ys.toList →
      Value.AreLike κ (f xs).toList (g ys).toList) :
    Moves κ s t (s.modifyElements id f) (t.modifyElements id g) := by
  refine ⟨⟨?_, fun j => ?_, h.nans, h.printed⟩, ⟨rfl, rfl⟩, ⟨rfl, rfl⟩⟩
  · simpa [Store.modifyElements] using h.size
  · have hj := h.elements j
    simp only [Store.modifyElements, Store.elements, Array.getElem?_modify] at hj ⊢
    split
    · by_cases hlt : j < s.arrays.size
      · rw [Array.getElem?_eq_getElem hlt, Array.getElem?_eq_getElem (h.size ▸ hlt)] at hj ⊢
        exact hfg hj
      · rw [Array.getElem?_eq_none (by omega), Array.getElem?_eq_none (by have := h.size; omega)]
        exact .nil
    · exact hj

/-- The same element set on both sides leaves like stores. -/
theorem Like.setElement (h : s.Like κ t) (id i : Nat) (hv : v.Like κ w) :
    Moves κ s t (s.setElement id i v) (t.setElement id i w) := by
  refine h.modifyElements id fun {xs ys} hxs => ?_
  have hsize : xs.size = ys.size := by simpa using hxs.length_eq
  rw [hsize, Array.toList_setIfInBounds, Array.toList_setIfInBounds, Array.toList_append,
    Array.toList_append]
  refine Value.AreLike.set (List.rel_append hxs ?_) i hv
  rw [Array.toList_replicate, List.forall₂_same]
  intro x hx
  rw [List.eq_of_mem_replicate hx]
  exact .undefined

/-- A range made on both sides leaves like stores. -/
theorem Like.makeRange (h : s.Like κ t) (lo hi : Except RunError Int) :
    Value.LikeResult κ (Builtin.makeRange s lo hi).1 (Builtin.makeRange t lo hi).1 ∧
      Moves κ s t (Builtin.makeRange s lo hi).2 (Builtin.makeRange t lo hi).2 := by
  unfold Builtin.makeRange
  split
  · next lo hi =>
    have hints : Value.AreLike κ (Value.integers lo hi).toList (Value.integers lo hi).toList := by
      refine List.forall₂_same.2 fun v hv => .plain ?_
      obtain ⟨i, rfl⟩ := (Array.mem_ofFn).1 (Array.mem_toList_iff.1 hv)
      rfl
    obtain ⟨hv, hm⟩ := h.newArray hints
    refine ⟨.ok ?_, hm⟩
    rw [hv]
    exact .plain rfl
  · exact ⟨.error _, h.moves⟩
  · exact ⟨.error _, h.moves⟩

theorem Like.refuseBuiltin (h : s.Like κ t) (e : Text → RunError) (hv : v.Like κ w) :
    Value.LikeResult κ (Builtin.refuse s e v) (Builtin.refuse t e w) := by
  rw [Builtin.refuse, Builtin.refuse, h.render hv]
  cases w.render t <;> exact .error _

/-- A function that every program can call does the same on both sides. -/
theorem Like.builtin (h : s.Like κ t) (b : Builtin) {args args' : List Value}
    (ha : Value.AreLike κ args args') :
    Value.LikeResult κ (b.call s args).1 (b.call t args').1 ∧
      Moves κ s t (b.call s args).2 (b.call t args').2 := by
  rw [Builtin.call, Builtin.call, ha.length_eq]
  split
  · cases b with
    | print =>
      rw [Builtin.apply, Builtin.apply, mapM_congr_forall₂ ha fun _ _ hv => h.render hv]
      cases args'.mapM (Value.render t) with
      | ok texts =>
        exact ⟨.ok .undefined, ⟨⟨h.size, h.elements, h.nans, congrArg (_ :: ·) h.printed⟩,
          ⟨rfl, rfl⟩, ⟨rfl, rfl⟩⟩⟩
      | error e => exact ⟨.error e, h.moves⟩
    | push =>
      have hno {e : Text → RunError} {x y : Value} (hx : x.Like κ y) :
          Value.LikeResult κ (Builtin.refuse s e x) (Builtin.refuse t e y) ∧ Moves κ s t s t :=
        ⟨h.refuseBuiltin e hx, h.moves⟩
      rcases ha with _ | @⟨v, w, _, _, hv, _ | ⟨hv', _ | _⟩⟩
      · exact ⟨.ok .undefined, h.moves⟩
      · cases hv with
        | closure hc => exact hno (.closure hc)
        | plain hp => cases v <;> exact hno (.plain hp)
      · cases hv with
        | closure hc => exact hno (.closure hc)
        | plain hp =>
          cases v with
          | array id =>
            rw [Builtin.apply, Builtin.apply, show (s.elements id).size = (t.elements id).size by
              simpa using (h.elements id).length_eq]
            refine ⟨.ok (.plain rfl), h.modifyElements id fun hxs => ?_⟩
            rw [Array.toList_push, Array.toList_push]
            exact List.rel_append hxs (.cons hv' .nil)
          | _ => exact hno (.plain hp)
      · cases hv with
        | closure hc => exact hno (.closure hc)
        | plain hp => cases v <;> exact hno (.plain hp)
    | len =>
      rcases ha with _ | @⟨v, w, _, _, hv, _⟩
      · exact ⟨.ok .undefined, h.moves⟩
      · cases hv with
        | closure hc => exact ⟨h.refuseBuiltin _ (.closure hc), h.moves⟩
        | plain hp =>
          cases v with
          | array id =>
            rw [Builtin.apply, Builtin.apply, show (s.elements id).size = (t.elements id).size by
              simpa using (h.elements id).length_eq]
            exact ⟨.ok (.plain rfl), h.moves⟩
          | text => exact ⟨.ok (.plain rfl), h.moves⟩
          | _ => exact ⟨h.refuseBuiltin _ (.plain hp), h.moves⟩
    | range =>
      rcases ha with _ | ⟨hv, _ | ⟨hv', ha⟩⟩
      · exact ⟨.ok .undefined, h.moves⟩
      · rw [Builtin.apply, Builtin.apply, hv.toInteger]
        exact h.makeRange ..
      · rw [Builtin.apply, Builtin.apply, hv.toInteger, hv'.toInteger]
        exact h.makeRange ..
    | str =>
      rcases ha with _ | ⟨hv, ha⟩
      · exact ⟨.ok .undefined, h.moves⟩
      · rw [Builtin.apply, Builtin.apply, h.render hv]
        exact ⟨(IsPlainResult.map (fun _ => rfl) _).like, h.moves⟩
  · exact ⟨.error _, h.moves⟩

end Store

end FlatScope
