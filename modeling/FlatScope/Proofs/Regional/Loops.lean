import FlatScope.Proofs.Regional.Signals
import FlatScope.Proofs.Run.Kept

/-!
# Loops of lowered programs

A loop of a lowered program goes on for as long as that of the machine does, if the conditions, the
bodies and the updates do the same (`World.countingLoop_sim`, `World.whileLoop_sim`,
`World.forOfLoop_sim`).
-/

namespace FlatScope

open Process

namespace Eval

/-! ## One iteration -/

/-- What a loop goes on with after an iteration. -/
def afterBody {σ : Type} : Except Interrupt Unit → Process σ Bool
  | .ok _ | .error .continued => pure true
  | .error .broke => pure false
  | .error w => .interrupt w

theorem goesOn_eq {σ : Type} (x : Process σ Unit) : goesOn x = x.andThen afterBody := by
  funext s
  rw [goesOn, andThen]
  cases x s with
  | interrupted w s => cases w <;> rfl
  | _ => rfl

/-- Looks an element up. -/
def lookAt (q : Sequence) (i : Nat) : Run (Option Value) := .make fun s => (q.at? s i, s)

theorem forOfLoop_lookAt (n : Nat) (q : Sequence) (i : Nat) (x : Name) (k : Option DeclKind)
    (b : Block Span) (env : FrameId) : forOfLoop (n + 1) q i x k b env = (do
      match ← lookAt q i with
      | none => return
      | some v => do
        let inner ← elementFrame x k v env
        if ← goesOn (block n b inner) then forOfLoop n q (i + 1) x k b env else return :
      Run Unit) := by
  funext s
  rw [forOfLoop_succ, Process.bind_apply, lookAt, Process.make]
  dsimp only
  cases q.at? s i <;> rfl

end Eval

namespace Regional

theorem elements_succ (n : Nat) (a : Scoping) (q : Eval.Sequence) (i : Nat) (m : Mark) (x : Name)
    (k : Option DeclKind) (l : Loop) (pl : Place) (env : Env) :
    elements (n + 1) a q i m x k l pl env = (do
      match ← onStore (Eval.lookAt q i) with
      | none => return
      | some v => do
        startElement a m.id x k v (l.headerEnv a pl env)
        if ← Eval.goesOn (body n a l pl env) then elements n a q (i + 1) m x k l pl env
        else return : Run Unit) := by
  funext s
  rw [elements]
  change _ = Process.bind (onStore (Eval.lookAt q i)) _ s
  rw [Process.bind, onStore, Eval.lookAt, Process.make]
  dsimp only
  cases q.at? s.store i <;> rfl

namespace World

variable {w w' : World} {r : Region} {may : Exit → Prop} {f : FrameId}

/-- After an iteration, a loop goes on in both programs, or it is left. -/
abbrev GoesOn (r : Region) (may : Exit → Prop) (w : World) :
    Except Interrupt Bool → Except Interrupt Bool → Prop :=
  Both (fun b b' => b = b') (Leaves w r may)

/-- The body of a loop, in which its own `break`s and `continue`s are made. -/
theorem goesOn_sim {i : Nat} {may' : Exit → Prop} {x : Nat → FlatScope.Run Unit}
    {y : Nat → Run Unit} (h : lowering.Sim i w (Runs r.loopBody may') x y)
    (hmay : may' .ret → may .ret) : lowering.Sim i w (GoesOn r may)
      (fun n => Eval.goesOn (x n)) (fun k => Eval.goesOn (y k)) := by
  simp only [Eval.goesOn_eq]
  refine h.andThen (fun w' hle q q' hq => ?_) fun _ _ _ => False.elim
  cases q with
  | ok => cases q' with
    | ok => exact .pure fun _ _ => rfl
    | error => exact hq.elim
  | error => cases q' with
    | ok => exact hq.elim
    | error => cases hq with
      | failed e => exact .interrupt fun _ _ => .failed e
      | @plain e v v' he hs hv =>
        cases e with
        | ret =>
          exact .interrupt fun _ hle' => .plain (e := .ret) (hmay he) hs (hv.mono hle'.closure)
        | brk | cont => exact .pure fun _ _ => rfl
      | @signal e v v' he hs hv =>
        cases e with
        | ret => exact .interrupt fun _ hle' =>
            .signal (e := .ret) (hmay he) hs (hv.mono hle'.closure)
        | brk | cont => simp [Region.bySignal, Region.loopBody] at hs

/-! ## Loops -/

/-- Both programs decide in the same way, or fail. -/
abbrev Decides (_ : World) : Except Interrupt Bool → Except Interrupt Bool → Prop :=
  Both (fun b b' => b = b') Fails

variable {a : Scoping} {l : Loop} {pl : Place} {env : Env}

theorem countingLoop_sim {i : Nat} {c : Option (Expr Span)} {u : Option (Stmt Span)}
    {b : Block Span} {c' : Option (Expr Mark)} {u' : Option (Stmt Mark)}
    (hc : lowering.Sim i w Decides (fun n => Eval.condition n c f)
      (fun k => condition k a c' (l.headerEnv a pl env)))
    (hb : lowering.Sim i w (GoesOn r may) (fun n => Eval.goesOn (Eval.block n b f))
      (fun k => Eval.goesOn (body k a l pl env)))
    (hu : lowering.Sim i w (Runs r may) (fun n => Eval.update n u f)
      (fun k => update k a u' pl (l.headerEnv a pl env))) :
    lowering.Sim i w (Runs r may) (fun n => Eval.countingLoop n false c u b f)
      (fun k => rounds k a c' u' l pl env) := by
  induction i generalizing w with
  | zero => exact .step rfl rfl (fun n => Eval.countingLoop_succ ..) (fun k => rfl) nofun
  | succ i ih =>
    refine .step rfl rfl (fun n => Eval.countingLoop_succ ..) (fun k => rfl) fun j hj => ?_
    obtain rfl : i = j := Nat.succ.inj hj
    have hc := hc.mono (Nat.le_succ i)
    have hb := hb.mono (Nat.le_succ i)
    have hu := hu.mono (Nat.le_succ i)
    refine hc.bind (fun _ hq => hq.leaves) ?_
    rintro w₁ hle₁ t _ rfl
    cases t with
    | false => exact .pure fun _ _ => trivial
    | true =>
      refine (hb.later hle₁).bind (fun hle hq => hq.mono hle fun _ => id) ?_
      rintro w₂ hle₂ t _ rfl
      cases t with
      | false => exact .pure fun _ _ => trivial
      | true =>
        have hle₂ := hle₁.trans hle₂
        refine (hu.later hle₂).bind (fun hle hq => hq.mono hle fun _ => id) fun w₃ hle₃ _ _ _ => ?_
        have hle₃ := hle₂.trans hle₃
        exact ih (hc.later hle₃) (hb.later hle₃) (hu.later hle₃)

/-- A condition, which both programs decide in the same way if they yield the same value. -/
theorem condition_sim {i : Nat} {x : Nat → FlatScope.Run Value} {c : Expr Mark}
    (h : lowering.Sim i w Yields x (fun k => expr k a c env)) :
    lowering.Sim i w Decides (fun n => do return (← x n).truthy)
      (fun k => condition k a (some c) env) :=
  .right rfl (fun _ => rfl) (h.bind (fun _ hq => hq) fun _ _ v v' hv => by
    rw [hv.truthy]
    exact .pure fun _ _ => rfl)

theorem whileLoop_sim {i : Nat} {c : Expr Span} {b : Block Span} {c' : Expr Mark}
    (hc : lowering.Sim i w Yields (fun n => Eval.expr n c f)
      (fun k => expr k a c' (l.headerEnv a pl env)))
    (hb : lowering.Sim i w (GoesOn r may) (fun n => Eval.goesOn (Eval.block n b f))
      (fun k => Eval.goesOn (body k a l pl env))) :
    lowering.Sim i w (Runs r may) (fun n => Eval.whileLoop n c b f)
      (fun k => rounds k a (some c') none l pl env) := by
  induction i generalizing w with
  | zero => exact .step rfl rfl (fun n => Eval.whileLoop_succ ..) (fun k => rfl) nofun
  | succ i ih =>
    have hround (n : Nat) : Eval.whileLoop (n + 1) c b f =
        (do return (← Eval.expr n c f).truthy) >>= fun t => do
          if t then
            if ← Eval.goesOn (Eval.block n b f) then Eval.whileLoop n c b f else return
          else return := by
      rw [Eval.whileLoop_succ, bind_assoc']
      rfl
    refine .step rfl rfl hround (fun k => rfl) fun j hj => ?_
    obtain rfl : i = j := Nat.succ.inj hj
    have hc := hc.mono (Nat.le_succ i)
    have hb := hb.mono (Nat.le_succ i)
    refine (condition_sim hc).bind (fun _ hq => hq.leaves) ?_
    rintro w₁ hle₁ t _ rfl
    cases t with
    | false => exact .pure fun _ _ => trivial
    | true =>
      refine (hb.later hle₁).bind (fun hle hq => hq.mono hle fun _ => id) ?_
      rintro w₂ hle₂ t _ rfl
      cases t with
      | false => exact .pure fun _ _ => trivial
      | true =>
        have hle₂ := hle₁.trans hle₂
        -- there is no update
        refine .leads fun w₃ s m hle₃ hm => ⟨w₃, s, m, _, _, .refl w₃, hm, .refl .., ?_,
          ih (hc.later (hle₂.trans hle₃)) (hb.later (hle₂.trans hle₃))⟩
        have hnone : Ends (fun k => update k a none pl (l.headerEnv a pl env)) m () m :=
          .step rfl fun _ => rfl
        exact hnone.bind

/-- An element, if there is one, is the same for both programs. -/
theorem lookAt_sim (i : Nat) (q : Eval.Sequence) (j : Nat) :
    lowering.Sim i w (fun w => Both (Option.Rel (Value.Like w.closure)) Fails)
      (fun _ => Eval.lookAt q j) (fun _ => onStore (Eval.lookAt q j)) := by
  refine .now fun w' s m _ hm => ⟨.ok (q.at? s j), s, rfl, .inr ⟨.ok (q.at? m.store j), m, rfl, w',
    .refl w', hm, ?_⟩⟩
  change Option.Rel _ _ _
  cases q with
  | array id =>
    have helem := (hm.store.elements id).getElem? j
    rw [Array.getElem?_toList, Array.getElem?_toList] at helem
    rw [Eval.Sequence.at?, Eval.Sequence.at?]
    rcases helem with ⟨hs, ht⟩ | ⟨v, v', hs, ht, hv⟩
    · rw [hs, ht]
      exact .none
    · rw [hs, ht]
      exact .some hv
  | text t =>
    rw [Eval.Sequence.at?, Eval.Sequence.at?]
    cases t[j]? with
    | none => exact .none
    | some c => exact .some (.plain rfl)

theorem forOfLoop_sim {i : Nat} {q : Eval.Sequence} {j : Nat} {x : Name} {k : Option DeclKind}
    {b : Block Span} {m : Mark} {x' : Name} {k' : Option DeclKind}
    (he : ∀ w', w.Le w' → ∀ v v', v.Like w'.closure v' →
      lowering.Sim i w' (fun _ => Both (fun g _ => g = f) Fails)
        (fun _ => Eval.elementFrame x k v f)
        (fun _ => startElement a m.id x' k' v' (l.headerEnv a pl env)))
    (hb : lowering.Sim i w (GoesOn r may) (fun n => Eval.goesOn (Eval.block n b f))
      (fun k => Eval.goesOn (body k a l pl env))) :
    lowering.Sim i w (Runs r may) (fun n => Eval.forOfLoop n q j x k b f)
      (fun n => elements n a q j m x' k' l pl env) := by
  induction i generalizing w j with
  | zero =>
    exact .step rfl rfl (fun n => Eval.forOfLoop_lookAt ..) (fun n => elements_succ ..) nofun
  | succ i ih =>
    refine .step rfl rfl (fun n => Eval.forOfLoop_lookAt ..) (fun n => elements_succ ..)
      fun k hk => ?_
    obtain rfl : i = k := Nat.succ.inj hk
    have hb := hb.mono (Nat.le_succ i)
    refine (lookAt_sim i q j).bind (fun _ hq => hq.leaves) ?_
    intro w₁ hle₁ o o' ho
    cases ho with
    | none => exact .pure fun _ _ => trivial
    | some hv =>
      refine ((he w₁ hle₁ _ _ hv).mono (Nat.le_succ i)).bind (fun _ hq => hq.leaves) ?_
      rintro w₂ hle₂ _ _ rfl
      have hle₂ := hle₁.trans hle₂
      refine (hb.later hle₂).bind (fun hle hq => hq.mono hle fun _ => id) ?_
      rintro w₃ hle₃ t _ rfl
      cases t with
      | false => exact .pure fun _ _ => trivial
      | true =>
        have hle₃ := hle₂.trans hle₃
        exact ih (fun w' hle v v' hv => (he w' (hle₃.trans hle) v v' hv).mono (Nat.le_succ i))
          (hb.later hle₃)

end World

end Regional

end FlatScope
