import FlatScope.Proofs.Residence.Turns
import FlatScope.Proofs.Run.Initialised

/-!
# Loops in both programs

The machine goes round a loop as the program does if it follows the condition, the body and the
update, from any states of which some invariant holds (`Joint.whileLoop_follows`,
`Joint.countingLoop_follows`, `Joint.elements_follows`).
-/

namespace FlatScope

open Process

namespace Regional.Joint

variable {i : Nat} {j : Joint} {a : Scoping} {f g : FrameId} {env : Env} {pl : Place} {l : Loop}
  {b : Block Span} {I : Joint → Prop} {J K : FrameId → Joint → Prop}
  {ι : Interrupt → Joint → Prop}

/-- Of a result holds `φ`, and of an interruption `ι`. -/
def Either {α : Type} (φ : α → Joint → Prop) (ι : Interrupt → Joint → Prop) :
    Except Interrupt α → Joint → Prop
  | .ok x, j => φ x j
  | .error w, j => ι w j

/-- A loop goes on with `J`, or ends with `I`. -/
abbrev Decides (J I : Joint → Prop) (ι : Interrupt → Joint → Prop) :
    Except Interrupt Bool → Joint → Prop :=
  Either (fun t j => if t then J j else I j) ι

/-- Both pieces go on with the results of the first parts. -/
theorem Follows.then {α β : Type} {x : Nat → FlatScope.Run α} {y : Nat → Run α}
    {f : Nat → α → FlatScope.Run β} {g : Nat → α → Run β} {φ : α → Joint → Prop}
    {ψ : β → Joint → Prop} (h : Follows i x y j (Either φ ι))
    (hfg : ∀ r j', φ r j' → Follows i (f · r) (g · r) j' (Either ψ ι)) :
    Follows i (fun n => x n >>= f n) (fun k => y k >>= g k) j (Either ψ ι) :=
  h.bind (fun _ _ => id) hfg

/-- The loop around a body goes on unless the body was left otherwise. -/
theorem Follows.goesOn {x : Nat → FlatScope.Run Unit} {y : Nat → Run Unit} {J : Joint → Prop}
    {Q : Except Interrupt Unit → Joint → Prop} (h : Follows i x y j Q)
    (hon : ∀ {r j'}, Q r j' → r = .ok () ∨ r = .error .continued → J j')
    (hend : ∀ {j'}, Q (.error .broke) j' → I j')
    (hstop : ∀ {w j'}, Q (.error w) j' → w ≠ .broke → w ≠ .continued → ι w j') :
    Follows i (fun n => Eval.goesOn (x n)) (fun k => Eval.goesOn (y k)) j (Decides J I ι) := by
  simp only [Eval.goesOn_eq]
  refine h.andThen (fun r j' hq => ?_) ?_
  · cases r with
    | ok u => exact .pure (hon hq (.inl rfl))
    | error w =>
      cases w with
      | failed e => exact .interrupt (hstop hq (by rintro ⟨⟩) (by rintro ⟨⟩))
      | returned v => exact .interrupt (hstop hq (by rintro ⟨⟩) (by rintro ⟨⟩))
      | broke => exact .pure (hend hq)
      | continued => exact .pure (hon hq (.inr rfl))
  · rintro n r s ⟨x, rfl⟩
    exact ⟨_, ⟨x, rfl⟩, rfl⟩

/-! ## Loops -/

/-- The rounds of a loop while a condition holds. -/
theorem whileLoop_follows {c : Expr Span} {c' : Expr Mark}
    (hc : ∀ {j}, I j → Follows i (fun n => do return (← Eval.expr n c f).truthy)
      (fun k => condition k a (some c') (l.headerEnv a pl env)) j (Decides I I ι))
    (hb : ∀ {j}, I j → Follows i (fun n => Eval.goesOn (Eval.block n b f))
      (fun k => Eval.goesOn (body k a l pl env)) j (Decides I I ι)) (h : I j) :
    Follows i (fun n => Eval.whileLoop n c b f) (fun k => rounds k a (some c') none l pl env) j
      (Either (fun _ => I) ι) := by
  have hround (n : Nat) : Eval.whileLoop (n + 1) c b f =
      (do return (← Eval.expr n c f).truthy) >>= fun t => do
        if t then
          if ← Eval.goesOn (Eval.block n b f) then Eval.whileLoop n c b f else return
        else return := by
    rw [Eval.whileLoop_succ, bind_assoc']
    rfl
  induction i generalizing j with
  | zero =>
    exact .step rfl hround (fun _ => rfl) fun _ hi => by cases hi
  | succ i ih =>
    refine .step rfl hround (fun _ => rfl) fun i' hi => ?_
    obtain rfl : i = i' := Nat.succ.inj hi
    have hle := Nat.le_succ i
    refine ((hc h).mono hle).then fun t j₁ h₁ => ?_
    cases t with
    | false => exact .pure h₁
    | true =>
      refine ((hb h₁).mono hle).then fun t j₂ h₂ => ?_
      cases t with
      | false => exact .pure h₂
      | true =>
        -- there is no update
        have hnone : Process.Ends (fun k => update k a none pl (l.headerEnv a pl env)) j₂.machine ()
            j₂.machine := .step rfl fun _ => rfl
        exact .right hnone.bind rfl (ih (fun h => (hc h).mono hle) (fun h => (hb h).mono hle) h₂)

/-- The rounds of a loop that counts. `J` holds before the condition, and `K` after the body, when
    the frame may be copied for the next iteration. -/
theorem countingLoop_follows {copies : Bool} {c : Option (Expr Span)} {u : Option (Stmt Span)}
    {c' : Option (Expr Mark)} {u' : Option (Stmt Mark)}
    (hc : ∀ {g j}, J g j → Follows i (fun n => Eval.condition n c g)
      (fun k => condition k a c' (l.headerEnv a pl env)) j (Decides (J g) I ι))
    (hb : ∀ {g j}, J g j → Follows i (fun n => Eval.goesOn (Eval.block n b g))
      (fun k => Eval.goesOn (body k a l pl env)) j (Decides (K g) I ι))
    (hn : ∀ {g j}, K g j → ∃ g' j', (if copies then j.store.copy g else (g, j.store)) =
      (g', j'.store) ∧ j'.machine = j.machine ∧ J g' j')
    (hu : ∀ {g j}, J g j → Follows i (fun n => Eval.update n u g)
      (fun k => update k a u' pl (l.headerEnv a pl env)) j (Either (fun _ => J g) ι)) (h : J g j) :
    Follows i (fun n => Eval.countingLoop n copies c u b g) (fun k => rounds k a c' u' l pl env) j
      (Either (fun _ => I) ι) := by
  induction i generalizing g j with
  | zero =>
    exact .step rfl (fun n => Eval.countingLoop_round ..) (fun _ => rfl) fun _ hi => by cases hi
  | succ i ih =>
    refine .step rfl (fun n => Eval.countingLoop_round ..) (fun _ => rfl) fun i' hi => ?_
    obtain rfl : i = i' := Nat.succ.inj hi
    have hle := Nat.le_succ i
    refine ((hc h).mono hle).then fun t j₁ h₁ => ?_
    cases t with
    | false => exact .pure h₁
    | true =>
      refine ((hb h₁).mono hle).then fun t j₂ h₂ => ?_
      cases t with
      | false => exact .pure h₂
      | true =>
        obtain ⟨g', j₃, hnext, hm, h₃⟩ := hn h₂
        have hrest := ((hu h₃).mono hle).then (f := fun n _ => Eval.countingLoop n copies c u b g')
          (g := fun k _ => rounds k a c' u' l pl env) fun _ j₄ h₄ =>
            ih (fun h => (hc h).mono hle) (fun h => (hb h).mono hle) (fun h => (hu h).mono hle) h₄
        refine .leads (.of_eq fun n => ?_) (.of_eq fun k => ?_) hrest
        · rw [if_pos rfl]
          change Process.bind (Process.make _) _ _ = _
          rw [Process.bind, Process.make, hnext]
        · rw [if_pos rfl, hm]

/-- The loop over a sequence, if the machine gives its variable every element as the program
    does. -/
theorem elements_follows {q : Eval.Sequence} {e : Nat} {x : Name} {d : Option DeclKind} {m : Mark}
    {x' : Name} {d' : Option DeclKind} (hI : ∀ {j}, I j → j.Matches)
    (hι : ∀ {j j' e}, I j → j'.Matches → j.Grows j' → I j' ∧ ι (.failed e) j')
    (he : ∀ {j v}, I j → j.Has v → ∀ {F : Nat → FrameId → FlatScope.Run Unit} {G : Nat → Run Unit}
      {i'}, i' ≤ i → (∀ g j', J g j' → Follows i' (F · g) G j' (Either (fun _ => I) ι)) →
      Follows i' (fun n => Eval.elementFrame x d v f >>= F n)
        (fun k => startElement a m.id x' d' v (l.headerEnv a pl env) >>= fun _ => G k) j
        (Either (fun _ => I) ι))
    (hb : ∀ {g j}, J g j → Follows i (fun n => Eval.goesOn (Eval.block n b g))
      (fun k => Eval.goesOn (body k a l pl env)) j (Decides I I ι)) (h : I j) :
    Follows i (fun n => Eval.forOfLoop n q e x d b f) (fun k => elements k a q e m x' d' l pl env) j
      (Either (fun _ => I) ι) := by
  induction i generalizing j e with
  | zero =>
    exact .step rfl (fun n => Eval.forOfLoop_lookAt ..) (fun k => elements_succ ..)
      fun _ hi => by cases hi
  | succ i ih =>
    refine .step rfl (fun n => Eval.forOfLoop_lookAt ..) (fun k => elements_succ ..)
      fun i' hi => ?_
    obtain rfl : i = i' := Nat.succ.inj hi
    have hle := Nat.le_succ i
    refine (lookAt_follows (hI h) q e).bind (fun w j' hw => ?_) fun o j₁ hq => ?_
    · obtain ⟨d, rfl⟩ := hw.stop w rfl
      exact (hι h hw.agree hw.grows).2
    · have h₁ := (hι (e := .target) h hq.agree hq.grows).1
      cases o with
      | none => exact .pure h₁
      | some v =>
        refine he h₁ (hq.result _ rfl v rfl) hle fun g j₂ h₂ => ?_
        refine ((hb h₂).mono hle).then fun t j₃ h₃ => ?_
        cases t with
        | false => exact .pure h₃
        | true =>
          exact ih (fun h hv _ _ _ hi => he h hv (Nat.le_trans hi hle))
            (fun h => (hb h).mono hle) h₃

end Regional.Joint

end FlatScope
