import FlatScope.Proofs.Regional.Signals
import FlatScope.Proofs.Regional.Standing

/-!
# Calls of wrappers

The call of a wrapper makes an activation of the machine, whose parameters are copied from the
drivers; when the wrapper is left, they are copied back. A wrapper may be made where it is called,
or have been made before the loop that it belongs to (`World.Makes`). Either way its call yields the
signals of its code (`World.wrapper_sim`).
-/

namespace FlatScope

open Process

namespace Regional

namespace World

variable {w w' : World} {p : LoweringPlan} {r : Region} {f : FrameId} {C : FlatScope.Closure}

/-- The expression yields the wrapper `C`, and changes nothing that the machine knows of. -/
def Makes (w : World) (f : FrameId) (callee : Expr Span) (C : FlatScope.Closure) : Prop :=
  ∀ {w' s m}, w.Le w' → w'.Matches s m → ∃ w₁ s₁ c, w'.Le w₁ ∧ w₁.Matches s₁ m ∧
    Ends (fun n => Eval.expr n callee f) s (.closure c) s₁ ∧ w₁.wrapper c = some C

/-- A wrapper that is made where it is called. -/
theorem makes_function (m : Span) (ps : List Name) (b : Block Span) :
    w.Makes f (.function m ps b) ⟨ps, b, f, none⟩ := by
  intro w' s m' _ hm
  obtain ⟨w₁, hle, hw, hm'⟩ := hm.wrap ⟨ps, b, f, none⟩
  exact ⟨w₁, _, _, hle, hm', .step rfl fun _ => rfl, hw⟩

/-- A wrapper that a variable holds. -/
theorem makes_name {x : Name} {ps : List Name} {b : Block Span} (hf : 0 < f) (hlt : f < w.frames)
    (hx : (x, .wrapper ps b) ∈ w.host f) (hr : w.ready f x) (m : Span) :
    w.Makes f (.name m x) ⟨ps, b, f, none⟩ := by
  intro w' s m' hle hm
  obtain ⟨c, hg, hc⟩ := hm.getWrapper hf (Nat.lt_of_lt_of_le hlt hle.frames)
    (by rwa [hle.host f hlt]) (hle.ready hlt hr)
  exact ⟨w', s, c, .refl w', hm, Eval.ends_name hg m, hc⟩

/-! ## Parameters -/

/-- Copying to slots of one activation from elsewhere is setting these to what is there. -/
theorem copyAll_eq {g : FrameId} (hg : f ≠ g) (bs : List BindingId) {m m' : Machine}
    (h : ∀ b, m.cells ⟨f, .driver b⟩ = m'.cells ⟨f, .driver b⟩) :
    m.copyAll (bs.map fun b => (⟨g, .binding b⟩, ⟨f, .driver b⟩)) =
      m.setAll (slotValues g (bs.map .binding) (bs.map fun b => m'.cells ⟨f, .driver b⟩)) := by
  induction bs generalizing m with
  | nil => rfl
  | cons b bs ih =>
    change (m.set ⟨g, .binding b⟩ (m.cells ⟨f, .driver b⟩)).copyAll _ =
      (m.set ⟨g, .binding b⟩ (m'.cells ⟨f, .driver b⟩)).setAll _
    rw [h b]
    refine ih fun c => ?_
    rw [Machine.set_cells_ne m _ (by simp [hg]), h c]

/-- The arguments of a wrapper are the values of the drivers. -/
theorem Matches.drivers {s : Store} {m : Machine} (hm : w.Matches s m) (hf : 0 < f)
    (hlt : f < w.frames) {drivers : List (BindingId × Name)}
    (h : ∀ d ∈ drivers, (d.2, .holds (.driver d.1)) ∈ w.host f) (span : Span) :
    ∃ vs, Ends (fun n => Eval.exprs n (drivers.map fun d => .name span d.2) f) s vs s ∧
      Value.AreLike w.closure vs ((drivers.map (·.1)).map fun b => m.cells ⟨f, .driver b⟩) := by
  induction drivers with
  | nil => exact ⟨[], .step rfl fun _ => rfl, .nil⟩
  | cons d ds ih =>
    obtain ⟨v, hv, hlike⟩ := hm.get (.here hf hlt (h d List.mem_cons_self))
    obtain ⟨vs, hvs, hlikes⟩ := ih fun e he => h e (List.mem_cons_of_mem _ he)
    exact ⟨v :: vs, Eval.ends_exprs_cons (Eval.ends_name hv span) hvs, .cons hlike hlikes⟩

/-! ## Calls -/

/-- The end of the code of a wrapper that is not left early. -/
theorem wrapperEnd_sim {i : Nat} (h : w.Stays r f pl) (wr : Wrapper) :
    lowering.Sim i w (Signals wr.exits)
      (fun n => (Eval.stmts n (if wr.exits.isEmpty then writeBackStmts r.writeBacks
        else epilogue r.writeBacks) f).andThen yielded)
      (fun _ => copyAll pl.writeBacks) := by
  refine .leads fun w' s m hle hm => ?_
  obtain ⟨s', hm', -, hleads⟩ := (h.mono hle).copies hm
  have hright : Leads (fun _ => copyAll pl.writeBacks) m (fun _ => (pure () : Run Unit))
    (m.copyAll pl.writeBacks) := .of_eq fun _ => rfl
  split
  · rename_i hempty
    have hends : Ends (fun n => Eval.stmts n (writeBackStmts r.writeBacks) f) s () s' := by
      have hleads := hleads []
      rw [List.append_nil] at hleads
      exact hleads.trans (Eval.stmts_nil ..)
    refine ⟨w', s', _, _, _, .refl w', hm', hends.andThen, hright, .now fun w₁ s₁ m₁ _ hm₁ => ?_⟩
    exact ⟨.ok .undefined, s₁, rfl, .inr ⟨.ok (), m₁, rfl, w₁, .refl w₁, hm₁,
      .done (List.isEmpty_iff.1 hempty)⟩⟩
  · rename_i hne
    have hmarker := (hleads [.ret .unknown (some (.signal .unknown none none))]).trans
      (Eval.leads_ret (v := .noSignal) (.trans (.step rfl fun _ => rfl) (.refl ..)) .unknown)
    refine ⟨w', s', _, _, _, .refl w', hm', hmarker.andThen (.const _), hright,
      .now fun w₁ s₁ m₁ _ hm₁ => ?_⟩
    exact ⟨.ok .noSignal, s₁, rfl, .inr ⟨.ok (), m₁, rfl, w₁, .refl w₁, hm₁,
      .goOn fun hnil => hne (by rw [hnil]; rfl)⟩⟩

/-- What a wrapper yields whose code is left early. -/
theorem leaves_sim {i : Nat} {ws : WriteBacks} {exits : List Exit} {q q' : Interrupt}
    (h : Leaves w (r.wrapper ws) (· ∈ exits) q q') :
    lowering.Sim i w (Signals exits) (fun _ => yielded (.error q)) (fun _ => interrupt q') := by
  refine .now fun w' s m hle hm => ?_
  cases h with
  | failed e => exact ⟨_, s, rfl, .inr ⟨_, m, rfl, w', .refl w', hm, .failed e⟩⟩
  | @plain e _ _ _ hs => cases e <;> cases hs
  | @signal e v v' he hs hv =>
    exact ⟨.ok (.signal e v), s, rfl, .inr ⟨.error (e.interruption v'), m, rfl, w', .refl w', hm,
      .signal he (hv.mono hle.closure)⟩⟩

/-- The call of a wrapper yields the signals of its code. -/
theorem wrapper_sim {i : Nat} (p : LoweringPlan) {callee : Expr Span}
    (drivers : List (BindingId × Name)) (span : Span) {span' : Span} (wr : Wrapper)
    (ws : WriteBacks)
    {body : List (Stmt Span)} {ρ : Roles} (z : FrameId → Nat → Run Unit)
    (back : FrameId → List (Location × Location)) (hf : 0 < f) (hlt : f < w.frames)
    (hmakes : w.Makes f callee ⟨(drivers.map (·.1)).map p.naming.nameOf,
      .mk span' (Lower.wrapperCode wr ws body), f, none⟩)
    (hdrivers : ∀ d ∈ drivers, (d.2, .holds (.driver d.1)) ∈ w.host f)
    (hnames : ((drivers.map (·.1)).map p.naming.nameOf).Nodup)
    (hdistinct : Roles.Distinct ((drivers.map (·.1)).map p.ownRole ++ ρ))
    (hflat : Stmt.FlatWith body ρ)
    (hbody : ∀ w', w.Le w' → ∃ pl, pl.writeBacks = back w'.frames ∧
      (w'.enter ((drivers.map (·.1)).map p.ownRole ++ ρ) f).Stays (r.wrapper ws) w'.frames pl ∧
      lowering.Sim i (w'.enter ((drivers.map (·.1)).map p.ownRole ++ ρ) f)
        (Runs (r.wrapper ws) (· ∈ wr.exits)) (fun n => Eval.stmts n body w'.frames)
        (z w'.frames)) :
    lowering.Sim i w (Signals wr.exits)
      (fun n => Eval.expr n (.call span callee (drivers.map fun d => .name span d.2)) f)
      (fun k => do
        let g ← activate
        copyAll ((drivers.map (·.1)).map fun b => (⟨g, .binding b⟩, ⟨f, .driver b⟩))
        z g k
        copyAll (back g)) := by
  refine .leads fun w' s m hle hm => ?_
  obtain ⟨w₁, s₁, c, hle', hm₁, hcallee, hc⟩ := hmakes hle hm
  have hle₁ := hle.trans hle'
  have hlt₁ := Nat.lt_of_lt_of_le hlt hle₁.frames
  obtain ⟨vs, hvs, hlike⟩ := hm₁.drivers hf hlt₁ (by rwa [hle₁.host f hlt]) span
  generalize drivers.map (·.1) = bs at *
  have hcode : (Block.mk span' (Lower.wrapperCode wr ws body)).IsFlat ∧
      ρ.Declares (Block.mk span' (Lower.wrapperCode wr ws body)).vars :=
    ⟨(LoweringPlan.wrapperCode_flat hflat wr ws).flat,
      (LoweringPlan.wrapperCode_flat hflat wr ws).declares⟩
  -- the parameters of the call hold what the drivers hold
  have hentered : (w₁.enter (bs.map p.ownRole ++ ρ) f).Matches
      (s₁.newFrame (Eval.bindVars (Eval.bindParams ⟨some f, []⟩ (bs.map p.naming.nameOf) vs)
        (Block.mk span' (Lower.wrapperCode wr ws body)).vars)).2
      (m.activate.setAll (slotValues w₁.frames (bs.map .binding)
        (bs.map fun b => m.cells ⟨f, .driver b⟩))) := by
    have hqs : bs.map p.ownRole = (bs.map fun b => (p.naming.nameOf b, Slot.binding b)).map
        fun q => (q.1, .holds q.2) := by rw [List.map_map]; rfl
    have hps : bs.map p.naming.nameOf =
        (bs.map fun b => (p.naming.nameOf b, Slot.binding b)).map (·.1) := by
      rw [List.map_map]; rfl
    have hslots : bs.map Slot.binding =
        (bs.map fun b => (p.naming.nameOf b, Slot.binding b)).map (·.2) := by
      rw [List.map_map]; rfl
    rw [hqs] at hdistinct ⊢
    rw [hps] at hnames ⊢
    rw [hslots]
    exact hm₁.enter hlt₁ hdistinct hnames hcode.2.mem_iff hlike
  have hright : Leads (fun k => do
        let g ← activate
        copyAll (bs.map fun b => (⟨g, .binding b⟩, ⟨f, .driver b⟩))
        z g k
        copyAll (back g)) m (fun k => do
          z w₁.frames k
          copyAll (back w₁.frames)) (m.activate.setAll (slotValues w₁.frames
            (bs.map .binding) (bs.map fun b => m.cells ⟨f, .driver b⟩))) := by
    have hcells : ∀ b, m.activate.cells ⟨f, .driver b⟩ = m.cells ⟨f, .driver b⟩ := fun b =>
      if_neg (hm₁.activations ▸ Nat.ne_of_lt hlt₁)
    rw [← copyAll_eq (Nat.ne_of_lt hlt₁) _ hcells, ← hm₁.activations]
    exact .of_eq fun _ => rfl
  have hleft := (Eval.leads_call hcallee hvs (hm₁.wrappers hc) span).trans
    (Eval.leads_callClosure hcode.1 vs s₁)
  rw [hm₁.size] at hleft
  obtain ⟨pl, hback, hstays, hsim⟩ := hbody w₁ hle₁
  refine ⟨_, _, _, _, _, hle'.trans (w₁.le_enter _ f), hentered, hleft.trans
    (Leads.andThen (Eval.leads_append ..) ((Eval.stmts_grows _ _).bind fun _ =>
      Eval.stmts_grows _ _)), hright, ?_⟩
  simp only [bind_andThen]
  simp only [bind_eq_andThen]
  refine hsim.andThen (fun w₂ hle₂ q q' hq => ?_) fun _ _ _ => False.elim
  cases q with
  | ok => cases q' with
    | ok => exact hback ▸ wrapperEnd_sim (hstays.mono hle₂) wr
    | error => exact hq.elim
  | error => cases q' with
    | ok => exact hq.elim
    | error => exact leaves_sim hq

end World

end Regional

end FlatScope
