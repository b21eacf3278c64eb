import FlatScope.Proofs.Lowering.Lowered
import FlatScope.Proofs.Lowering.Names

/-!
# The variables of a piece of lowered code

`LoweringPlan.Piece` says what is known about the variables of a piece of lowered code, whose nodes
are numbered from `n` to `m`. A variable holds a binding of the function, a binding of the scope
that the piece is part of, or an inlined binding of a scope within the piece; or else its name was
made in the course of the lowering of the piece. This is enough to put pieces together
(`LoweringPlan.Piece.seq`), since the numbers and the made names of different pieces are different.

The variables of a whole function or wrapper then host its code (`LoweringPlan.Pool.hosts`).
-/

namespace FlatScope

/-- A plan for an analysed function, with the names that the rules give its bindings. -/
structure LoweringPlan.Sound (p : LoweringPlan) (fn : FunctionDef Mark) (globals : List Name) :
    Prop where
  analysed : fn.Analysed globals p.analysis
  naming : p.naming = .ofAnalysis p.analysis

namespace LoweringPlan

/-- A region fits a piece of code from the number `n` on. Its drivers are those of loops around the
    piece; their names are taken, but not by bindings or from outside of the function. -/
structure Fits (p : LoweringPlan) (r : Region) (fs : ScopeId) (n : NodeId) (st : LoweringState) :
    Prop where
  function : p.analysis.scoping.HasScope fs .function
  drivers : ∀ {b x}, r.drivers.lookup b = some x → ∃ d ∈ p.analysis.scoping.bindings, d.id = b ∧
    p.analysis.scoping.HasScope d.scope .loop ∧ d.scope < n ∧ x ∈ st.supply.taken ∧
    x ∉ p.naming.supply.taken
  supply : ∀ x ∈ p.naming.supply.taken, x ∈ st.supply.taken

/-- A variable for a binding of the function, of the scope, or of an inlined scope of the piece. -/
def HoldsBinding (p : LoweringPlan) (r : Region) (fs sc n m : Nat) (ρ : Name × Role) : Prop :=
  ∃ d ∈ p.analysis.scoping.bindings, ρ = p.role r d.id ∧
    (r.inWrapper = false ∧ d.scope = fs ∨ d.scope = sc ∨
      p.analysis.Inlined d ∧ n ≤ d.scope ∧ d.scope < m)

/-- A variable whose name is made; if it is a driver, then that of a loop of the piece. -/
def Made (p : LoweringPlan) (n m : Nat) (st st' : LoweringState) (ρ : Name × Role) : Prop :=
  ρ.1 ∉ st.supply.taken ∧ ρ.1 ∈ st'.supply.taken ∧ Roles.Synthesized ρ ∧
    ∀ b, ρ.2 = .holds (.driver b) → ∃ d ∈ p.analysis.scoping.bindings, d.id = b ∧ n ≤ d.scope ∧
      d.scope < m

/-- The variables of a piece of code in a scope, and what its lowering does to the state. -/
structure Piece (p : LoweringPlan) (r : Region) (fs sc n m : Nat) (st st' : LoweringState)
    (vars : List (Name × Mark)) (roles : Roles) : Prop where
  taken : ∀ x ∈ st.supply.taken, x ∈ st'.supply.taken
  each : ∀ ρ ∈ roles, p.HoldsBinding r fs sc n m ρ ∨ p.Made n m st st' ρ
  coherent : ∀ {x σ τ}, (x, σ) ∈ roles → (x, τ) ∈ roles → x ∉ st.supply.taken → σ = τ
  injective : ∀ {x y b}, (x, .holds (.driver b)) ∈ roles → (y, .holds (.driver b)) ∈ roles → x = y
  hoists : ∀ b ∈ st.hoisted, b ∈ st'.hoisted
  hoisted : ∀ b ∈ st'.hoisted, b ∈ st.hoisted ∨
    ∃ d ∈ p.analysis.scoping.bindings, d.id = b ∧ d.scope = fs
  vars : ∀ v ∈ vars, ∃ d, p.analysis.scoping.declared? v.2.id = some d ∧
    (r.inWrapper = false ∧ p.ownRole d.id ∈ roles ∨ d.id ∈ st'.hoisted)

variable {p : LoweringPlan} {fn : FunctionDef Mark} {globals : List Name} {r : Region}
  {fs sc n m k : Nat} {st st' st₁ st₂ : LoweringState} {vars vars₁ vars₂ : List (Name × Mark)}
  {roles roles₁ roles₂ : Roles}

namespace Fits

theorem mono (h : p.Fits r fs n st) (hn : n ≤ m)
    (hst : ∀ x ∈ st.supply.taken, x ∈ st'.supply.taken) : p.Fits r fs m st' where
  function := h.function
  drivers hb := by
    obtain ⟨d, hd, hid, hk, hlt, ht, hnew⟩ := h.drivers hb
    exact ⟨d, hd, hid, hk, Nat.lt_of_lt_of_le hlt hn, hst _ ht, hnew⟩
  supply x hx := hst x (h.supply x hx)

/-- A driver is that of a binding of a loop around the piece. -/
theorem of_driver (h : p.Fits r fs n st) (hp : p.Sound fn globals) {d : Binding}
    (hd : d ∈ p.analysis.scoping.bindings) (hs : (r.drivers.lookup d.id).isSome) :
    p.analysis.scoping.HasScope d.scope .loop ∧ d.scope < n := by
  obtain ⟨x, hx⟩ := Option.isSome_iff_exists.1 hs
  obtain ⟨c, hc, hid, hk, hlt, -, -⟩ := h.drivers hx
  cases hp.analysed.eq_of_id hc hd hid
  exact ⟨hk, hlt⟩

end Fits

theorem slot_of_none {b : BindingId} (h : r.drivers.lookup b = none) : r.slot b = .binding b := by
  simp [Region.slot, h]

theorem role_of_none {b : BindingId} (h : r.drivers.lookup b = none) :
    p.role r b = p.ownRole b := by
  simp [role, ownRole, nameOf, Region.slot, h]

theorem role_of_some {b : BindingId} {x : Name} (h : r.drivers.lookup b = some x) :
    p.role r b = (x, .holds (.driver b)) := by
  simp [role, nameOf, Region.slot, h]

/-- The name of a binding is taken from the start. -/
theorem Sound.name_taken (hp : p.Sound fn globals) {b : Binding}
    (hb : b ∈ p.analysis.scoping.bindings) :
    p.naming.nameOf b.id ∈ p.naming.supply.taken := by
  rw [hp.naming]
  exact hp.analysed.apart.taken b hb

/-- The name of a variable for a binding is taken. -/
theorem Fits.role_taken (h : p.Fits r fs k st) (hp : p.Sound fn globals) {d : Binding}
    (hd : d ∈ p.analysis.scoping.bindings) : (p.role r d.id).1 ∈ st.supply.taken := by
  rw [role, nameOf]
  cases hl : r.drivers.lookup d.id with
  | none => exact h.supply _ (hp.name_taken hd)
  | some y =>
    obtain ⟨-, -, -, -, -, ht, -⟩ := h.drivers hl
    exact ht

theorem Fits.holds_taken (h : p.Fits r fs k st) (hp : p.Sound fn globals) {ρ : Name × Role}
    (hρ : p.HoldsBinding r fs sc n m ρ) : ρ.1 ∈ st.supply.taken := by
  obtain ⟨d, hd, rfl, -⟩ := hρ
  exact h.role_taken hp hd

namespace Piece

/-- A piece without variables. -/
theorem nothing (htaken : ∀ x ∈ st.supply.taken, x ∈ st'.supply.taken)
    (hh : st'.hoisted = st.hoisted) : p.Piece r fs sc n m st st' [] [] where
  taken := htaken
  each := by simp
  coherent := by simp
  injective := by simp
  hoists := by simp [hh]
  hoisted := by simp +contextual [hh]
  vars := by simp

theorem widen {n' m' : Nat} (h : p.Piece r fs sc n m st st' vars roles) (hn : n' ≤ n)
    (hm : m ≤ m') : p.Piece r fs sc n' m' st st' vars roles where
  taken := h.taken
  each ρ hρ := by
    rcases h.each ρ hρ with ⟨d, hd, he, hd' | hd' | ⟨hi, hl, hu⟩⟩ | ⟨h₁, h₂, h₃, h₄⟩
    · exact .inl ⟨d, hd, he, .inl hd'⟩
    · exact .inl ⟨d, hd, he, .inr (.inl hd')⟩
    · exact .inl ⟨d, hd, he, .inr (.inr ⟨hi, Nat.le_trans hn hl, Nat.lt_of_lt_of_le hu hm⟩)⟩
    · refine .inr ⟨h₁, h₂, h₃, fun b hb => ?_⟩
      obtain ⟨d, hd, hid, hl, hu⟩ := h₄ b hb
      exact ⟨d, hd, hid, Nat.le_trans hn hl, Nat.lt_of_lt_of_le hu hm⟩
  coherent := h.coherent
  injective := h.injective
  hoists := h.hoists
  hoisted := h.hoisted
  vars := h.vars

/-- A piece that has a made driver has it for a loop of its own. -/
theorem driver_scope (h : p.Piece r fs sc n m st st' vars roles) {x : Name} {b : BindingId}
    (hx : (x, Role.holds (.driver b)) ∈ roles) : r.drivers.lookup b = some x ∨
    ∃ d ∈ p.analysis.scoping.bindings, d.id = b ∧ n ≤ d.scope ∧
      d.scope < m := by
  rcases h.each _ hx with ⟨d, hd, he, -⟩ | ⟨-, -, -, hdriver⟩
  · cases hl : r.drivers.lookup d.id with
    | none =>
      rw [role_of_none hl] at he
      simp [ownRole] at he
    | some y =>
      rw [role_of_some hl] at he
      simp only [Prod.mk.injEq, Role.holds.injEq, Slot.driver.injEq] at he
      exact .inl (by rw [he.2, hl, he.1])
  · exact .inr (hdriver b rfl)

/-- Two pieces one after the other. -/
theorem seq (hp : p.Sound fn globals) (hf : p.Fits r fs n st)
    (h₁ : p.Piece r fs sc n k st st₁ vars₁ roles₁) (h₂ : p.Piece r fs sc k m st₁ st₂ vars₂ roles₂)
    (hnk : n ≤ k) (hkm : k ≤ m) :
    p.Piece r fs sc n m st st₂ (vars₁ ++ vars₂) (roles₁ ++ roles₂) := by
  have hw₁ := h₁.widen (Nat.le_refl n) hkm
  have hw₂ := h₂.widen hnk (Nat.le_refl m)
  -- what is made in the second piece is not taken after the first one
  have hcross : ∀ {x σ τ}, (x, σ) ∈ roles₁ → (x, τ) ∈ roles₂ → x ∉ st.supply.taken → False := by
    intro x σ τ hσ hτ hx
    rcases hw₁.each _ hσ with hb | ⟨-, ht, -⟩
    · exact hx (hf.holds_taken hp hb)
    · rcases hw₂.each _ hτ with hb | ⟨hnot, -⟩
      · exact hx (hf.holds_taken hp hb)
      · exact hnot ht
  have hdrivers : ∀ {x y b}, (x, Role.holds (.driver b)) ∈ roles₁ →
      (y, Role.holds (.driver b)) ∈ roles₂ → x = y := by
    intro x y b hx hy
    rcases h₁.driver_scope hx with hbx | ⟨d, hd, hid, hl, hu⟩
    · rcases h₂.driver_scope hy with hby | ⟨e, he, hie, hle, hue⟩
      · exact Option.some.inj (hbx.symm.trans hby)
      · have hlt := (hf.of_driver hp he (by rw [hie, hbx]; rfl)).2
        exact absurd (Nat.lt_of_lt_of_le hlt hnk) (Nat.not_lt.2 hle)
    · rcases h₂.driver_scope hy with hby | ⟨e, he, hie, hle, hue⟩
      · exact absurd (hf.of_driver hp hd (by rw [hid, hby]; rfl)).2 (Nat.not_lt.2 hl)
      · cases hp.analysed.eq_of_id hd he (hid.trans hie.symm)
        exact absurd hu (Nat.not_lt.2 hle)
  refine ⟨fun x hx => h₂.taken x (h₁.taken x hx), fun ρ hρ => ?_, fun {x _ _} hσ hτ hx => ?_,
    fun hx hy => ?_, fun b hb => h₂.hoists b (h₁.hoists b hb), fun b hb => ?_, fun v hv => ?_⟩
  · rcases List.mem_append.1 hρ with hρ | hρ
    · rcases hw₁.each ρ hρ with hb | ⟨a₁, a₂, a₃⟩
      · exact .inl hb
      · exact .inr ⟨a₁, h₂.taken _ a₂, a₃⟩
    · rcases hw₂.each ρ hρ with hb | ⟨a₁, a₂, a₃⟩
      · exact .inl hb
      · exact .inr ⟨fun hm => a₁ (h₁.taken _ hm), a₂, a₃⟩
  · rcases List.mem_append.1 hσ with hσ | hσ <;> rcases List.mem_append.1 hτ with hτ | hτ
    · exact h₁.coherent hσ hτ hx
    · exact (hcross hσ hτ hx).elim
    · exact (hcross hτ hσ hx).elim
    · by_cases hx₁ : x ∈ st₁.supply.taken
      · rcases hw₂.each _ hσ with hb | ⟨hnot, -⟩
        · exact absurd (hf.holds_taken hp hb) hx
        · exact absurd hx₁ hnot
      · exact h₂.coherent hσ hτ hx₁
  · rcases List.mem_append.1 hx with hx | hx <;> rcases List.mem_append.1 hy with hy | hy
    · exact h₁.injective hx hy
    · exact hdrivers hx hy
    · exact (hdrivers hy hx).symm
    · exact h₂.injective hx hy
  · rcases h₂.hoisted b hb with hb | hd
    · exact h₁.hoisted b hb
    · exact .inr hd
  · rcases List.mem_append.1 hv with hv | hv
    · obtain ⟨d, hd, hv⟩ := h₁.vars v hv
      exact ⟨d, hd, hv.imp (fun h => ⟨h.1, List.mem_append_left _ h.2⟩) (h₂.hoists _)⟩
    · obtain ⟨d, hd, hv⟩ := h₂.vars v hv
      exact ⟨d, hd, hv.imp_left fun h => ⟨h.1, List.mem_append_right _ h.2⟩⟩

end Piece

/-! ## The variables of a function or wrapper -/

/-- The variables of a function or wrapper whose innermost scope is `sc`: for the bindings that it
    owns, for inlined bindings of scopes further in, and such with made names. -/
structure Pool (p : LoweringPlan) (r : Region) (sc : ScopeId) (st : LoweringState)
    (own : Binding → Prop) (roles : Roles) : Prop where
  each : ∀ ρ ∈ roles, (∃ d ∈ p.analysis.scoping.bindings, ρ = p.ownRole d.id ∧
      (own d ∨ p.analysis.Inlined d ∧ sc < d.scope)) ∨
    ρ.1 ∉ st.supply.taken ∧ Roles.Synthesized ρ
  coherent : ∀ {x σ τ}, (x, σ) ∈ roles → (x, τ) ∈ roles → x ∉ st.supply.taken → σ = τ
  injective : ∀ {x y b}, (x, .holds (.driver b)) ∈ roles → (y, .holds (.driver b)) ∈ roles → x = y
  distinct : ∀ d ∈ p.analysis.scoping.bindings, ∀ e ∈ p.analysis.scoping.bindings, own d → own e →
    p.naming.nameOf d.id = p.naming.nameOf e.id → d = e
  shown : ∀ d ∈ p.analysis.scoping.bindings, own d →
    ∃ b, p.analysis.scoping.lookup? sc d.name = some b ∧ own b
  here : ∀ {n b}, p.analysis.scoping.lookup? sc n = some b → own b →
    r.drivers.lookup b.id = none ∧ p.ownRole b.id ∈ roles

/-- The variables of a function or wrapper host its code. -/
theorem Pool.hosts {o : Binding → Prop} {ownIds : List BindingId}
    (h : p.Pool r sc st o roles) (hp : p.Sound fn globals) (hf : p.Fits r fs n st)
    (hids : ∀ b ∈ p.analysis.scoping.bindings, b.id ∈ ownIds ↔ o b) :
    p.Hosts r sc ownIds roles := by
  have hcons := hp.analysed.consistent
  have hname : ∀ {d e}, d ∈ p.analysis.scoping.bindings → e ∈ p.analysis.scoping.bindings →
      p.naming.nameOf d.id = p.naming.nameOf e.id → d = e ∨ d.name = e.name ∧
        ¬ p.analysis.Inlined d ∧ ¬ p.analysis.Inlined e := by
    rw [hp.naming]
    exact fun hd he => hp.analysed.name_eq hd he
  -- a name that is taken is that of a binding
  have htaken : ∀ {x σ}, (x, σ) ∈ roles → x ∈ st.supply.taken →
      ∃ d ∈ p.analysis.scoping.bindings, x = p.naming.nameOf d.id ∧ σ = .holds (.binding d.id) ∧
        (o d ∨ p.analysis.Inlined d ∧ sc < d.scope) := by
    intro x σ hx ht
    rcases h.each _ hx with ⟨d, hd, he, ho⟩ | ⟨hn, -⟩
    · exact ⟨d, hd, congrArg (·.1) he, congrArg (·.2) he, ho⟩
    · exact absurd ht hn
  refine ⟨fun {x σ τ} hσ hτ => ?_, fun {x y s} hx hy => ?_, fun {n b} hb hown => ?_,
    fun {n b} hb hown hin => ?_, fun {n} hnone hg hin => ?_, fun {x σ} hx hσ => ?_⟩
  · by_cases ht : x ∈ st.supply.taken
    · obtain ⟨d, hd, hxd, rfl, hod⟩ := htaken hσ ht
      obtain ⟨e, he, hxe, rfl, hoe⟩ := htaken hτ ht
      rcases hname hd he (hxd.symm.trans hxe) with rfl | ⟨-, hid, hie⟩
      · rfl
      · rw [h.distinct d hd e he (hod.resolve_right fun hi => hid hi.1)
          (hoe.resolve_right fun hi => hie hi.1) (hxd.symm.trans hxe)]
    · exact h.coherent hσ hτ ht
  · cases s with
    | binding b =>
      have hof : ∀ {z}, (z, Role.holds (.binding b)) ∈ roles → z = p.naming.nameOf b := by
        intro z hz
        rcases h.each _ hz with ⟨d, -, he, -⟩ | ⟨-, hn⟩
        · simp only [ownRole, Prod.mk.injEq, Role.holds.injEq, Slot.binding.injEq] at he
          rw [he.1, he.2]
        · exact absurd rfl (hn.1 b)
      rw [hof hx, hof hy]
    | driver b => exact h.injective hx hy
  · obtain ⟨hbm, -, -⟩ := hcons.of_lookup? hb
    obtain ⟨hl, hr⟩ := h.here hb ((hids b hbm).1 hown)
    exact ⟨slot_of_none hl, role_of_none hl ▸ hr⟩
  · obtain ⟨hbm, hbn, hbs⟩ := hcons.of_lookup? hb
    obtain ⟨σ, hσ⟩ := Roles.exists_of_mem_names hin
    cases hl : r.drivers.lookup b.id with
    | some y =>
      obtain ⟨-, -, -, -, -, ht, hnew⟩ := hf.drivers hl
      rw [nameOf, hl, Option.getD_some] at hσ
      obtain ⟨d, hd, hyd, -⟩ := htaken hσ ht
      exact hnew (hyd ▸ hp.name_taken hd)
    | none =>
      rw [nameOf, hl, Option.getD_none] at hσ
      obtain ⟨d, hd, hbd, -, hod⟩ := htaken hσ (hf.supply _ (hp.name_taken hbm))
      have hnot : ¬ o b := fun ho => hown ((hids b hbm).2 ho)
      rcases hname hbm hd hbd with rfl | ⟨hnames, -, hid⟩
      · rcases hod with ho | ⟨-, hlt⟩
        · exact hnot ho
        · exact absurd hbs (Nat.not_le.2 hlt)
      · obtain ⟨c, hc, hoc⟩ := h.shown d hd (hod.resolve_right fun hi => hid hi.1)
        rw [← hnames, hbn, hb] at hc
        exact hnot (Option.some.inj hc ▸ hoc)
  · obtain ⟨σ, hσ⟩ := Roles.exists_of_mem_names hin
    have hnt : n ∈ p.naming.supply.taken := by
      rw [hp.naming]
      exact hp.analysed.apart.used n (List.mem_append_right _ hg)
    obtain ⟨d, hd, hnd, -, hod⟩ := htaken hσ (hf.supply _ hnt)
    have hglobal := hp.analysed.name_global hd (hp.naming ▸ hnd ▸ hg)
    rw [← hp.naming, ← hnd] at hglobal
    obtain ⟨c, hc, -⟩ := h.shown d hd (hod.resolve_right fun hi => hglobal.2 hi.1)
    rw [← hglobal.1, hnone] at hc
    cases hc
  · rcases h.each _ hx with ⟨d, -, he, -⟩ | ⟨hn, hs⟩
    · exact absurd (congrArg (·.2) he) (hσ d.id)
    · exact ⟨fun ht => hn (hf.supply _ ht), hs⟩

namespace Fits

/-- No driver stands for a binding of a scope that is not a loop's. -/
theorem no_driver (h : p.Fits r fs n st) (hp : p.Sound fn globals) {d : Binding}
    (hd : d ∈ p.analysis.scoping.bindings) {k : ScopeKind} (hk : k ≠ .loop)
    (hs : p.analysis.scoping.HasScope d.scope k) : r.drivers.lookup d.id = none := by
  cases hl : r.drivers.lookup d.id with
  | none => rfl
  | some x =>
    have hloop := (h.of_driver hp hd (by rw [hl]; rfl)).1
    exact absurd (hp.analysed.consistent.kind_unique hs hloop) hk

/-- No driver stands for a binding of a scope within the piece. -/
theorem no_inner_driver (h : p.Fits r fs n st) (hp : p.Sound fn globals) {d : Binding}
    (hd : d ∈ p.analysis.scoping.bindings) (hs : n ≤ d.scope) :
    r.drivers.lookup d.id = none := by
  cases hl : r.drivers.lookup d.id with
  | none => rfl
  | some x => exact absurd (h.of_driver hp hd (by rw [hl]; rfl)).2 (Nat.not_lt.2 hs)

end Fits

/-- A `let` or `const` gets a variable where it stands. -/
theorem role_of_declaration {s : Stmt Mark} {out : List (Stmt Span)}
    (h : p.LowersStmt r sc s out roles) {l : Lexical Mark} (hl : s.lexical? = some l) :
    ∃ d, p.analysis.scoping.declared? l.mark.id = some d ∧
      (d.origin.isFunctionScoped = false → p.role r d.id ∈ roles) := by
  cases s with
  | declaration m x kind v =>
    rw [Stmt.lexical?] at hl
    split at hl
    · cases hl
      have hdecl : ∃ d v', p.analysis.scoping.declared? m.id = some d ∧
          p.LowersDeclaration r m d v' out roles := by
        cases v with
        | none =>
          obtain ⟨d, hd, hl⟩ := h
          exact ⟨d, none, hd, hl⟩
        | some e =>
          obtain ⟨d, e', hd, -, hl⟩ := h
          exact ⟨d, some e', hd, hl⟩
      obtain ⟨d, v', hd, hlow⟩ := hdecl
      refine ⟨d, hd, fun ho => ?_⟩
      rw [LowersDeclaration, if_pos ho] at hlow
      rw [hlow.2]
      exact List.mem_singleton_self _
    · cases hl
  | _ => cases hl

/-- The declarations of a scope get variables where they stand. -/
theorem role_of_lexical : ∀ {ss : List (Stmt Mark)} {out : List (Stmt Span)} {roles : Roles},
    p.LowersStmts r sc ss out roles → ∀ {l : Lexical Mark}, l ∈ ss.filterMap Stmt.lexical? →
      ∃ d, p.analysis.scoping.declared? l.mark.id = some d ∧
        (d.origin.isFunctionScoped = false → p.role r d.id ∈ roles)
  | [], _, _, _, l, hl => by simp at hl
  | s :: ss, _, _, h, l, hl => by
    rw [LowersStmts] at h
    obtain ⟨o, os, ρ, ρs, hs, hss, rfl, rfl⟩ := h
    obtain ⟨t, ht, htl⟩ := List.mem_filterMap.1 hl
    rcases List.mem_cons.1 ht with rfl | ht
    · obtain ⟨d, hd, hr⟩ := role_of_declaration hs htl
      exact ⟨d, hd, fun ho => List.mem_append_left _ (hr ho)⟩
    · obtain ⟨d, hd, hr⟩ := role_of_lexical hss (List.mem_filterMap.2 ⟨t, ht, htl⟩)
      exact ⟨d, hd, fun ho => List.mem_append_right _ (hr ho)⟩

/-- The declaration in the header of a loop gets a variable there. -/
theorem role_of_header {h : Header Mark} {h' : Header Span} (hlow : p.LowersHeader r sc h h' roles)
    {l : Lexical Mark} (hl : Resolve.headerLexical? h = some l) :
    ∃ d, p.analysis.scoping.declared? l.mark.id = some d ∧
      (d.origin.isFunctionScoped = false → p.role r d.id ∈ roles) := by
  cases h with
  | counting m i c u =>
    cases i with
    | none => cases hl
    | some s =>
      obtain ⟨i', c', u', ρi, ρu, ⟨-, hi⟩, -, -, -, rfl⟩ := lowersHeader_counting.1 hlow
      obtain ⟨d, hd, hr⟩ := role_of_declaration (hi s rfl) hl
      exact ⟨d, hd, fun ho => List.mem_append_left _ (hr ho)⟩
  | forOf m x k e =>
    cases k with
    | none => cases hl
    | some k =>
      rw [Resolve.headerLexical?] at hl
      split at hl
      · cases hl
        obtain ⟨e', n', k', -, ⟨d, hd, -, helem⟩, -⟩ := hlow
        refine ⟨d, hd, fun ho => ?_⟩
        rw [ho, Bool.false_and, if_neg (by simp)] at helem
        rw [helem.2]
        exact List.mem_singleton_self _
      · cases hl
  | _ => cases hl

end LoweringPlan

end FlatScope
