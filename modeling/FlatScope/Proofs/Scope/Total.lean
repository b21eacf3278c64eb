import FlatScope.Proofs.Analysis
import FlatScope.Proofs.Scope.Sound

/-!
# Well-scoped code is resolved

The resolution of code that keeps to the rules never rejects it, and no constant is assigned to
(`Resolve.stmts_total` and its companions). The proof goes along with the resolution: where a piece
of the code begins, what is known agrees with the surroundings of the piece, so none of the checks
fails in it; and what `FlatScope.Proofs.Scope.Resolve` says of the piece makes the agreement last.

So a function passes the checks exactly if it is well-scoped
(`FunctionDef.accepted_iff_wellScoped`).
-/

namespace FlatScope

open Scoping Node

namespace Scoping

variable {a b : Scoping}

@[simp] theorem addReference_binding? (a : Scoping) (r : Reference) (i : BindingId) :
    (a.addReference r).binding? i = a.binding? i := rfl

/-- Nothing is assigned to a constant if no new names are used. -/
theorem KeepsConstants.adds {P : Binding → Prop} (h : a.KeepsConstants) (ha : a.Consistent)
    (hab : Adds P a.bindings b.bindings) (hrefs : b.references = a.references) :
    b.KeepsConstants := by
  intro r hr
  rw [hrefs] at hr
  have hold := h r hr
  unfold violated? at hold ⊢
  cases hb : r.binding with
  | none => simp
  | some i =>
    obtain ⟨d, hd, rfl⟩ := (ha.referred r hr).2 i hb
    have hda := ha.binding?_of_mem hd
    rw [hb, Option.bind_some, hda] at hold
    rw [Option.bind_some, show b.binding? d.id = some d from hab.isPrefix.find?_eq_some hda]
    exact hold

theorem KeepsConstants.checkConstants (h : a.KeepsConstants) : a.checkConstants = .ok () := by
  unfold KeepsConstants at h
  unfold Scoping.checkConstants
  rw [List.forM_eq_forM]
  generalize a.references = rs at h
  induction rs with
  | nil => rfl
  | cons r rs ih =>
    rw [List.forM_cons, h r List.mem_cons_self]
    exact ih fun s hs => h s (List.mem_cons_of_mem _ hs)

end Scoping

namespace Resolve

variable {α β : Type} {globals : List Name} {a b c : Scoping} {fs sc id : ScopeId}
  {kind : ScopeKind} {parent : Option ScopeId} {keys : List Name}

theorem bind_eq {x : Resolve α} {f : α → Resolve β} {z : α} (h : x a = .ok (z, b)) :
    (x >>= f) a = f z b := by
  change (x a >>= fun p => f p.1 p.2) = _
  rw [h]
  rfl

theorem get_eq (a : Scoping) : (get : Resolve Scoping) a = .ok (a, a) := rfl

/-! ## Names -/

/-- A name that means something is resolved, and nothing is assigned to a constant. -/
theorem reference_total {c : Surroundings} {n : Name} {m : Mark} {w : Bool} (ha : a.Consistent)
    (hc : a.Agrees fs sc c) (hk : a.KeepsConstants) (hn : c.Knows globals n)
    (hw : w → c.MayAssign n) :
    ∃ b, reference globals sc n m w a = .ok ((), b) ∧ b.KeepsConstants := by
  have hknown : ¬ ((a.lookup? sc n).isNone && !globals.contains n) := by
    rcases hn with hn | hn
    · have := hc.mem_names.1 hn
      cases hl : a.lookup? sc n with
      | none => exact absurd hl this
      | some d => simp
    · simp [hn]
  refine ⟨a.addReference ⟨m.id, n, (a.lookup? sc n).map (·.id), sc, w, m.span⟩, ?_, ?_⟩
  · change (if _ then _ else _ : Resolve Unit) a = _
    rw [if_neg hknown]
    rfl
  · intro r hr
    rcases List.mem_append.1 hr with hr | hr
    · exact hk r hr
    · obtain rfl := List.mem_singleton.1 hr
      unfold violated?
      split
      case isFalse => rfl
      case isTrue hwrite =>
        cases hl : a.lookup? sc n with
        | none => rfl
        | some d =>
          rw [Option.map_some, Option.bind_some, addReference_binding?,
            ha.binding?_of_mem (ha.of_lookup? hl).1, Option.filter_some_eq_none]
          intro hconst
          exact hw hwrite (by rw [← hc.means n, hl, Option.map_some, hconst])

theorem checkVarPath_total {c : Surroundings} {n : Name} {span : Span} (hc : a.Agrees fs sc c)
    (hn : n ∉ c.inner) : checkVarPath sc n span a = .ok ((), a) := by
  have hnone : a.bindingBelowFunction? sc n = none := by
    cases hd : a.bindingBelowFunction? sc n with
    | none => rfl
    | some d => exact absurd ((hc.below n).2 ⟨d, hd⟩) hn
  rw [checkVarPath, bind_eq (get_eq a), hnone]
  rfl

/-! ## Declarations -/

/-- A name that is new in its scope may be declared. -/
theorem declare_new (h : a.Opening id kind parent keys b) {n : Name} (hn : n ∉ keys) (o : Origin)
    (span : Span) (node : Option NodeId) : declare id n o span node b =
      .ok ((), (b.addBinding id n o span).addDeclaration node b.nextBinding) := by
  obtain ⟨s, hs, -, -, rfl⟩ := h.scope?
  have hown : b.ownBinding? id n = none := by
    rw [ownBinding?, hs, Option.bind_some, Table.lookup_eq_none.2 hn]
    rfl
  rw [declare, bind_eq (get_eq b), hown]
  rfl

theorem isFunctionScoped_of_var {o : Origin} (h : o.kind? = some .var) : o.isFunctionScoped := by
  cases o with
  | param => rfl
  | declared k | header k =>
    obtain rfl : k = .var := by simpa [Origin.kind?] using h
    rfl

/-- A `var` may be declared again, and so may a parameter. -/
theorem declare_again (h : a.Opening id kind parent keys b) {n : Name} (hn : n ∈ keys)
    (hscoped : ∀ d ∈ b.bindings, d.scope = id → d.origin.isFunctionScoped) {o : Origin}
    (ho : o.kind? = some .var) (span : Span) (node : Option NodeId) :
    ∃ d ∈ b.bindings, declare id n o span node b = .ok ((), b.addDeclaration node d.id) := by
  obtain ⟨s, hs, -, -, rfl⟩ := h.scope?
  obtain ⟨hmem, hsid⟩ := mem_of_scope? hs
  obtain ⟨i, hi⟩ := Table.exists_lookup.2 hn
  obtain ⟨d, hd, rfl, -, hds⟩ := h.consistent.binding?_of_named hmem hi
  have hdm := (mem_of_binding? hd).1
  have hown : b.ownBinding? id n = some d := by
    rw [ownBinding?, hs, Option.bind_some, hi, Option.bind_some, hd]
  refine ⟨d, hdm, ?_⟩
  rw [declare, bind_eq (get_eq b), hown]
  dsimp only
  rw [if_pos (by rw [mayRepeat, hscoped d hdm (hds.trans hsid), ho]; rfl)]
  rfl

theorem addDeclaration_bindings (a : Scoping) (node : Option NodeId) (i : BindingId) :
    (a.addDeclaration node i).bindings = a.bindings := by cases node <;> rfl

/-- Distinct names that are new in a scope may be declared. -/
theorem declareNew_total {items : List Item} (h : a.Opening id kind parent keys b)
    (hd : (items.map (·.name)).Nodup) (hk : ∀ i ∈ items, i.name ∉ keys) :
    ∃ c, declareAll id items b = .ok ((), c) ∧
      a.Opening id kind parent (keys ++ items.map (·.name)) c ∧
      ∀ d ∈ c.bindings, d ∈ b.bindings ∨ ∃ i ∈ items, d.origin = i.origin := by
  induction items generalizing b keys with
  | nil => exact ⟨b, rfl, by simpa using h, fun d hd => .inl hd⟩
  | cons i items ih =>
    rw [List.map_cons, List.nodup_cons] at hd
    have hi := hk i List.mem_cons_self
    have ho := (h.addBinding hi i.origin i.span).addDeclaration i.node
      ⟨_, List.mem_append_right _ (List.mem_singleton.2 rfl), rfl⟩
    obtain ⟨c, hc, hopen, hfrom⟩ := ih ho hd.2 fun j hj hmem => by
      rcases List.mem_append.1 hmem with hmem | hmem
      · exact hk j (List.mem_cons_of_mem _ hj) hmem
      · exact hd.1 ((List.mem_singleton.1 hmem) ▸ List.mem_map_of_mem hj)
    refine ⟨c, ?_, by simpa using hopen, fun d hd => ?_⟩
    · change (declare id i.name i.origin i.span i.node >>= fun _ => declareAll id items) b = _
      rw [bind_eq (declare_new h hi ..)]
      exact hc
    · rcases hfrom d hd with hd | ⟨j, hj, hdj⟩
      · rw [addDeclaration_bindings] at hd
        rcases List.mem_append.1 hd with hd | hd
        · exact .inl hd
        · exact .inr ⟨i, List.mem_cons_self, by rw [List.mem_singleton.1 hd]⟩
      · exact .inr ⟨j, List.mem_cons_of_mem _ hj, hdj⟩

/-- `var`s may be declared in any number. -/
theorem declareVars_total {items : List Item} (h : a.Opening id kind parent keys b)
    (hscoped : ∀ d ∈ b.bindings, d.scope = id → d.origin.isFunctionScoped)
    (ho : ∀ i ∈ items, i.origin.kind? = some .var) :
    ∃ c keys', declareAll id items b = .ok ((), c) ∧ a.Opening id kind parent keys' c ∧
      ∀ n, n ∈ keys' ↔ n ∈ keys ∨ n ∈ items.map (·.name) := by
  induction items generalizing b keys with
  | nil => exact ⟨b, keys, rfl, h, by simp⟩
  | cons i items ih =>
    have hi := ho i List.mem_cons_self
    have hrest := fun j hj => ho j (List.mem_cons_of_mem i hj)
    by_cases hn : i.name ∈ keys
    · obtain ⟨d, hd, hrun⟩ := declare_again h hn hscoped hi i.span i.node
      obtain ⟨c, keys', hc, hopen, hkeys⟩ := ih (h.addDeclaration i.node ⟨d, hd, rfl⟩)
        (by rwa [addDeclaration_bindings]) hrest
      refine ⟨c, keys', ?_, hopen, fun n => ?_⟩
      · change (declare id i.name i.origin i.span i.node >>= fun _ => declareAll id items) b = _
        rw [bind_eq hrun]
        exact hc
      · rw [hkeys, List.map_cons, List.mem_cons]
        constructor
        · rintro (h | h)
          · exact .inl h
          · exact .inr (.inr h)
        · rintro (h | rfl | h)
          · exact .inl h
          · exact .inl hn
          · exact .inr h
    · have hscoped' : ∀ d ∈ ((b.addBinding id i.name i.origin i.span).addDeclaration i.node
          b.nextBinding).bindings, d.scope = id → d.origin.isFunctionScoped := by
        rw [addDeclaration_bindings]
        intro d hd hds
        rcases List.mem_append.1 hd with hd | hd
        · exact hscoped d hd hds
        · rw [List.mem_singleton.1 hd]
          exact isFunctionScoped_of_var hi
      obtain ⟨c, keys', hc, hopen, hkeys⟩ := ih ((h.addBinding hn i.origin i.span).addDeclaration
        i.node ⟨_, List.mem_append_right _ (List.mem_singleton.2 rfl), rfl⟩) hscoped' hrest
      refine ⟨c, keys', ?_, hopen, fun n => ?_⟩
      · change (declare id i.name i.origin i.span i.node >>= fun _ => declareAll id items) b = _
        rw [bind_eq (declare_new h hn ..)]
        exact hc
      · rw [hkeys, List.mem_append, List.mem_singleton, List.map_cons, List.mem_cons, or_assoc]

/-! ## Opening scopes -/

/-- The scope of a function whose names are distinct may be opened. -/
theorem openFunction_total {m : Mark} {ps : List Name} {body : Block Mark} (ha : a.Consistent)
    (hid : ∀ s ∈ a.scopes, s.id ≠ m.id)
    (hp : ∀ p, parent = some p → p < m.id ∧ ∃ t ∈ a.scopes, t.id = p)
    (hd : DistinctNames ps body) :
    ∃ b, openFunction m ps body parent a = .ok ((), b) ∧
      (a.KeepsConstants → b.KeepsConstants) := by
  have ho₁ : a.Opening m.id .function parent [] _ := opening_addScope ha hid hp
  obtain ⟨b₂, h₂, ho₂, hfrom⟩ := declareNew_total ho₁
    (by simpa [Item.ofParam, Function.comp_def] using hd.distinctParams :
      ((ps.map (Item.ofParam m.span)).map (·.name)).Nodup) (by simp)
  have hscoped : ∀ d ∈ b₂.bindings, d.scope = m.id → d.origin.isFunctionScoped := by
    intro d hdm hds
    rcases hfrom d hdm with hdm | ⟨i, hi, hdo⟩
    · obtain ⟨s, hs, hsd, -⟩ := ha.listed d hdm
      exact absurd (hsd.trans hds) (hid s hs)
    · obtain ⟨n, -, rfl⟩ := List.mem_map.1 hi
      rw [hdo]
      rfl
  obtain ⟨b₃, keys, h₃, ho₃, hkeys⟩ := declareVars_total ho₂ hscoped
    (List.forall_mem_map.2 fun v _ => rfl : ∀ i ∈ body.vars.map Item.ofVar, _)
  obtain ⟨b₄, h₄, ho₄, -⟩ := declareNew_total ho₃
    (by simpa [Item.ofLexical, Function.comp_def] using hd.distinctLexicals :
      ((body.lexicals.map Item.ofLexical).map (·.name)).Nodup) (by
      intro i hi hmem
      obtain ⟨l, hl, rfl⟩ := List.mem_map.1 hi
      obtain ⟨hparam, hvar⟩ := hd.apart l hl
      rcases (hkeys _).1 hmem with hmem | hmem
      · exact hparam (by simpa [Item.ofParam, Item.ofLexical, Function.comp_def] using hmem)
      · exact hvar (by simpa [Item.ofVar, Item.ofLexical, Function.comp_def] using hmem))
  refine ⟨b₄, ?_, fun hk => hk.adds ha ho₄.bindings ho₄.references⟩
  rw [openFunction, declareParams_eq, declareVars_eq, declareLexicals_eq]
  change (declareAll m.id (ps.map (.ofParam m.span)) >>= fun _ => _) (a.addScope m.id _ parent) = _
  rw [bind_eq h₂, bind_eq h₃, h₄]

/-- The scope of a block whose names are distinct may be opened, if it has one. -/
theorem openBlock_total {body : Block Mark} {n : Nat} (ha : a.Consistent)
    (hstands : a.Stands fs sc n) (hn : n ≤ body.mark.id)
    (hid : ∀ s ∈ a.scopes, s.id ≠ body.mark.id) (hd : (body.lexicals.map (·.name)).Nodup) :
    ∃ own b, openBlock body sc a = .ok (own, b) ∧
      (a.KeepsConstants → b.KeepsConstants) := by
  unfold openBlock
  generalize body.lexicals = ls at hd
  cases ls with
  | nil => exact ⟨none, a, rfl, id⟩
  | cons l ls =>
    obtain ⟨s, hs⟩ := hstands.inFunction.known
    obtain ⟨hsm, hsid⟩ := mem_of_scope? hs
    have ho : a.Opening body.mark.id .block (some sc) [] _ := opening_addScope ha hid (by
      rintro p ⟨⟩
      exact ⟨Nat.lt_of_lt_of_le hstands.lt hn, s, hsm, hsid⟩)
    obtain ⟨b, h, ho, -⟩ := declareNew_total ho.addBlockScope
      (by simpa [Item.ofLexical, Function.comp_def] using hd :
        (((l :: ls).map Item.ofLexical).map (·.name)).Nodup) (by simp)
    refine ⟨some body.mark.id, b, ?_, fun hk => hk.adds ha ho.bindings ho.references⟩
    rw [← declareLexicals_eq] at h
    change (declareLexicals body.mark.id (l :: ls) >>= fun _ => _)
      ((a.addScope body.mark.id .block (some sc)).addBlockScope body.mark.id) = _
    rw [bind_eq h]
    rfl

/-- The scope of a loop may be opened. -/
theorem openLoop_total {loop : NodeId} {n : Name} {k : DeclKind} {m : Mark} (ha : a.Consistent)
    (hstands : a.Stands fs sc loop) (hid : ∀ s ∈ a.scopes, s.id ≠ loop) :
    ∃ b, openLoop loop n k m sc a = .ok ((), b) ∧
      (a.KeepsConstants → b.KeepsConstants) := by
  obtain ⟨s, hs⟩ := hstands.inFunction.known
  obtain ⟨hsm, hsid⟩ := mem_of_scope? hs
  have ho : a.Opening loop .loop (some sc) [] _ := opening_addScope ha hid (by
    rintro p ⟨⟩
    exact ⟨hstands.lt, s, hsm, hsid⟩)
  exact ⟨_, declare_new ho List.not_mem_nil (.header k) m.span (some m.id),
    fun hk => hk.adds ha (.one (P := fun _ => True) trivial) rfl⟩

/-! ## Code -/

variable {S : Prop}

theorem checkDeclaration_total {c : Surroundings} {m : Mark} {x : Name} {d : DeclKind}
    {v : Option (Expr Mark)} (hc : a.Agrees fs sc c) (hvar : d = .var → x ∉ c.inner)
    (hconst : v = none → d ≠ .const) : checkDeclaration sc m x d v a = .ok ((), a) := by
  cases d with
  | var => exact checkVarPath_total hc (hvar rfl)
  | letVar => rfl
  | const =>
    cases v with
    | none => exact absurd rfl (hconst rfl)
    | some e => rfl

/-- The scope of a loop whose header declares something may be opened. -/
theorem openHeader_total {loop : Mark} {h : Header Mark} (ha : a.Consistent)
    (hstands : a.Stands fs sc loop.id) (hid : ∀ s ∈ a.scopes, s.id ≠ loop.id) :
    ∃ own b, openHeader loop h sc a = .ok (own, b) ∧
      (a.KeepsConstants → b.KeepsConstants) := by
  unfold openHeader
  cases headerLexical? h with
  | none => exact ⟨none, a, rfl, id⟩
  | some l =>
    obtain ⟨b, hb, hk⟩ := openLoop_total (n := l.name) (k := l.kind) (m := l.mark) ha hstands hid
    exact ⟨some loop.id, b, bind_eq hb, hk⟩

/-- A `var` means something wherever it is declared. -/
theorem knows_of_var (globals : List Name) {c : Surroundings} {x : Name} {m : Mark}
    (ha : a.Consistent)
    (hc : a.Agrees fs sc c) (hv : a.DeclaresVars fs [(x, m)]) (hx : x ∉ c.inner) :
    c.Knows globals x ∧ c.MayAssign x := by
  have hnone : a.bindingBelowFunction? sc x = none := by
    cases hd : a.bindingBelowFunction? sc x with
    | none => rfl
    | some d => exact absurd ((hc.below x).2 ⟨d, hd⟩) hx
  obtain ⟨d, -, hd, -, hscoped⟩ :=
    Declares.of_vars ha hv hc.inFunction (List.mem_singleton.2 rfl) hnone
  refine ⟨.inl (hc.mem_names.2 (by simp [hd])), ?_⟩
  rw [Surroundings.MayAssign, ← hc.means x, hd, Option.map_some,
    Origin.isConst_of_isFunctionScoped hscoped]
  simp

/-- The parts of a declaration declare nothing in the scopes around it. -/
theorem not_own_declaration {k : Mark} {x : Name} {d : DeclKind} {v : Option (Expr Mark)}
    {m : Nat} {i : NodeId} (hi : Between (k.id + 1) m i) : ¬ OwnOf (.declaration k x d v) i := by
  intro hown
  obtain rfl : i = k.id := by
    rcases hown with hown | hown
    · cases d <;> simp_all [varIds, Stmt.vars]
    · cases d <;> simp_all [Lexical.ids, Stmt.lexical?, DeclKind.isBlockScoped]
  exact Nat.not_succ_le_self _ hi.1

/-- What is known agrees with the surroundings after a piece as well. -/
theorem agrees_after {n m : Nat} {φ : Scoping → Prop} {own : NodeId → Prop} {k j : Nat}
    {c : Surroundings} (hc : a.Agrees fs sc c) (ha : a.Ready fs sc k j own)
    (h : Achieves n m a b φ) : b.Agrees fs sc c :=
  hc.grows h.grows ha.consistent h.consistent

mutual

theorem expr_total : ∀ (e : Expr Mark) {a : Scoping} {fs sc : ScopeId} {n m : Nat}
    {c : Surroundings}, e.Shaped S → Consecutive n e.nodes m → a.Ready fs sc n m None →
    a.Agrees fs sc c → a.KeepsConstants → e.WellScoped globals c →
    ∃ b, expr globals sc e a = .ok ((), b) ∧ b.KeepsConstants ∧
      Achieves n m a b fun d => d.ResolvedExpr globals sc e
  | .literal .., a, fs, sc, n, m, c, hsrc, hn, ha, hc, hk, hw
  | .signal _ _ none, a, fs, sc, n, m, c, hsrc, hn, ha, hc, hk, hw =>
    have h := by rw [expr]; rfl
    ⟨a, h, hk, expr_ok _ hsrc hn ha h⟩
  | .name k x, a, fs, sc, n, m, c, hsrc, hn, ha, hc, hk, hw => by
    rw [Expr.WellScoped] at hw
    obtain ⟨b, h, hkb⟩ := reference_total (m := k) (w := false) ha.consistent hc hk hw
      fun hf => absurd hf Bool.false_ne_true
    have h : expr globals sc (.name k x) a = .ok ((), b) := by rw [expr, h]
    exact ⟨b, h, hkb, expr_ok _ hsrc hn ha h⟩
  | .unary k o e, a, fs, sc, n, m, c, hsrc, hn, ha, hc, hk, hw => by
    rw [Expr.WellScoped] at hw
    obtain ⟨-, -, hne⟩ := hn.of_cons
    obtain ⟨b, h, hkb, -⟩ := expr_total e hsrc hne (ha.tail fun _ _ => id) hc hk hw
    have h : expr globals sc (.unary k o e) a = .ok ((), b) := by rw [expr, h]
    exact ⟨b, h, hkb, expr_ok _ hsrc hn ha h⟩
  | .signal k o (some e), a, fs, sc, n, m, c, hsrc, hn, ha, hc, hk, hw => by
    rw [Expr.WellScoped] at hw
    obtain ⟨-, -, hne⟩ := hn.of_cons
    obtain ⟨b, h, hkb, -⟩ := expr_total e hsrc.2 hne (ha.tail fun _ _ => id) hc hk hw
    have h : expr globals sc (.signal k o (some e)) a = .ok ((), b) := by rw [expr, h]
    exact ⟨b, h, hkb, expr_ok _ hsrc hn ha h⟩
  | .signalIs k e o, a, fs, sc, n, m, c, hsrc, hn, ha, hc, hk, hw => by
    rw [Expr.WellScoped] at hw
    obtain ⟨-, -, hne⟩ := hn.of_cons
    obtain ⟨b, h, hkb, -⟩ := expr_total e hsrc.2 hne (ha.tail fun _ _ => id) hc hk hw
    have h : expr globals sc (.signalIs k e o) a = .ok ((), b) := by rw [expr, h]
    exact ⟨b, h, hkb, expr_ok _ hsrc hn ha h⟩
  | .signalValue k e, a, fs, sc, n, m, c, hsrc, hn, ha, hc, hk, hw => by
    rw [Expr.WellScoped] at hw
    obtain ⟨-, -, hne⟩ := hn.of_cons
    obtain ⟨b, h, hkb, -⟩ := expr_total e hsrc.2 hne (ha.tail fun _ _ => id) hc hk hw
    have h : expr globals sc (.signalValue k e) a = .ok ((), b) := by rw [expr, h]
    exact ⟨b, h, hkb, expr_ok _ hsrc hn ha h⟩
  | .binary k o l r, a, fs, sc, n, m, c, hsrc, hn, ha, hc, hk, hw => by
    rw [Expr.WellScoped] at hw
    obtain ⟨-, -, hne⟩ := hn.of_cons
    obtain ⟨p, hl, hr⟩ := hne.of_append
    have ht := ha.tail (q := None) fun _ _ => id
    obtain ⟨a₁, h₁, hk₁, A⟩ := expr_total l hsrc.1 hl (ht.left hr.le fun _ _ => id) hc hk hw.1
    obtain ⟨b, h₂, hkb, -⟩ := expr_total r hsrc.2 hr (ht.right A hl.le fun _ _ => id)
      (agrees_after hc ha A) hk₁ hw.2
    have h : expr globals sc (.binary k o l r) a = .ok ((), b) := by rw [expr, bind_eq h₁, h₂]
    exact ⟨b, h, hkb, expr_ok _ hsrc hn ha h⟩
  | .index k l r, a, fs, sc, n, m, c, hsrc, hn, ha, hc, hk, hw => by
    rw [Expr.WellScoped] at hw
    obtain ⟨-, -, hne⟩ := hn.of_cons
    obtain ⟨p, hl, hr⟩ := hne.of_append
    have ht := ha.tail (q := None) fun _ _ => id
    obtain ⟨a₁, h₁, hk₁, A⟩ := expr_total l hsrc.1 hl (ht.left hr.le fun _ _ => id) hc hk hw.1
    obtain ⟨b, h₂, hkb, -⟩ := expr_total r hsrc.2 hr (ht.right A hl.le fun _ _ => id)
      (agrees_after hc ha A) hk₁ hw.2
    have h : expr globals sc (.index k l r) a = .ok ((), b) := by rw [expr, bind_eq h₁, h₂]
    exact ⟨b, h, hkb, expr_ok _ hsrc hn ha h⟩
  | .call k f args, a, fs, sc, n, m, c, hsrc, hn, ha, hc, hk, hw => by
    rw [Expr.WellScoped] at hw
    obtain ⟨-, -, hne⟩ := hn.of_cons
    obtain ⟨p, hl, hr⟩ := hne.of_append
    have ht := ha.tail (q := None) fun _ _ => id
    obtain ⟨a₁, h₁, hk₁, A⟩ := expr_total f hsrc.1 hl (ht.left hr.le fun _ _ => id) hc hk hw.1
    obtain ⟨b, h₂, hkb, -⟩ := exprs_total args hsrc.2 hr (ht.right A hl.le fun _ _ => id)
      (agrees_after hc ha A) hk₁ hw.2
    have h : expr globals sc (.call k f args) a = .ok ((), b) := by rw [expr, bind_eq h₁, h₂]
    exact ⟨b, h, hkb, expr_ok _ hsrc hn ha h⟩
  | .array k es, a, fs, sc, n, m, c, hsrc, hn, ha, hc, hk, hw => by
    rw [Expr.WellScoped] at hw
    obtain ⟨-, -, hne⟩ := hn.of_cons
    obtain ⟨b, h, hkb, -⟩ := exprs_total es hsrc hne (ha.tail fun _ _ => id) hc hk hw
    have h : expr globals sc (.array k es) a = .ok ((), b) := by rw [expr, h]
    exact ⟨b, h, hkb, expr_ok _ hsrc hn ha h⟩
  | .function k ps (.mk j ss), a, fs, sc, n, m, c, hsrc, hn, ha, hc, hk, hw => by
    rw [Expr.WellScoped] at hw
    obtain ⟨hkn, hlt, hne⟩ := hn.of_cons
    change n = k.id at hkn
    subst hkn
    obtain ⟨-, -, hss⟩ := hne.of_cons
    obtain ⟨s, hs⟩ := ha.known
    obtain ⟨hsm, hsid⟩ := mem_of_scope? hs
    have hp : ∀ p, some sc = some p → p < k.id ∧ ∃ t ∈ a.scopes, t.id = p := by
      rintro p ⟨⟩
      exact ⟨ha.stands.lt, s, hsm, hsid⟩
    obtain ⟨a₁, h₁, hk₁⟩ := openFunction_total ha.consistent
      (fun t ht he => ha.clear.scopes t ht (by rw [he]; exact ⟨Nat.le_refl _, hlt⟩)) hp hw.1
    obtain ⟨hgrow, hcons, hopens, hclear⟩ := openFunction_ok ha.consistent hne ha.clear hp h₁
    obtain ⟨t, ht, htk, -⟩ := hopens.scope
    obtain ⟨b, h₂, hkb, -⟩ := stmts_total (f := k.id) (s := k.id) ss false hsrc hss
      ⟨hcons, ⟨.root ht htk, Nat.lt_succ_of_lt (Nat.lt_succ_self _)⟩, hclear⟩ hopens.vars
      hopens.lexicals (hopens.agrees_inner (hc.grows hgrow ha.consistent hcons) hcons)
      (hk₁ hk) (fun hf => absurd hf Bool.false_ne_true) hw.2
    have h : expr globals sc (.function k ps (.mk j ss)) a = .ok ((), b) := by
      rw [expr, bind_eq h₁, h₂]
    exact ⟨b, h, hkb, expr_ok _ hsrc hn ha h⟩
  | .unknown .., _, _, _, _, _, _, hsrc, _, _, _, _, _ => hsrc.elim

theorem exprs_total : ∀ (es : List (Expr Mark)) {a : Scoping} {fs sc : ScopeId} {n m : Nat}
    {c : Surroundings}, Expr.ShapedList S es → Consecutive n (Expr.nodesOfList es) m →
    a.Ready fs sc n m None → a.Agrees fs sc c → a.KeepsConstants →
    Expr.AreWellScoped globals c es →
    ∃ b, exprs globals sc es a = .ok ((), b) ∧ b.KeepsConstants ∧
      Achieves n m a b fun d => d.ResolvedExprs globals sc es
  | [], a, fs, sc, n, m, c, hsrc, hn, ha, hc, hk, hw =>
    have h := by rw [exprs]; rfl
    ⟨a, h, hk, exprs_ok _ hsrc hn ha h⟩
  | e :: es, a, fs, sc, n, m, c, hsrc, hn, ha, hc, hk, hw => by
    rw [Expr.AreWellScoped] at hw
    obtain ⟨p, hl, hr⟩ := hn.of_append
    obtain ⟨a₁, h₁, hk₁, A⟩ := expr_total e hsrc.1 hl (ha.left hr.le fun _ _ => id) hc hk hw.1
    obtain ⟨b, h₂, hkb, -⟩ := exprs_total es hsrc.2 hr (ha.right A hl.le fun _ _ => id)
      (agrees_after hc ha A) hk₁ hw.2
    have h : exprs globals sc (e :: es) a = .ok ((), b) := by rw [exprs, bind_eq h₁, h₂]
    exact ⟨b, h, hkb, exprs_ok _ hsrc hn ha h⟩

theorem stmts_total : ∀ (ss : List (Stmt Mark)) (inLoop : Bool) {a : Scoping} {f s : ScopeId}
    {n m : Nat} {c : Surroundings}, Stmt.ShapedList S ss →
    Consecutive n (Stmt.nodesOfList ss) m → a.Ready f s n m (Own ss) →
    a.DeclaresVars f (Stmt.varsOfList ss) → a.DeclaresLexicals s (ss.filterMap Stmt.lexical?) →
    a.Agrees f s c → a.KeepsConstants → (c.inLoop → inLoop) → Stmt.AreWellScoped globals c ss →
    ∃ b, stmts globals s inLoop ss a = .ok ((), b) ∧ b.KeepsConstants ∧
      Achieves n m a b fun d => d.ResolvedStmts globals f s inLoop ss
  | [], inLoop, a, f, s, n, m, c, hsrc, hn, ha, hv, hx, hc, hk, hin, hw =>
    have h := by rw [stmts]; rfl
    ⟨a, h, hk, stmts_ok _ hsrc hn ha hv hx h⟩
  | s :: ss, inLoop, a, fs, sc, n, m, c, hsrc, hn, ha, hv, hx, hc, hk, hin, hw => by
    rw [Stmt.AreWellScoped] at hw
    obtain ⟨p, hl, hr⟩ := hn.of_append
    obtain ⟨hxs, hxss⟩ := declaresLexicals_cons hx
    obtain ⟨a₁, h₁, hk₁, A⟩ := stmt_total s inLoop hsrc.1 hl
      (ha.left hr.le fun i hi hown => (own_cons.1 hown).resolve_right fun h =>
        Nat.not_lt.2 (hr.mem.1 h.mem).1 hi.2)
      (fun v hv' => hv v (List.mem_append_left _ hv')) hxs hc hk hin hw.1
    obtain ⟨b, h₂, hkb, -⟩ := stmts_total ss inLoop hsrc.2 hr
      (ha.right A hl.le fun i hi hown => (own_cons.1 hown).resolve_left fun h =>
        Nat.not_lt.2 hi.1 (hl.mem.1 h.mem).2)
      (DeclaresVars.grows (fun v hv' => hv v (List.mem_append_right _ hv')) A.grows)
      (hxss.grows A.grows) (agrees_after hc ha A) hk₁ hin hw.2
    have h : stmts globals sc inLoop (s :: ss) a = .ok ((), b) := by rw [stmts, bind_eq h₁, h₂]
    exact ⟨b, h, hkb, stmts_ok _ hsrc hn ha hv hx h⟩

theorem block_total : ∀ (body : Block Mark) (inLoop : Bool) {a : Scoping} {fs sc : ScopeId}
    {n m : Nat} {c : Surroundings}, body.Shaped S → Consecutive n body.nodes m →
    a.Ready fs sc n m (fun i => i ∈ varIds body.vars) → a.DeclaresVars fs body.vars →
    a.Agrees fs sc c → a.KeepsConstants → (c.inLoop → inLoop) → body.WellScoped globals c →
    ∃ own b, block globals sc inLoop body a = .ok (own, b) ∧ b.KeepsConstants ∧
      Achieves n m a b fun d => d.NoLoopBody body ∧ d.ResolvedBlock globals fs sc inLoop body
  | .mk k ss, inLoop, a, fs, sc, n, m, c, hsrc, hn, ha, hv, hc, hk, hin, hw => by
    rw [Block.WellScoped] at hw
    obtain ⟨hkn, hlt, hss⟩ := hn.of_cons
    change n = k.id at hkn
    subst hkn
    obtain ⟨own, a₁, h₁, hk₁⟩ := openBlock_total ha.consistent ha.stands
      (show k.id ≤ (Block.mk k ss).mark.id from Nat.le_refl _)
      (fun t ht he => ha.clear.scopes t ht (by
        rw [he]
        exact ⟨Nat.le_refl _, hlt⟩)) hw.1
    obtain ⟨hown, hgrow, hcons, hopens, -, hstands, hlex, hclear⟩ :=
      openBlock_ok ha.consistent hn ha.clear ha.stands h₁
    have hsc : own.getD sc = (Block.mk k ss).scopeIn sc := by
      rw [hown, Block.scopeIn]
      split <;> rfl
    obtain ⟨b, h₂, hkb, -⟩ := stmts_total ss inLoop hsrc hss ⟨hcons, hstands, hclear⟩
      (hv.grows hgrow) hlex ((hc.grows hgrow ha.consistent hcons).block hcons hopens)
      (hk₁ hk) hin hw.2
    have h : block globals sc inLoop (.mk k ss) a = .ok (own, b) := by
      rw [block, bind_eq h₁, hsc, bind_eq h₂]
      rfl
    exact ⟨own, b, h, hkb, (block_done _ hsrc hn ha hv h).2.achieves hn ha.clear⟩

theorem stmt_total : ∀ (s : Stmt Mark) (inLoop : Bool) {a : Scoping} {fs sc : ScopeId}
    {n m : Nat} {c : Surroundings}, s.Shaped S → Consecutive n s.nodes m →
    a.Ready fs sc n m (OwnOf s) → a.DeclaresVars fs s.vars →
    a.DeclaresLexicals sc s.lexical?.toList → a.Agrees fs sc c → a.KeepsConstants →
    (c.inLoop → inLoop) → s.WellScoped globals c →
    ∃ b, stmt globals sc inLoop s a = .ok ((), b) ∧ b.KeepsConstants ∧
      Achieves n m a b fun d => d.ResolvedStmt globals fs sc inLoop s
  | .declaration k x d v, inLoop, a, fs, sc, n, m, c, hsrc, hn, ha, hv, hx, hc, hk, hin, hw => by
    cases v with
    | none =>
      rw [Stmt.WellScoped] at hw
      have h : stmt globals sc inLoop (.declaration k x d none) a = .ok ((), a) := by
        rw [stmt_declaration, bind_eq (checkDeclaration_total hc hw.1 fun _ => hw.2)]
        rfl
      exact ⟨a, h, hk, stmt_ok _ hsrc hn ha hv hx h⟩
    | some e =>
      rw [Stmt.WellScoped] at hw
      obtain ⟨hkn, -, hne⟩ := hn.of_cons
      change n = k.id at hkn
      subst hkn
      obtain ⟨b, h₁, hkb, -⟩ := expr_total e hsrc hne
        (ha.tail fun i hi hown => not_own_declaration hi hown) hc hk hw.2
      have h : stmt globals sc inLoop (.declaration k x d (some e)) a = .ok ((), b) := by
        rw [stmt_declaration,
          bind_eq (checkDeclaration_total (v := some e) hc hw.1 fun he => by cases he)]
        exact h₁
      exact ⟨b, h, hkb, stmt_ok _ hsrc hn ha hv hx h⟩
  | .assignment k (.name j x) v, inLoop, a, fs, sc, n, m, c, hsrc, hn, ha, hv, hx, hc, hk, hin,
      hw => by
    rw [Stmt.WellScoped] at hw
    obtain ⟨-, -, hne⟩ := hn.of_cons
    obtain ⟨p, ht, hr⟩ := hne.of_append
    obtain ⟨hj, hlt, -⟩ := ht.of_cons
    change n + 1 = j.id at hj
    have hready := ha.tail (q := None) fun i _ hown => by
      rcases hown with hown | hown <;> cases hown
    obtain ⟨a₁, h₁, hk₁⟩ := reference_total (m := j) (w := true) ha.consistent hc hk hw.1
      fun _ => hw.2.1
    have A := (reference_ok ha.consistent ha.known (fun r hr' he => ha.clear.references r hr' (by
      have := hr.le
      rw [he]
      exact ⟨by omega, by omega⟩)) h₁).widen (p := n + 1) (q := p) (by omega) (by omega)
    obtain ⟨b, h₂, hkb, -⟩ := expr_total v hsrc.2 hr (hready.right A ht.le fun _ _ => id)
      (agrees_after hc ha A) hk₁ hw.2.2
    have h : stmt globals sc inLoop (.assignment k (.name j x) v) a = .ok ((), b) := by
      rw [stmt]
      exact (bind_eq h₁).trans h₂
    exact ⟨b, h, hkb, stmt_ok _ hsrc hn ha hv hx h⟩
  | .assignment k (.index j x y) v, inLoop, a, fs, sc, n, m, c, hsrc, hn, ha, hv, hx, hc, hk, hin,
      hw => by
    rw [Stmt.WellScoped] at hw
    obtain ⟨-, -, hne⟩ := hn.of_cons
    obtain ⟨p, ht, hr⟩ := hne.of_append
    obtain ⟨-, -, ht'⟩ := ht.of_cons
    obtain ⟨q, hx', hy⟩ := ht'.of_append
    have hready := ha.tail (q := None) fun i _ hown => by
      rcases hown with hown | hown <;> cases hown
    have hready' := (hready.left hr.le (q := None) fun _ _ => id).tail (q := None) fun _ _ => id
    obtain ⟨a₁, h₁, hk₁, A⟩ := expr_total x hsrc.1.1 hx'
      (hready'.left hy.le fun _ _ => id) hc hk hw.1
    obtain ⟨a₂, h₂, hk₂, B⟩ := expr_total y hsrc.1.2 hy (hready'.right A hx'.le fun _ _ => id)
      (agrees_after hc ha A) hk₁ hw.2.1
    have AB := (A.seq B hx'.le hy.le).widen (p := n + 1) (Nat.le_succ _) (Nat.le_refl _)
    obtain ⟨b, h₃, hkb, -⟩ := expr_total v hsrc.2 hr (hready.right AB ht.le fun _ _ => id)
      (agrees_after hc ha AB) hk₂ hw.2.2
    have h : stmt globals sc inLoop (.assignment k (.index j x y) v) a = .ok ((), b) := by
      rw [stmt, bind_eq h₁]
      exact (bind_eq h₂).trans h₃
    exact ⟨b, h, hkb, stmt_ok _ hsrc hn ha hv hx h⟩
  | .assignment _ (.literal ..) _, _, _, _, _, _, _, _, _, _, _, _, _, _, _, _, hw
  | .assignment _ (.unary ..) _, _, _, _, _, _, _, _, _, _, _, _, _, _, _, _, hw
  | .assignment _ (.binary ..) _, _, _, _, _, _, _, _, _, _, _, _, _, _, _, _, hw
  | .assignment _ (.call ..) _, _, _, _, _, _, _, _, _, _, _, _, _, _, _, _, hw
  | .assignment _ (.array ..) _, _, _, _, _, _, _, _, _, _, _, _, _, _, _, _, hw
  | .assignment _ (.function ..) _, _, _, _, _, _, _, _, _, _, _, _, _, _, _, _, hw
  | .assignment _ (.signal ..) _, _, _, _, _, _, _, _, _, _, _, _, _, _, _, _, hw
  | .assignment _ (.signalIs ..) _, _, _, _, _, _, _, _, _, _, _, _, _, _, _, _, hw
  | .assignment _ (.signalValue ..) _, _, _, _, _, _, _, _, _, _, _, _, _, _, _, _, hw
  | .assignment _ (.unknown ..) _, _, _, _, _, _, _, _, _, _, _, _, _, _, _, _, hw => by
    simp only [Stmt.WellScoped] at hw
  | .expression k e, inLoop, a, fs, sc, n, m, c, hsrc, hn, ha, hv, hx, hc, hk, hin, hw => by
    rw [Stmt.WellScoped] at hw
    obtain ⟨-, -, hne⟩ := hn.of_cons
    obtain ⟨b, h₁, hkb, -⟩ := expr_total e hsrc hne (ha.tail fun i _ hown => by
      rcases hown with hown | hown <;> cases hown) hc hk hw
    have h : stmt globals sc inLoop (.expression k e) a = .ok ((), b) := by rw [stmt, h₁]
    exact ⟨b, h, hkb, stmt_ok _ hsrc hn ha hv hx h⟩
  | .block body, inLoop, a, fs, sc, n, m, c, hsrc, hn, ha, hv, hx, hc, hk, hin, hw => by
    rw [Stmt.WellScoped] at hw
    obtain ⟨own, b, h₁, hkb, -⟩ := block_total body inLoop hsrc hn
      (ha.left (Nat.le_refl _) fun i _ hown => by
        rcases hown with hown | hown
        · simpa only [Stmt.vars] using hown
        · cases hown) (by simpa only [Stmt.vars] using hv) hc hk hin hw
    have h : stmt globals sc inLoop (.block body) a = .ok ((), b) := by
      rw [stmt, bind_eq h₁]
      rfl
    exact ⟨b, h, hkb, stmt_ok _ hsrc hn ha hv hx h⟩
  | .branch k e t none, inLoop, a, fs, sc, n, m, c, hsrc, hn, ha, hv, hx, hc, hk, hin, hw => by
    rw [Stmt.WellScoped] at hw
    obtain ⟨-, -, hne⟩ := hn.of_cons
    obtain ⟨p, he, ht⟩ := hne.of_append
    rw [List.append_nil] at ht
    have hvars : a.DeclaresVars fs t.vars := by simpa [Stmt.vars] using hv
    obtain ⟨a₁, h₁, hk₁, A⟩ := expr_total e hsrc.1 he (ready_condition ha ht (.nil m)) hc hk hw.1
    obtain ⟨own, b, h₂, hkb, -⟩ := block_total t inLoop hsrc.2 ht
      (ready_then ha A he.le (.nil m)) (hvars.grows A.grows) (agrees_after hc ha A) hk₁ hin hw.2
    have h : stmt globals sc inLoop (.branch k e t none) a = .ok ((), b) := by
      rw [stmt, bind_eq h₁, bind_eq h₂]
      rfl
    exact ⟨b, h, hkb, stmt_ok _ hsrc hn ha hv hx h⟩
  | .branch k e t (some f), inLoop, a, fs, sc, n, m, c, hsrc, hn, ha, hv, hx, hc, hk, hin, hw => by
    rw [Stmt.WellScoped] at hw
    obtain ⟨-, -, hne⟩ := hn.of_cons
    obtain ⟨p, he, htf⟩ := hne.of_append
    obtain ⟨q, ht, hf⟩ := htf.of_append
    have hvars := hv
    rw [Stmt.vars] at hvars
    obtain ⟨hvt, hvf⟩ := List.forall_mem_append.1 hvars
    obtain ⟨a₁, h₁, hk₁, A⟩ := expr_total e hsrc.1 he (ready_condition ha ht hf) hc hk hw.1
    have hthen := ready_then ha A he.le hf
    have hc₁ := agrees_after hc ha A
    obtain ⟨own, a₂, h₂, hk₂, B⟩ := block_total t inLoop hsrc.2.1 ht hthen
      (DeclaresVars.grows hvt A.grows) hc₁ hk₁ hin hw.2.1
    have AB := A.seq B he.le ht.le
    obtain ⟨own', b, h₃, hkb, -⟩ := block_total f inLoop hsrc.2.2 hf (ready_else ha AB he.le ht)
      (DeclaresVars.grows hvf AB.grows) (agrees_after hc₁ hthen B) hk₂ hin hw.2.2
    have h : stmt globals sc inLoop (.branch k e t (some f)) a = .ok ((), b) := by
      rw [stmt, bind_eq h₁, bind_eq h₂, bind_eq h₃]
      rfl
    exact ⟨b, h, hkb, stmt_ok _ hsrc hn ha hv hx h⟩
  | .loop k hd body, inLoop, a, fs, sc, n, m, c, hsrc, hn, ha, hv, hx, hc, hk, hin, hw => by
    rw [Stmt.WellScoped] at hw
    obtain ⟨hkn, -, hne⟩ := hn.of_cons
    change n = k.id at hkn
    subst hkn
    obtain ⟨p, hh, hb⟩ := hne.of_append
    have hvars := hv
    rw [Stmt.vars] at hvars
    obtain ⟨hvh, hvb⟩ := List.forall_mem_append.1 hvars
    have hheader := ready_loopHeader ha hb
    obtain ⟨inner, a₁, h₁, hk₁⟩ := header_total hd inLoop hsrc.1 hh hheader hvh hc hk hin hw.1
    obtain ⟨hinner, D⟩ := header_ok hd hsrc.1 hh hheader hvh h₁
    obtain ⟨own, b, h₂, hkb, -⟩ := block_total body true hsrc.2 hb (ready_loopBody ha hh D)
      (DeclaresVars.grows hvb D.grows)
      ((hc.grows D.grows ha.consistent D.consistent).header D.consistent D.opens).loopBody hk₁
      (fun _ => rfl) hw.2
    have h : stmt globals sc inLoop (.loop k hd body) a =
        .ok ((), b.addLoop ⟨k.id, inner, own, sc⟩) := by
      rw [stmt, bind_eq h₁, getD_header inner hinner, bind_eq h₂]
      rfl
    exact ⟨_, h, hkb, stmt_ok _ hsrc hn ha hv hx h⟩
  | .ret k none, inLoop, a, fs, sc, n, m, c, hsrc, hn, ha, hv, hx, hc, hk, hin, hw =>
    have h := by rw [stmt]; rfl
    ⟨a, h, hk, stmt_ok _ hsrc hn ha hv hx h⟩
  | .ret k (some e), inLoop, a, fs, sc, n, m, c, hsrc, hn, ha, hv, hx, hc, hk, hin, hw => by
    rw [Stmt.WellScoped] at hw
    obtain ⟨-, -, hne⟩ := hn.of_cons
    obtain ⟨b, h₁, hkb, -⟩ := expr_total e hsrc hne (ha.tail fun i _ hown => by
      rcases hown with hown | hown <;> cases hown) hc hk hw
    have h : stmt globals sc inLoop (.ret k (some e)) a = .ok ((), b) := by rw [stmt, h₁]
    exact ⟨b, h, hkb, stmt_ok _ hsrc hn ha hv hx h⟩
  | .brk k, inLoop, a, fs, sc, n, m, c, hsrc, hn, ha, hv, hx, hc, hk, hin, hw
  | .cont k, inLoop, a, fs, sc, n, m, c, hsrc, hn, ha, hv, hx, hc, hk, hin, hw =>
    have h := by rw [stmt, checkJump, if_pos (hin hw)]; rfl
    ⟨a, h, hk, stmt_ok _ hsrc hn ha hv hx h⟩
  | .unknown .., _, _, _, _, _, _, _, hsrc, _, _, _, _, _, _, _, _ => hsrc.elim

theorem header_total : ∀ (h : Header Mark) (inLoop : Bool) {loop : Mark} {a : Scoping}
    {fs sc : ScopeId} {m : Nat} {c : Surroundings}, h.Shaped S →
    Consecutive (loop.id + 1) h.nodes m →
    (a.Ready fs sc loop.id m fun i => i ∈ varIds h.vars) → a.DeclaresVars fs h.vars →
    a.Agrees fs sc c → a.KeepsConstants → (c.inLoop → inLoop) → h.WellScoped globals c →
    ∃ own b, header globals sc inLoop loop h a = .ok (own, b) ∧ b.KeepsConstants
  | .whileTrue k e, inLoop, loop, a, fs, sc, m, c, hsrc, hn, ha, hv, hc, hk, hin, hw => by
    rw [Header.WellScoped] at hw
    obtain ⟨-, -, hne⟩ := hn.of_cons
    obtain ⟨b, h, hkb, -⟩ := expr_total e hsrc hne ((ha.tail (q := None) fun i _ hi => by
      cases hi).tail fun _ _ => id) hc hk hw
    refine ⟨none, b, ?_, hkb⟩
    rw [header, bind_eq h]
    rfl
  | .counting k i e u, inLoop, loop, a, fs, sc, m, c, hsrc, hn, ha, hv, hc, hk, hin, hw => by
    obtain ⟨hsi, hse, hsu⟩ := Header.shaped_counting.1 hsrc
    obtain ⟨hwi, hwe, hwu⟩ := Header.wellScoped_counting.1 hw
    have hle := hn.le
    obtain ⟨own, a₀, h₀, hk₀⟩ := openHeader_total (h := .counting k i e u) ha.consistent ha.stands
      fun s hs he => ha.clear.scopes s hs (by
        rw [he]
        exact ⟨Nat.le_refl _, by omega⟩)
    obtain ⟨hown, hgrow, -, hopens, hready, hlex⟩ := openHeader_ok ha hn h₀
    have hc₀ := (hc.grows hgrow ha.consistent hready.consistent).header hready.consistent hopens
    have hsc : own.getD sc = (Header.counting k i e u).scopeIn loop.id sc := by
      rw [hown, Header.scopeIn]
      cases headerLexical? (.counting k i e u) <;> rfl
    have hin' : (c.enter (Header.counting k i e u).lexical?.toList).inLoop → inLoop := hin
    generalize (Header.counting k i e u).scopeIn loop.id sc = inner at hready hc₀ hsc hlex
    generalize c.enter (Header.counting k i e u).lexical?.toList = c' at hc₀ hwi hwe hwu hin'
    rw [Header.nodes_counting] at hn
    obtain ⟨-, -, hn⟩ := hn.of_cons
    obtain ⟨p, hi, hcu⟩ := hn.of_append
    obtain ⟨q, he, hu⟩ := hcu.of_append
    have hready' := hready.tail (q := i.elim None OwnOf) fun j _ hj => by
      cases i with
      | none => rcases hj with hj | hj <;> cases hj
      | some s => exact hj
    obtain ⟨a₁, φ, h₁, hk₁, A⟩ : ∃ a₁ φ, clause (stmt globals inner inLoop) i a₀ = .ok ((), a₁) ∧
        a₁.KeepsConstants ∧ Achieves (loop.id + 1 + 1) p a₀ a₁ φ := by
      cases i with
      | none => exact ⟨a₀, fun _ => True, rfl, hk₀ hk, .nothing hready.consistent fun _ => trivial⟩
      | some s =>
        obtain ⟨a₁, h₁, hk₁, A⟩ := stmt_total s inLoop (hsi s rfl).2 hi
          (hready'.left hcu.le fun _ _ => id) (hv.grows hgrow) hlex hc₀ (hk₀ hk) hin' (hwi s rfl)
        exact ⟨a₁, _, h₁, hk₁, A⟩
    have hready₁ := hready'.right (q := None) A hi.le fun j hj ho => by
      cases i with
      | none => exact ho
      | some s => exact absurd (hi.mem.1 ho.mem).2 (Nat.not_lt.2 hj.1)
    have hc₁ := agrees_after hc₀ hready' A
    obtain ⟨a₂, ψ, h₂, hk₂, B⟩ : ∃ a₂ ψ, clause (expr globals inner) e a₁ = .ok ((), a₂) ∧
        a₂.KeepsConstants ∧ Achieves p q a₁ a₂ ψ := by
      cases e with
      | none => exact ⟨a₁, fun _ => True, rfl, hk₁, .nothing A.consistent fun _ => trivial⟩
      | some x =>
        obtain ⟨a₂, h₂, hk₂, B⟩ := expr_total x (hse x rfl) he (hready₁.left hu.le fun _ _ => id)
          hc₁ hk₁ (hwe x rfl)
        exact ⟨a₂, _, h₂, hk₂, B⟩
    have hready₂ := hready₁.right (q := None) B he.le fun _ _ => id
    obtain ⟨a₃, h₃, hk₃⟩ : ∃ a₃, clause (stmt globals inner inLoop) u a₂ = .ok ((), a₃) ∧
        a₃.KeepsConstants := by
      cases u with
      | none => exact ⟨a₂, rfl, hk₂⟩
      | some s =>
        have hnone : ∀ j, ¬ OwnOf s j := fun j => not_ownOf_update (hsu s rfl).1
        have hvars : s.vars = [] := List.eq_nil_iff_forall_not_mem.2 fun v hv' =>
          hnone v.2.id (.inl (List.mem_map_of_mem hv'))
        have hlexs : s.lexical?.toList = [] := List.eq_nil_iff_forall_not_mem.2 fun l hl =>
          hnone l.mark.id (.inr (List.mem_map_of_mem hl))
        obtain ⟨a₃, h₃, hk₃, -⟩ := stmt_total s inLoop (hsu s rfl).2 hu
          (hready₂.left (Nat.le_refl _) fun _ _ => False.elim) (by rw [hvars]; exact nofun)
          (by rw [hlexs]; exact nofun) (agrees_after hc₁ hready₁ B) hk₂ hin' (hwu s rfl)
        exact ⟨a₃, h₃, hk₃⟩
    refine ⟨own, a₃, ?_, hk₃⟩
    rw [header_counting, bind_eq h₀, hsc, bind_eq h₁, bind_eq h₂, bind_eq h₃]
    rfl
  | .forOf k x none e, inLoop, loop, a, fs, sc, m, c, hsrc, hn, ha, hv, hc, hk, hin, hw => by
    rw [Header.WellScoped] at hw
    obtain ⟨-, -, hne⟩ := hn.of_cons
    obtain ⟨a₁, h₁, hk₁, A⟩ := expr_total e hsrc hne ((ha.tail (q := None) fun i _ hi => by
      cases hi).tail fun _ _ => id) hc hk hw.1
    obtain ⟨b, h₂, hkb⟩ := reference_total (m := k) (w := true) A.consistent
      (agrees_after hc ha A) hk₁ hw.2.1 fun _ => hw.2.2
    refine ⟨none, b, ?_, hkb⟩
    rw [header, bind_eq h₁, bind_eq h₂]
    rfl
  | .forOf k x (some .var) e, inLoop, loop, a, fs, sc, m, c, hsrc, hn, ha, hv, hc, hk, hin, hw => by
    rw [Header.WellScoped] at hw
    obtain ⟨hkn, -, hne⟩ := hn.of_cons
    change @Eq Nat (loop.id + 1) k.id at hkn
    have hready := (ha.tail (q := fun i => i = k.id) fun i _ hi => by
      simpa [varIds, Header.vars] using hi)
    obtain ⟨a₁, h₁, hk₁, A⟩ := expr_total e hsrc hne (hready.tail fun i hi he => by
      have := hi.1
      rw [he] at this
      omega) hc hk hw.1
    have hc₁ := agrees_after hc ha A
    obtain ⟨hknows, hassign⟩ := knows_of_var globals A.consistent hc₁ (hv.grows A.grows) (hw.2 rfl)
    obtain ⟨b, h₂, hkb⟩ := reference_total (m := k) (w := true) A.consistent hc₁ hk₁ hknows
      fun _ => hassign
    refine ⟨none, b, ?_, hkb⟩
    rw [header, bind_eq h₁, bind_eq (checkVarPath_total hc₁ (hw.2 rfl)), bind_eq h₂]
    rfl
  | .forOf k x (some .letVar) e, inLoop, loop, a, fs, sc, m, c, hsrc, hn, ha, hv, hc, hk, hin, hw
  | .forOf k x (some .const) e, inLoop, loop, a, fs, sc, m, c, hsrc, hn, ha, hv, hc,
      hk, hin, hw => by
    rw [Header.WellScoped] at hw
    obtain ⟨hkn, -, hne⟩ := hn.of_cons
    have hle := hne.le
    obtain ⟨a₁, h₁, hk₁, A⟩ := expr_total e hsrc hne ((ha.tail (q := None) fun i _ hi => by
      cases hi).tail fun _ _ => id) hc hk hw.1
    have hnew : ∀ s ∈ a₁.scopes, s.id ≠ loop.id := fun s hs he => by
      rcases A.grows.scopes.mem hs with hs | hs
      · exact ha.clear.scopes s hs (by
          rw [he]
          exact ⟨Nat.le_refl _, by omega⟩)
      · rw [he] at hs
        have := hs.1
        omega
    obtain ⟨b, h₂, hkb⟩ := openLoop_total (n := x) (m := k) A.consistent
      (ha.stands.grows A.grows (Nat.le_refl _)) hnew
    refine ⟨some loop.id, b, ?_, hkb hk₁⟩
    rw [header, bind_eq h₁, bind_eq h₂]
    rfl
  | .unknown .., _, _, _, _, _, _, _, hsrc, _, _, _, _, _, _, _ => hsrc.elim

end

end Resolve

/-! ## Functions -/

/-- A function whose names are resolved, and in which nothing is assigned to a constant, keeps to
    the rules. -/
theorem FunctionDef.wellScoped_of_resolved {fn : FunctionDef Mark} {globals : List Name}
    {a : Scoping} {m : Nat} {S : Prop} (hsrc : fn.Shaped S)
    (hn : Consecutive fn.mark.id fn.nodes m) (h : fn.resolve globals = .ok a)
    (hconstants : a.checkConstants = .ok ()) : fn.WellScoped globals := by
  obtain ⟨hc, ho, hss⟩ := FunctionDef.resolve_resolved hsrc hn h
  exact ⟨ho.distinctNames hc, hss.wellScoped hc (Scoping.violated?_of_checkConstants hconstants)
    (ho.agrees hc fun _ => rfl) fun hf => absurd hf Bool.false_ne_true⟩

/-- The names of a function that keeps to the rules are resolved, and nothing is assigned to a
    constant. -/
theorem FunctionDef.resolve_total {fn : FunctionDef Mark} {globals : List Name} {m : Nat} {S : Prop}
    (hsrc : fn.Shaped S) (hn : Consecutive fn.mark.id fn.nodes m) (hw : fn.WellScoped globals) :
    ∃ a, fn.resolve globals = .ok a ∧ a.checkConstants = .ok () := by
  obtain ⟨mark, name, ps, k, ss⟩ := fn
  obtain ⟨-, -, hbody⟩ := hn.of_cons
  obtain ⟨-, -, hss⟩ := hbody.of_cons
  have hclear : (Scoping.empty mark.id).Clear mark.id m fun _ => False := by
    constructor <;> simp [Scoping.empty]
  obtain ⟨a₁, h₁, hk₁⟩ := @Resolve.openFunction_total _ none mark _ _ (consistent_empty mark.id)
    (by simp [Scoping.empty]) (by simp) hw.1
  obtain ⟨hgrow, hcons, hopens, hclear⟩ := Resolve.openFunction_ok (consistent_empty _) hbody hclear
    (by simp) h₁
  obtain ⟨t, ht, htk, -⟩ := hopens.scope
  obtain ⟨b, h₂, hkb, -⟩ := Resolve.stmts_total (f := mark.id) (s := mark.id) ss false
    hsrc hss ⟨hcons, ⟨.root ht htk, Nat.lt_succ_of_lt (Nat.lt_succ_self _)⟩, hclear⟩ hopens.vars
    hopens.lexicals (hopens.agrees hcons fun _ => rfl)
    (hk₁ (by simp [KeepsConstants, Scoping.empty]))
    (fun hf => absurd hf Bool.false_ne_true) hw.2
  refine ⟨b, ?_, hkb.checkConstants⟩
  unfold FunctionDef.resolve
  have hrun : (do
      Resolve.openFunction mark ps (.mk k ss) none
      Resolve.stmts globals mark.id false ss : Resolve Unit) (.empty mark.id) = .ok ((), b) :=
    (Resolve.bind_eq h₁).trans h₂
  simp only [StateT.run, Block.statements]
  rw [hrun]
  rfl

/-- The checks accept exactly the well-scoped functions: the names of a function as it is read are
    resolved, and no constant is assigned to, if and only if the function keeps to the rules. -/
theorem FunctionDef.accepted_iff_wellScoped (fn : FunctionDef Span) (globals : List Name)
    (hsrc : fn.IsSource) :
    (∃ a, fn.number.resolve globals = .ok a ∧ a.checkConstants = .ok ()) ↔
      fn.WellScoped globals := by
  have hshape := fn.shaped_number.2 hsrc
  have hconsecutive := fn.numberFrom_consecutive 1
  rw [← fn.wellScoped_number]
  constructor
  · rintro ⟨a, h, hc⟩
    exact FunctionDef.wellScoped_of_resolved hshape hconsecutive h hc
  · exact FunctionDef.resolve_total hshape hconsecutive

/-- The function `function f() { { let x; { k x = undefined; } } }`, where `k` is the kind of the
    inner declaration. -/
def shadowing (k : DeclKind) : FunctionDef Span :=
  let u := Span.unknown
  ⟨u, "f", [], .mk u [.block (.mk u [.declaration u "x" .letVar none,
    .block (.mk u [.declaration u "x" k (some (.literal u .undefined))])])]⟩

/-- The theorem for an inner declaration that shadows a `let`: a `let` may do so, a `var` may
    not. -/
theorem FunctionDef.accepted_iff_wellScoped_shadowing :
    (∃ a, (shadowing .letVar).number.resolve [] = .ok a ∧ a.checkConstants = .ok ()) ∧
      ¬ ∃ a, (shadowing .var).number.resolve [] = .ok a ∧ a.checkConstants = .ok () := by
  have hsrc : ∀ k, (shadowing k).IsSource := fun k => by
    simp [shadowing, FunctionDef.Shaped, Block.Shaped, Stmt.ShapedList, Stmt.Shaped, Expr.Shaped]
  refine ⟨(FunctionDef.accepted_iff_wellScoped _ [] (hsrc .letVar)).2 ⟨⟨?_, ?_, ?_⟩, ?_⟩,
    fun h => ?_⟩
  · exact .nil
  · exact .nil
  · exact nofun
  · simp [shadowing, Block.statements, Stmt.AreWellScoped, Stmt.WellScoped, Block.WellScoped,
      Block.lexicals, List.filterMap_cons, Stmt.lexical?, DeclKind.isBlockScoped, Expr.WellScoped]
  · have hw := ((FunctionDef.accepted_iff_wellScoped _ [] (hsrc .var)).1 h).2
    simp [shadowing, Block.statements, Stmt.AreWellScoped, Stmt.WellScoped, Block.WellScoped,
      Block.lexicals, Stmt.lexical?, DeclKind.isBlockScoped, Surroundings.enter,
      Surroundings.function] at hw

end FlatScope
