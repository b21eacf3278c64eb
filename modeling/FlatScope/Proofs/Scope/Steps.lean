import FlatScope.Proofs.Scope.Progress

/-!
# Steps of a resolution

What the resolution of a name achieves (`Resolve.reference_ok`), and what is known when the scope of
a function, block or loop has been opened and its names are declared (`Resolve.openFunction_ok`,
`Resolve.openBlock_ok`, `Resolve.openLoop_ok`). What is known of scopes and declarations stays.
-/

namespace FlatScope

open Scoping Node

namespace Scoping

variable {a b : Scoping} {P : NodeId → Prop}

/-! ## Facts that stay -/

theorem DeclaresVars.grows {fs : ScopeId} {vs : List (Name × Mark)} (h : a.DeclaresVars fs vs)
    (hab : Grows P a b) : b.DeclaresVars fs vs := fun v hv => by
  obtain ⟨d, hd, hrest⟩ := h v hv
  exact ⟨d, hab.declared? hd, hrest⟩

theorem DeclaresLexicals.grows {sc : ScopeId} {ls : List (Lexical Mark)}
    (h : a.DeclaresLexicals sc ls) (hab : Grows P a b) : b.DeclaresLexicals sc ls := fun l hl => by
  obtain ⟨d, hd, hrest⟩ := h l hl
  exact ⟨d, hab.declared? hd, hrest⟩

theorem Opens.grows {id : ScopeId} {kind : ScopeKind} {parent : Option ScopeId}
    {φ : List Name → Prop} (h : a.Opens id kind parent φ) (hab : Grows P a b) :
    b.Opens id kind parent φ := by
  obtain ⟨s, hs, hrest⟩ := h
  exact ⟨s, hab.scope? hs, hrest⟩

/-- The scope of a function stays what it was opened as. -/
theorem OpensFunction.grows {id : ScopeId} {params : List Name} {body : Block Mark}
    {parent : Option ScopeId} (h : a.OpensFunction id params body parent) (hab : Grows P a b)
    (ha : a.Consistent) (hb : b.Consistent) : b.OpensFunction id params body parent where
  scope := h.scope.grows hab
  distinct := h.distinct
  params n hn := by
    obtain ⟨s, hs, -⟩ := h.scope
    rw [hab.lookup? ha hb hs]
    exact h.params n hn
  vars := h.vars.grows hab
  lexicals := h.lexicals.grows hab
  distinctLexicals := h.distinctLexicals

/-- The scopes of a loop stay what they were opened as. -/
theorem OpensLoop.grows {loop : NodeId} {h : Header Mark} {sc : ScopeId}
    (hl : a.OpensLoop loop h sc) (hab : Grows P a b) : b.OpensLoop loop h sc := fun l hll => by
  obtain ⟨hopens, d, hd, hrest⟩ := hl l hll
  exact ⟨hopens.grows hab, d, hab.declared? hd, hrest⟩

theorem OpensLoop.lexicals {loop : NodeId} {h : Header Mark} {sc : ScopeId}
    (hl : a.OpensLoop loop h sc) : a.DeclaresLexicals loop (Resolve.headerLexical? h).toList := by
  intro l hll
  obtain ⟨-, d, hd, hdn, hds, hdo⟩ := hl l (Option.mem_toList.1 hll)
  exact ⟨d, hd, hdn, hds, by rw [hdo]; rfl⟩

/-- What a declaration declares is what its name means in the scope it is declared in. -/
theorem Declares.of_lexicals {fs sc : ScopeId} {ls : List (Lexical Mark)} (ha : a.Consistent)
    (h : a.DeclaresLexicals sc ls) {l : Lexical Mark} (hl : l ∈ ls)
    (hk : l.kind.isBlockScoped = true) : a.Declares fs sc l.mark.id l.name l.kind := by
  obtain ⟨d, hd, hdn, hds, hdk⟩ := h l hl
  obtain ⟨i, -, hdi⟩ := Option.bind_eq_some_iff.1 hd
  have hlook := ha.lookup?_own (mem_of_binding? hdi).1
  rw [hdn, hds] at hlook
  exact ⟨d, hd, hlook, by rw [if_pos hk]; exact ⟨hds, hdk⟩⟩

/-- A `var` that no scope below its function declares declares what its name means. -/
theorem Declares.of_vars {fs sc : ScopeId} {vs : List (Name × Mark)} (ha : a.Consistent)
    (h : a.DeclaresVars fs vs) (hin : a.InFunction fs sc) {n : Name} {m : Mark}
    (hv : (n, m) ∈ vs) (hn : a.bindingBelowFunction? sc n = none) :
    a.Declares fs sc m.id n .var := by
  obtain ⟨d, hd, hdn, hds, hdo⟩ := h (n, m) hv
  obtain ⟨i, -, hdi⟩ := Option.bind_eq_some_iff.1 hd
  have hlook := ha.lookup?_own (mem_of_binding? hdi).1
  rw [hdn, hds, ← hin.lookup?_of_below ha hn] at hlook
  exact ⟨d, hd, hlook, by rw [if_neg (by decide)]; exact ⟨hds, hdo⟩⟩

/-- What a declaration declared, it declares in every later scoping. -/
theorem Declares.grows {fs sc : ScopeId} {node : NodeId} {n : Name} {k : DeclKind}
    (h : a.Declares fs sc node n k) (hab : Grows P a b) (ha : a.Consistent) (hb : b.Consistent)
    (hsc : ∃ s, a.scope? sc = some s) : b.Declares fs sc node n k := by
  obtain ⟨d, hd, hlook, hrest⟩ := h
  obtain ⟨s, hs⟩ := hsc
  exact ⟨d, hab.declared? hd, by rw [hab.lookup? ha hb hs]; exact hlook, hrest⟩

/-- What is found out elsewhere does not make a scope of a block that has none. -/
theorem OpensBlock.grows {body : Block Mark} {sc : ScopeId} (h : a.OpensBlock body sc)
    (hab : Grows P a b)
    (hnew : Adds (fun d => d.1 ≠ body.mark.id) a.blockScopes b.blockScopes) :
    b.OpensBlock body sc where
  none hl d hd := (hnew.mem hd).elim (h.none hl d) id
  scope hl := ⟨hab.blockScope (h.scope hl).1, (h.scope hl).2.grows hab⟩
  lexicals := h.lexicals.grows hab

/-- Opening a scope only adds to the scoping. -/
theorem Opening.growing {id : ScopeId} {kind : ScopeKind} {parent : Option ScopeId}
    {keys : List Name} (h : a.Opening id kind parent keys b) (hid : P id)
    (hdecl : Adds (fun d => P d.1) a.declarations b.declarations) : Grows P a b where
  root := h.root
  scopes := by
    obtain ⟨names, -, hs⟩ := h.scopes
    rw [hs]
    exact .one hid
  bindings := h.bindings.mono fun c hc => by rw [hc]; exact hid
  references := by rw [h.references]; exact .refl _
  declarations := hdecl
  blockScopes := by rw [h.blockScopes]; exact .refl _
  loops := by rw [h.loops]; exact .refl _
  globalsUsed := by rw [h.globalsUsed]; exact .refl _

end Scoping

namespace Resolve

variable {globals : List Name} {a b : Scoping} {fs sc : ScopeId} {n m : Nat}

/-! ## Uses of names -/

/-- What the resolution of a name notes; what means nothing in the function is known outside of
    it. -/
theorem reference_eq {name : Name} {mark : Mark} {w : Bool} {u : Unit}
    (h : reference globals sc name mark w a = .ok (u, b)) :
    b = a.addReference ⟨mark.id, name, (a.lookup? sc name).map (·.id), sc, w, mark.span⟩ ∧
      (a.lookup? sc name = none → name ∈ globals) := by
  obtain ⟨a₁, a₂, hget, h⟩ := bind_ok h
  obtain ⟨rfl, rfl⟩ : a = a₁ ∧ a = a₂ := by cases hget; exact ⟨rfl, rfl⟩
  dsimp only at h
  split at h
  · exact absurd h reject_ne
  case isFalse hglob =>
    exact ⟨(modify_ok (a := a) (f := fun _ => a.addReference _) h).symm, fun hnone => by
      simpa [hnone] using hglob⟩

/-- A recorded reference refers to what the lookup finds at that moment, and the rest of the scoping
    is as before. -/
theorem reference_ok {name : Name} {mark : Mark} {w : Bool} {u : Unit} (ha : a.Consistent)
    (hsc : ∃ s, a.scope? sc = some s) (hnew : ∀ r ∈ a.references, r.node ≠ mark.id)
    (h : reference globals sc name mark w a = .ok (u, b)) :
    Achieves mark.id (mark.id + 1) a b fun c => c.Refers globals sc mark.id name w := by
  obtain ⟨hb, hglob⟩ := reference_eq h
  obtain ⟨s, hs⟩ := hsc
  generalize hr : (⟨mark.id, name, (a.lookup? sc name).map (·.id), sc, w, mark.span⟩ : Reference) =
    r at hb
  have hnode : r.node = mark.id := by rw [← hr]
  have hgrow : Grows (Between mark.id (mark.id + 1)) a b := by
    rw [hb]
    refine ⟨rfl, .refl _, .refl _, .one ?_, .refl _, .refl _, .refl _, ?_⟩
    · rw [hnode]
      exact ⟨Nat.le_refl _, Nat.lt_succ_self _⟩
    · dsimp only [addReference]
      split
      · exact .one trivial
      · exact .refl _
  have hbc : b.Consistent := by
    obtain ⟨hsm, hsid⟩ := mem_of_scope? hs
    rw [hb, ← hr]
    refine ha.addReference ⟨s, hsm, hsid⟩ fun i hi => ?_
    obtain ⟨d, hd, rfl⟩ := Option.map_eq_some_iff.1 hi
    exact ⟨d, (ha.of_lookup? hd).1, rfl⟩
  have hat : b.referenceAt? mark.id = some r := by
    rw [hb, referenceAt?, addReference, List.find?_append]
    have hnone : a.references.find? (fun r => r.node = mark.id) = none := by
      rw [List.find?_eq_none]
      intro x hx
      simpa using hnew x hx
    rw [hnone]
    simp [hnode]
  refine ⟨hgrow, hbc, fun c hbc' hc => ⟨r, hbc'.referenceAt? hat, ?_, ?_, ?_, ?_, ?_⟩⟩
  · rw [← hr]
  · rw [← hr]
  · rw [← hr]
  · rw [← hr, hbc'.lookup? hbc hc (hgrow.scope? hs), hgrow.lookup? ha hbc hs]
  · rw [hbc'.lookup? hbc hc (hgrow.scope? hs), hgrow.lookup? ha hbc hs]
    intro hnone
    have hmem : name ∈ b.globalsUsed := by
      rw [hb, ← hr, hnone]
      by_cases hin : name ∈ a.globalsUsed <;> simp [addReference, hin]
    exact ⟨hglob hnone, hbc'.globalsUsed.subset hmem⟩

/-- A `var` that passes meets no lexical name on the way to its function. -/
theorem checkVarPath_ok {name : Name} {span : Span} {u : Unit}
    (h : checkVarPath sc name span a = .ok (u, b)) :
    a = b ∧ a.bindingBelowFunction? sc name = none := by
  obtain ⟨a₁, a₂, hget, h⟩ := bind_ok h
  obtain ⟨rfl, rfl⟩ : a = a₁ ∧ a = a₂ := by cases hget; exact ⟨rfl, rfl⟩
  cases hb : a.bindingBelowFunction? sc name with
  | some d =>
    rw [hb] at h
    exact absurd h reject_ne
  | none =>
    rw [hb] at h
    exact ⟨(pure_ok h).2, rfl⟩

/-! ## Opening scopes -/

/-- What is known after the scope of a function is opened. -/
theorem openFunction_ok {mark : Mark} {params : List Name} {body : Block Mark}
    {parent : Option ScopeId} {u : Unit} (ha : a.Consistent)
    (hnodes : Consecutive (mark.id + 1) body.nodes m) (hclear : a.Clear mark.id m fun _ => False)
    (hp : ∀ p, parent = some p → p < mark.id ∧ ∃ t ∈ a.scopes, t.id = p)
    (h : openFunction mark params body parent a = .ok (u, b)) :
    Grows (Between mark.id m) a b ∧ b.Consistent ∧ b.OpensFunction mark.id params body parent ∧
      b.Clear (mark.id + 2) m fun i => i ∈ varIds body.vars ∨ i ∈ Lexical.ids body.lexicals := by
  obtain ⟨k, ss⟩ := body
  have hss := hnodes.of_cons.2.2
  have hle := hss.le
  obtain ⟨_, a₁, h₁, h⟩ := bind_ok h
  obtain ⟨_, a₂, h₂, h⟩ := bind_ok h
  obtain ⟨_, a₃, h₃, h₄⟩ := bind_ok h
  have hself : Between mark.id m mark.id := ⟨Nat.le_refl _, by omega⟩
  have hid : ∀ s ∈ a.scopes, s.id ≠ mark.id := fun s hs he => hclear.scopes s hs (he ▸ hself)
  have ho₁ : a.Opening mark.id .function parent [] a₁ := by
    rw [← modify_ok h₁]
    exact opening_addScope ha hid hp
  have hd₁ : a₁.declarations = a.declarations := by rw [← modify_ok h₁]; rfl
  -- No node of the body declares anything yet.
  have hbody : ∀ {i}, i ∈ Node.ids (Stmt.nodesOfList ss) → Between mark.id m i := fun hi => by
    have := hss.mem.1 hi
    exact ⟨by omega, this.2⟩
  have hvar : ∀ {i}, i ∈ varIds (Stmt.varsOfList ss) → i ∈ Node.ids (Stmt.nodesOfList ss) :=
    mem_of_varIds (Stmt.varsOfList_mem ss)
  have hlex : ∀ {i}, i ∈ Lexical.ids (ss.filterMap Stmt.lexical?) →
      i ∈ Node.ids (Stmt.nodesOfList ss) := fun hi => by
    obtain ⟨l, hl, rfl⟩ := List.mem_map.1 hi
    exact Stmt.lexicals_mem hl
  rw [declareParams_eq] at h₂
  obtain ⟨keys₂, ho₂, hk₂, hb₂, hdecl₂, hitems₂⟩ := declareAll_ok ho₁ (by simp) (by simp) h₂
  have hnew₂ := declareNew_ok ho₁ (by simp [Item.ofParam, Origin.kind?]) h₂
  rw [Item.nodes_ofParam] at hdecl₂
  rw [declareVars_eq] at h₃
  obtain ⟨keys₃, ho₃, hk₃, hb₃, hdecl₃, hitems₃⟩ := declareAll_ok ho₂
    (by rw [Item.nodes_ofVar]; exact Stmt.varsOfList_nodup ss hss)
    (by
      rw [Item.nodes_ofVar]
      intro d hd hmem
      rcases hdecl₂.mem hd with hd | hd
      · rw [hd₁] at hd
        exact hclear.declarations d hd (hbody (hvar hmem))
      · cases hd) h₃
  rw [Item.nodes_ofVar] at hdecl₃
  have hdecl : Adds (fun d => d.1 ∈ varIds (Stmt.varsOfList ss)) a₁.declarations a₃.declarations :=
    (hdecl₂.mono fun _ hd => by cases hd).trans hdecl₃
  rw [declareLexicals_eq] at h₄
  obtain ⟨keys₄, ho₄, hk₄, hb₄, hdecl₄, hitems₄⟩ := declareAll_ok ho₃
    (by rw [Item.nodes_ofLexical]; exact Stmt.lexicals_nodup hss)
    (by
      rw [Item.nodes_ofLexical]
      intro d hd hmem
      rcases hdecl.mem hd with hd | hd
      · rw [hd₁] at hd
        exact hclear.declarations d hd (hbody (hlex hmem))
      · obtain ⟨v, hv, he⟩ := List.mem_map.1 hd
        obtain ⟨l, hl, he'⟩ := List.mem_map.1 hmem
        exact Stmt.vars_ne_lexicals hss hv hl (he.trans he'.symm)) h₄
  rw [Item.nodes_ofLexical] at hdecl₄
  have hkind : ∀ {l}, l ∈ (Block.mk k ss).lexicals → l.kind ≠ .var := fun hl he => by
    have := Block.lexicals_kind hl
    rw [he] at this
    cases this
  have hnew₄ := declareNew_ok ho₃ 
    (by simpa [Item.ofLexical, Origin.kind?] using fun l (hl : l ∈ (Block.mk k ss).lexicals) =>
    hkind hl)
    h₄
  have hall : Adds (fun d => d.1 ∈ varIds (Stmt.varsOfList ss) ∨
      d.1 ∈ Lexical.ids (ss.filterMap Stmt.lexical?)) a.declarations b.declarations := by
    rw [← hd₁]
    exact (hdecl.mono fun _ => .inl).trans (hdecl₄.mono fun _ => .inr)
  refine ⟨ho₄.growing hself (hall.mono fun d hd => ?_), ho₄.consistent, ?_,
    ho₄.clear (hclear.mono (by omega) (Nat.le_refl _) fun _ _ hf => hf.elim)
      (fun hi => by have := hi.1; omega) hall⟩
  · rcases hd with hd | hd
    · exact hbody (hvar hd)
    · exact hbody (hlex hd)
  · constructor
    · refine ho₄.opens fun x => ?_
      rw [hk₄, hk₃, hk₂]
      simp [Item.ofParam, Item.ofVar, Item.ofLexical, Function.comp_def, or_assoc]
    · simpa [Item.ofParam, Function.comp_def] using hnew₂.keys_nodup
    · intro p hpm
      obtain ⟨d, hd, hdn, hds, hdo, -⟩ := hitems₂ _ (List.mem_map_of_mem hpm)
      refine ⟨d, ho₄.lookup? ((hb₃.trans hb₄).subset hd) hdn hds, hds, ?_⟩
      simpa [mayRepeat, Item.ofParam, Origin.kind?] using hdo
    · intro v hv
      obtain ⟨d, -, hdn, hds, hdo, hdd⟩ := hitems₃ _ (List.mem_map_of_mem hv)
      refine ⟨d, declared?_of_adds hb₄ hdecl₄ (hdd _ rfl), hdn, hds, ?_⟩
      rcases hdo with hdo | hdo
      · rw [hdo]
        rfl
      · exact (Bool.and_eq_true_iff.1 hdo).1
    · intro l hl
      obtain ⟨d, -, hdn, hds, hdo, hdd⟩ := hitems₄ _ (List.mem_map_of_mem hl)
      refine ⟨d, hdd _ rfl, hdn, hds, ?_⟩
      rcases hdo with hdo | hdo
      · rw [hdo]
        rfl
      · have := hkind hl
        simp [mayRepeat, Item.ofLexical, Origin.kind?, this] at hdo
    · have := (List.nodup_append.1 hnew₄.keys_nodup).2.1
      simpa [Item.ofLexical, Function.comp_def] using this

/-- What is known after the scope of a block is opened, if it has one. -/
theorem openBlock_ok {body : Block Mark} {own : Option ScopeId} (ha : a.Consistent)
    (hnodes : Consecutive n body.nodes m)
    (hclear : a.Clear n m fun i => i ∈ varIds body.vars) (hstands : a.Stands fs sc n)
    (h : openBlock body sc a = .ok (own, b)) :
    own = (if body.lexicals.isEmpty then none else some body.mark.id) ∧
      Grows (Between n m) a b ∧ b.Consistent ∧ b.OpensBlock body sc ∧ b.loops = a.loops ∧
      b.Stands fs (body.scopeIn sc) (n + 1) ∧
      b.DeclaresLexicals (body.scopeIn sc) body.lexicals ∧
      b.Clear (n + 1) m fun i => i ∈ varIds body.vars ∨ i ∈ Lexical.ids body.lexicals := by
  obtain ⟨k, ss⟩ := body
  obtain ⟨hk, hlt, hss⟩ := hnodes.of_cons
  change n = k.id at hk
  subst hk
  have hself : Between k.id m k.id := ⟨Nat.le_refl _, hlt⟩
  have hclear' : a.Clear (k.id + 1) m fun i =>
      i ∈ varIds (Block.mk k ss).vars ∨ i ∈ Lexical.ids (Block.mk k ss).lexicals :=
    hclear.mono (Nat.le_succ _) (Nat.le_refl _) fun _ _ => .inl
  unfold openBlock at h
  -- a block without `let` and `const` has no scope of its own
  by_cases hl : (Block.mk k ss).lexicals = []
  · rw [hl] at h
    obtain ⟨rfl, rfl⟩ := pure_ok h
    have hin : (Block.mk k ss).scopeIn sc = sc := by simp [Block.scopeIn, hl]
    refine ⟨by simp [hl], .refl a, ha, ⟨fun _ d hd he => ?_, fun h => absurd hl h, ?_⟩, rfl, ?_, ?_,
      hclear'⟩
    · exact hclear.blockScopes d hd (he ▸ hself)
    · rw [hl]
      exact fun _ hmem => absurd hmem List.not_mem_nil
    · rw [hin]
      exact ⟨hstands.inFunction, Nat.lt_succ_of_lt hstands.lt⟩
    · rw [hl]
      exact fun _ hmem => absurd hmem List.not_mem_nil
  · have hin : (Block.mk k ss).scopeIn sc = k.id := by
      rw [Block.scopeIn, if_neg (by simpa using hl)]
      rfl
    have h' : (do
        openScope k.id .block (some sc)
        modify (·.addBlockScope k.id)
        declareLexicals k.id (Block.mk k ss).lexicals
        return some k.id : Resolve (Option ScopeId)) a = .ok (own, b) := by
      cases hc : (Block.mk k ss).lexicals with
      | nil => exact absurd hc hl
      | cons l ls =>
        rw [hc] at h
        exact h
    obtain ⟨_, a₁, h₁, h'⟩ := bind_ok h'
    obtain ⟨_, a₂, h₂, h'⟩ := bind_ok h'
    obtain ⟨_, a₃, h₃, h'⟩ := bind_ok h'
    obtain ⟨rfl, rfl⟩ := pure_ok h'
    obtain ⟨s, hs⟩ := hstands.inFunction.known
    obtain ⟨hsm, hsid⟩ := mem_of_scope? hs
    have hgrow : Grows (Between k.id m) a (a.addBlockScope k.id) :=
      ⟨rfl, .refl _, .refl _, .refl _, .refl _, .one hself, .refl _, .refl _⟩
    have ho : (a.addBlockScope k.id).Opening k.id .block (some sc) [] a₂ := by
      rw [← modify_ok h₂, ← modify_ok h₁]
      refine (opening_addScope ha (fun t ht he => hclear.scopes t ht (he ▸ hself)) ?_).addBlockScope
      rintro p ⟨⟩
      exact ⟨hstands.lt, s, hsm, hsid⟩
    have hd : a₂.declarations = a.declarations := by
      rw [← modify_ok h₂, ← modify_ok h₁]
      rfl
    rw [declareLexicals_eq] at h₃
    -- the declarations of the block are nodes in it, so they were not declared before
    have hlex : ∀ {i}, i ∈ Lexical.ids (Block.mk k ss).lexicals →
        i ∈ Node.ids (Stmt.nodesOfList ss) := fun hi => by
      obtain ⟨l, hl, rfl⟩ := List.mem_map.1 hi
      exact Stmt.lexicals_mem hl
    have hbody : ∀ {i}, i ∈ Node.ids (Stmt.nodesOfList ss) → Between k.id m i := fun hi => by
      have := hss.mem.1 hi
      exact ⟨Nat.le_of_succ_le this.1, this.2⟩
    obtain ⟨keys, hopen, -, -, hdecl, hitems⟩ := declareAll_ok ho
      (by rw [Item.nodes_ofLexical]; exact Stmt.lexicals_nodup hss)
      (by
        rw [Item.nodes_ofLexical, hd]
        intro d hd hmem
        obtain ⟨v, hv, he⟩ := List.mem_map.1 (hclear.declarations d hd (hbody (hlex hmem)))
        obtain ⟨l, hl, he'⟩ := List.mem_map.1 hmem
        exact Stmt.vars_ne_lexicals hss hv hl (he.trans he'.symm)) h₃
    rw [Item.nodes_ofLexical, hd] at hdecl
    have hkind : ∀ {l}, l ∈ (Block.mk k ss).lexicals → l.kind ≠ .var := fun hl he => by
      have := Block.lexicals_kind hl
      rw [he] at this
      cases this
    have hnew := declareNew_ok ho
      (by simpa [Item.ofLexical, Origin.kind?] using
        fun l (hl : l ∈ (Block.mk k ss).lexicals) => hkind hl) h₃
    have hlexicals : a₃.DeclaresLexicals k.id (Block.mk k ss).lexicals := fun l hl => by
      obtain ⟨d, -, hdn, hds, hdo, hdd⟩ := hitems _ (List.mem_map_of_mem hl)
      refine ⟨d, hdd _ rfl, hdn, hds, ?_⟩
      rcases hdo with hdo | hdo
      · rw [hdo]
        rfl
      · have := hkind hl
        simp [mayRepeat, Item.ofLexical, Origin.kind?, this] at hdo
    have hall : Grows (Between k.id m) a a₃ :=
      hgrow.trans (hopen.growing hself (hdecl.mono fun _ hi => hbody (hlex hi)))
    rw [hin]
    refine ⟨?_, hall, hopen.consistent, ⟨fun h => absurd h hl, fun _ => ⟨?_, ?_⟩, hlexicals⟩,
      hopen.loops, ⟨?_, Nat.lt_succ_self _⟩, hlexicals, ?_⟩
    · rw [if_neg (by simpa using hl)]
      rfl
    · have hnone : a.blockScopes.lookup k.id = none := by
        rw [Table.lookup_eq_none]
        intro hmem
        obtain ⟨d, hd, he⟩ := List.mem_map.1 hmem
        exact hclear.blockScopes d hd (he ▸ hself)
      change a₃.blockScopes.lookup k.id = some k.id
      rw [hopen.blockScopes, addBlockScope, Table.lookup_append_of_none hnone]
      simp
    · refine hnew.opens ?_
      simp [Item.ofLexical, Function.comp_def]
    · obtain ⟨t, ht, htk, htp, -⟩ := hopen.scope?
      exact .inner ht (by rw [htk]; decide) htp (hstands.inFunction.grows hall)
    · refine hopen.clear ?_ (fun hi => Nat.not_succ_le_self _ hi.1) (hdecl.mono fun _ => .inr)
      exact ⟨hclear'.scopes, hclear'.references, fun d hd => (List.mem_append.1 hd).elim
        (hclear'.blockScopes d) fun hd hi => by
          rw [List.mem_singleton] at hd
          subst hd
          exact Nat.not_succ_le_self _ hi.1, hclear'.loops, hclear'.bodies, hclear'.declarations⟩

/-- What is known after the scope of a loop is opened. -/
theorem openLoop_ok {loop : NodeId} {name : Name} {kind : DeclKind} {mark : Mark} {u : Unit}
    (ha : a.Consistent) (hstands : a.Stands fs sc loop) (hid : ∀ s ∈ a.scopes, s.id ≠ loop)
    (hnew : ∀ d ∈ a.declarations, d.1 ≠ mark.id)
    (h : openLoop loop name kind mark sc a = .ok (u, b)) :
    ∃ keys, a.Opening loop .loop (some sc) keys b ∧
      (∀ h, headerLexical? h = some ⟨mark, name, kind⟩ → b.OpensLoop loop h sc) ∧
      Adds (fun d => d.1 = mark.id) a.declarations b.declarations := by
  obtain ⟨s, hs⟩ := hstands.inFunction.known
  obtain ⟨hsm, hsid⟩ := mem_of_scope? hs
  obtain ⟨_, a₁, h₁, h₂⟩ := bind_ok h
  have ho : a.Opening loop .loop (some sc) [] a₁ := by
    rw [← modify_ok h₁]
    refine opening_addScope ha hid ?_
    rintro p ⟨⟩
    exact ⟨hstands.lt, s, hsm, hsid⟩
  have hd₁ : a₁.declarations = a.declarations := by
    rw [← modify_ok h₁]
    rfl
  obtain ⟨d, hdm, hdn, hds, hdecl, -, hcase⟩ := declare_ok ho h₂
  rcases hcase with ⟨hk, -⟩ | ⟨-, hdo, hopen⟩
  · cases hk
  rw [hd₁, Option.map_some, Option.toList_some] at hdecl
  refine ⟨[name], hopen, fun h hh l hl => ?_, ⟨_, hdecl, by simp⟩⟩
  rw [hh] at hl
  cases hl
  refine ⟨hopen.opens rfl, d, ?_, hdn, hds, hdo⟩
  have hnone : a.declarations.lookup mark.id = none := by
    rw [Table.lookup_eq_none]
    intro hmem
    obtain ⟨e, he, hem⟩ := List.mem_map.1 hmem
    exact hnew e he hem
  rw [declared?, hdecl, Table.lookup_append_of_none hnone]
  simpa using hopen.consistent.binding?_of_mem hdm

end Resolve

end FlatScope
