import FlatScope.Proofs.Declared
import FlatScope.Proofs.Scope.Resolved

/-!
# Opening a scope

All names of a scope are declared as soon as it is opened, before anything in it is resolved. So
what is known then is what was known before, one more scope, and its bindings
(`Scoping.Opening`). `Resolve.declare_ok` says what one declaration adds, `Resolve.declareAll_ok`
and `Resolve.declareNew_ok` what a list of them does: every item declares a binding of its name, and
names that may not be repeated become the names of the scope, in order.
-/

namespace FlatScope

/-! ## Steps of the resolution -/

namespace Resolve

variable {α β : Type}

/-- A resolution in two parts that succeeds succeeds in both. -/
theorem bind_ok {x : Resolve α} {f : α → Resolve β} {a b : Scoping} {y : β}
    (h : (x >>= f) a = .ok (y, b)) : ∃ z c, x a = .ok (z, c) ∧ f z c = .ok (y, b) := by
  change (x a).bind _ = _ at h
  cases hx : x a with
  | error e => rw [hx] at h; cases h
  | ok p => rw [hx] at h; exact ⟨p.1, p.2, rfl, h⟩

theorem pure_ok {a b : Scoping} {x y : α} (h : (pure x : Resolve α) a = .ok (y, b)) :
    x = y ∧ a = b := by
  cases h
  exact ⟨rfl, rfl⟩

/-- A change of the scoping succeeds with the changed scoping. -/
theorem modify_ok {f : Scoping → Scoping} {a b : Scoping} {u : Unit}
    (h : (modify f : Resolve Unit) a = .ok (u, b)) : f a = b := by
  cases h
  rfl

/-- A rejected program is not resolved. -/
theorem reject_ne {cause : Cause} {span : Span} {a b : Scoping} {x : α} :
    (reject cause span : Resolve α) a ≠ .ok (x, b) := nofun

end Resolve

namespace Scoping

/-- What is known in `b` is what is known in `a`, a further scope and its bindings. -/
structure Opening (a : Scoping) (id : ScopeId) (kind : ScopeKind) (parent : Option ScopeId)
    (keys : List Name) (b : Scoping) : Prop where
  root : b.root = a.root
  consistent : b.Consistent
  scopes : ∃ names, names.map (·.1) = keys ∧ b.scopes = a.scopes ++ [⟨id, kind, parent, names⟩]
  bindings : Adds (fun c => c.scope = id) a.bindings b.bindings
  references : b.references = a.references
  declarations : Adds (fun _ => True) a.declarations b.declarations
  blockScopes : b.blockScopes = a.blockScopes
  loops : b.loops = a.loops
  globalsUsed : b.globalsUsed = a.globalsUsed

variable {a b : Scoping} {id : ScopeId} {kind : ScopeKind} {parent : Option ScopeId}
  {keys : List Name}

/-- A scope whose number is new, inside of one that is there, may be opened. -/
theorem opening_addScope (ha : a.Consistent) (hid : ∀ s ∈ a.scopes, s.id ≠ id)
    (hp : ∀ p, parent = some p → p < id ∧ ∃ t ∈ a.scopes, t.id = p) :
    a.Opening id kind parent [] (a.addScope id kind parent) where
  root := rfl
  consistent := by
    have hmore : ∀ {i k}, a.HasScope i k → (a.addScope id kind parent).HasScope i k := by
      rintro i k ⟨s, hs, hsk⟩
      exact ⟨s, List.mem_append_left _ hs, hsk⟩
    refine ⟨?_, ?_, ha.numbered, ?_, ?_, ?_, fun d hd => (ha.blocks d hd).imp_right hmore,
      fun l hl i hi => (ha.headers l hl i hi).imp_right hmore,
      fun l hl i hi => hmore (ha.bodies l hl i hi), ha.distinctBodies,
      fun r hr => (ha.referred r hr).imp_left fun ⟨s, hs, hsr⟩ =>
        ⟨s, List.mem_append_left _ hs, hsr⟩, ha.declared, ?_⟩
    · simp only [addScope, List.map_append, List.map_cons, List.map_nil]
      rw [List.nodup_append]
      refine ⟨ha.nodup, by simp, ?_⟩
      simp only [List.mem_map, List.mem_singleton]
      rintro i ⟨s, hs, rfl⟩ j rfl
      exact hid s hs
    · intro s hs p hsp
      rcases List.mem_append.1 hs with hs | hs
      · obtain ⟨hlt, t, ht, htp⟩ := ha.parent s hs p hsp
        exact ⟨hlt, t, List.mem_append_left _ ht, htp⟩
      · rw [List.mem_singleton] at hs
        subst hs
        obtain ⟨hlt, t, ht, htp⟩ := hp p hsp
        exact ⟨hlt, t, List.mem_append_left _ ht, htp⟩
    · intro s hs
      rcases List.mem_append.1 hs with hs | hs
      · exact ha.distinct s hs
      · rw [List.mem_singleton] at hs
        subst hs
        exact .nil
    · intro s hs x hx
      rcases List.mem_append.1 hs with hs | hs
      · exact ha.named s hs x hx
      · rw [List.mem_singleton] at hs
        subst hs
        cases hx
    · intro c hc
      obtain ⟨s, hs, hsc⟩ := ha.listed c hc
      exact ⟨s, List.mem_append_left _ hs, hsc⟩
    · rw [addScope, List.filterMap_append, ← ha.nesting]
      cases parent <;> rfl
  scopes := ⟨[], rfl, rfl⟩
  bindings := .refl _
  references := rfl
  declarations := .refl _
  blockScopes := rfl
  loops := rfl
  globalsUsed := rfl

namespace Opening

/-- The scope that was opened is found, with its kind, its parent and its names. -/
theorem scope? (h : a.Opening id kind parent keys b) :
    ∃ s, b.scope? id = some s ∧ s.kind = kind ∧ s.parent = parent ∧ s.names.map (·.1) = keys := by
  obtain ⟨names, hn, hs⟩ := h.scopes
  refine ⟨⟨id, kind, parent, names⟩, ?_, rfl, rfl, hn⟩
  exact h.consistent.scope?_of_mem (s := ⟨id, kind, parent, names⟩) (by rw [hs]; simp)

/-- The scopes that were there have other numbers. -/
theorem ne (h : a.Opening id kind parent keys b) : ∀ s ∈ a.scopes, s.id ≠ id := by
  obtain ⟨names, -, hs⟩ := h.scopes
  have hnd := h.consistent.nodup
  rw [hs, List.map_append, List.nodup_append] at hnd
  intro s hs
  exact hnd.2.2 s.id (List.mem_map_of_mem hs) id (by simp)

/-- The names of a scope that was opened are distinct. -/
theorem keys_nodup (h : a.Opening id kind parent keys b) : keys.Nodup := by
  obtain ⟨s, hs, -, -, hkeys⟩ := h.scope?
  exact hkeys ▸ h.consistent.distinct s (mem_of_scope? hs).1

theorem opens (h : a.Opening id kind parent keys b) {φ : List Name → Prop} (hφ : φ keys) :
    b.Opens id kind parent φ := by
  obtain ⟨s, hs, hk, hp, hn⟩ := h.scope?
  exact ⟨s, hs, hk, hp, hn ▸ hφ⟩

/-- A binding of the scope is what its name means there. -/
theorem lookup? (h : a.Opening id kind parent keys b) {d : Binding} (hd : d ∈ b.bindings)
    {n : Name} (hn : d.name = n) (hs : d.scope = id) : b.lookup? id n = some d := by
  have := h.consistent.lookup?_own hd
  rwa [hn, hs] at this

/-- Adding a binding of a name that is not there yet. -/
theorem addBinding (h : a.Opening id kind parent keys b) {n : Name} (hn : n ∉ keys) (o : Origin)
    (span : Span) : a.Opening id kind parent (keys ++ [n]) (b.addBinding id n o span) := by
  obtain ⟨names, hkeys, hs⟩ := h.scopes
  -- only the scope that was opened last gets the name, the others have other numbers
  have hscopes : (b.addBinding id n o span).scopes =
      a.scopes ++ [⟨id, kind, parent, names ++ [(n, b.nextBinding)]⟩] := by
    simp only [Scoping.addBinding, hs, List.map_append, List.map_cons, List.map_nil, if_pos]
    congr 1
    conv => rhs; rw [← List.map_id a.scopes]
    refine List.map_congr_left fun s hs => ?_
    rw [if_neg (h.ne s hs), id_eq]
  have hc := h.consistent
  rw [← hkeys] at hn
  have hmore : ∀ {i k}, b.HasScope i k → (b.addBinding id n o span).HasScope i k := by
    rintro i k ⟨s, hs, hsi, hsk⟩
    refine ⟨_, List.mem_map_of_mem hs, ?_, ?_⟩ <;> split <;> assumption
  refine ⟨h.root, ⟨?_, ?_, ?_, ?_, ?_, ?_, fun d hd => (hc.blocks d hd).imp_right hmore,
    fun l hl i hi => (hc.headers l hl i hi).imp_right hmore,
    fun l hl i hi => hmore (hc.bodies l hl i hi), hc.distinctBodies, fun r hr => ?_, fun d hd => ?_,
    ?_⟩,
    ⟨_, by simp [hkeys], hscopes⟩, h.bindings.trans (.one rfl), h.references, h.declarations,
    h.blockScopes, h.loops, h.globalsUsed⟩
  · have := hc.nodup
    rw [hs] at this
    rw [hscopes]
    simpa using this
  · intro s hs' p hp
    rw [hscopes] at hs' ⊢
    have hold := hc.parent
    rw [hs] at hold
    rcases List.mem_append.1 hs' with hs' | hs'
    · obtain ⟨hlt, t, ht, htp⟩ := hold s (List.mem_append_left _ hs') p hp
      refine ⟨hlt, ?_⟩
      rcases List.mem_append.1 ht with ht | ht
      · exact ⟨t, List.mem_append_left _ ht, htp⟩
      · rw [List.mem_singleton] at ht
        subst ht
        exact ⟨_, List.mem_append_right _ (List.mem_singleton.2 rfl), htp⟩
    · rw [List.mem_singleton] at hs'
      subst hs'
      obtain ⟨hlt, t, ht, htp⟩ := hold ⟨id, kind, parent, names⟩ (by simp) p hp
      refine ⟨hlt, ?_⟩
      rcases List.mem_append.1 ht with ht | ht
      · exact ⟨t, List.mem_append_left _ ht, htp⟩
      · rw [List.mem_singleton] at ht
        subst ht
        exact ⟨_, List.mem_append_right _ (List.mem_singleton.2 rfl), htp⟩
  · simp only [Scoping.addBinding, List.map_append, List.map_cons, List.map_nil, List.length_append,
      List.length_singleton, List.range'_concat, hc.numbered, nextBinding]
    simp [Nat.add_comm]
  · intro s hs'
    rw [hscopes] at hs'
    rcases List.mem_append.1 hs' with hs' | hs'
    · exact hc.distinct s (by rw [hs]; exact List.mem_append_left _ hs')
    · rw [List.mem_singleton] at hs'
      subst hs'
      have hd := hc.distinct ⟨id, kind, parent, names⟩ (by rw [hs]; simp)
      rw [List.map_append, List.nodup_append]
      refine ⟨hd, by simp, ?_⟩
      intro x hx y hy he
      simp only [List.map_cons, List.map_nil, List.mem_singleton] at hy
      exact hn (hy ▸ he ▸ hx)
  · intro s hs' x hx
    rw [hscopes] at hs'
    -- the new name is that of the new binding, every other one is an old entry
    have hold := hc.named
    rcases List.mem_append.1 hs' with hs' | hs'
    · obtain ⟨c, hc, hcx⟩ := hold s (by rw [hs]; exact List.mem_append_left _ hs') x hx
      exact ⟨c, List.mem_append_left _ hc, hcx⟩
    · rw [List.mem_singleton] at hs'
      subst hs'
      rcases List.mem_append.1 hx with hx | hx
      · obtain ⟨c, hc, hcx⟩ := hold ⟨id, kind, parent, names⟩ (by rw [hs]; simp) x hx
        exact ⟨c, List.mem_append_left _ hc, hcx⟩
      · rw [List.mem_singleton] at hx
        subst hx
        exact ⟨_, List.mem_append_right _ (List.mem_singleton.2 rfl), rfl, rfl, rfl⟩
  · intro c hc'
    rw [hscopes]
    rcases List.mem_append.1 hc' with hc' | hc'
    · obtain ⟨s, hs', hsc, hmem⟩ := hc.listed c hc'
      rw [hs] at hs'
      rcases List.mem_append.1 hs' with hs' | hs'
      · exact ⟨s, List.mem_append_left _ hs', hsc, hmem⟩
      · rw [List.mem_singleton] at hs'
        subst hs'
        exact ⟨_, List.mem_append_right _ (List.mem_singleton.2 rfl), hsc,
          List.mem_append_left _ hmem⟩
    · rw [List.mem_singleton] at hc'
      subst hc'
      exact ⟨_, List.mem_append_right _ (List.mem_singleton.2 rfl), rfl, by simp⟩
  · obtain ⟨⟨s, hs', hsr⟩, hb⟩ := hc.referred r hr
    refine ⟨⟨_, List.mem_map_of_mem hs', ?_⟩, fun i hi => ?_⟩
    · split <;> exact hsr
    · obtain ⟨d, hd, hdi⟩ := hb i hi
      exact ⟨d, List.mem_append_left _ hd, hdi⟩
  · obtain ⟨e, he, hed⟩ := hc.declared d hd
    exact ⟨e, List.mem_append_left _ he, hed⟩
  · have hn := hc.nesting
    rw [hs] at hn
    rw [hscopes, List.filterMap_append]
    exact hn.trans (List.filterMap_append ..)

/-- Which node declared a binding is noted beside the scope and leaves it as it was opened. -/
theorem addDeclaration (h : a.Opening id kind parent keys b) (node : Option NodeId)
    {i : BindingId} (hi : ∃ d ∈ b.bindings, d.id = i) :
    a.Opening id kind parent keys (b.addDeclaration node i) := by
  cases node with
  | none => exact h
  | some k =>
    exact ⟨h.root, ⟨h.consistent.nodup, h.consistent.parent, h.consistent.numbered,
      h.consistent.distinct, h.consistent.named, h.consistent.listed, h.consistent.blocks,
      h.consistent.headers, h.consistent.bodies, h.consistent.distinctBodies,
      h.consistent.referred, fun d hd =>
        (List.mem_append.1 hd).elim (h.consistent.declared d) fun hd =>
          (List.mem_singleton.1 hd) ▸ hi, h.consistent.nesting⟩, h.scopes, h.bindings, h.references,
      h.declarations.trans (.one trivial), h.blockScopes, h.loops, h.globalsUsed⟩

/-- A block whose scope was opened may be noted. That it has a scope may as well have been known
    before. -/
theorem addBlockScope (h : a.Opening id .block parent keys b) :
    (a.addBlockScope id).Opening id .block parent keys (b.addBlockScope id) := by
  have hc := h.consistent
  obtain ⟨s, hs, hk, -⟩ := h.scope?
  obtain ⟨hmem, hid⟩ := mem_of_scope? hs
  refine ⟨h.root, ⟨hc.nodup, hc.parent, hc.numbered, hc.distinct, hc.named, hc.listed,
    fun d hd => ?_, hc.headers, hc.bodies, hc.distinctBodies, hc.referred, hc.declared, hc.nesting⟩,
    h.scopes, h.bindings, h.references, h.declarations, ?_, h.loops, h.globalsUsed⟩
  · rcases List.mem_append.1 hd with hd | hd
    · exact hc.blocks d hd
    · rw [List.mem_singleton] at hd
      subst hd
      exact ⟨rfl, s, hmem, hid, hk⟩
  · rw [Scoping.addBlockScope, Scoping.addBlockScope, h.blockScopes]

end Opening

end Scoping

/-! ## Declaring names -/

namespace Resolve

open Scoping

variable {a b c : Scoping} {id : ScopeId} {kind : ScopeKind} {parent : Option ScopeId}
  {keys : List Name} {u : Unit}

theorem declared?_of_adds {P : Binding → Prop} {Q : NodeId × BindingId → Prop}
    (hb : Adds P a.bindings b.bindings) (hd : Adds Q a.declarations b.declarations) {k : NodeId}
    {d : Binding} (h : a.declared? k = some d) : b.declared? k = some d := by
  obtain ⟨i, hi, hid⟩ := Option.bind_eq_some_iff.1 h
  exact Option.bind_eq_some_iff.2
    ⟨i, hd.isPrefix.lookup_eq_some hi, hb.isPrefix.find?_eq_some hid⟩

/-- What one declaration adds: nothing, if it repeats one, and a binding otherwise. -/
theorem declare_ok (h : a.Opening id kind parent keys b) {n : Name} {o : Origin} {span : Span}
    {node : Option NodeId} (hd : declare id n o span node b = .ok (u, c)) :
    ∃ d ∈ c.bindings, d.name = n ∧ d.scope = id ∧
      c.declarations = b.declarations ++ (node.map fun k => (k, d.id)).toList ∧
      Adds (fun _ => True) b.bindings c.bindings ∧
      ((n ∈ keys ∧ mayRepeat d.origin o ∧ a.Opening id kind parent keys c) ∨
        (n ∉ keys ∧ d.origin = o ∧ a.Opening id kind parent (keys ++ [n]) c)) := by
  obtain ⟨s, hs, -, -, hkeys⟩ := h.scope?
  obtain ⟨hmem, hsid⟩ := mem_of_scope? hs
  have hown : b.ownBinding? id n = (s.names.lookup n).bind b.binding? := by
    rw [ownBinding?, hs, Option.bind_some]
  obtain ⟨b₀, b₁, hget, hd⟩ := bind_ok hd
  obtain ⟨rfl, rfl⟩ : b = b₀ ∧ b = b₁ := by cases hget; exact ⟨rfl, rfl⟩
  rw [hown] at hd
  cases hi : s.names.lookup n with
  | some i =>
    obtain ⟨d, hdi, rfl, hdn, hds⟩ := h.consistent.binding?_of_named hmem hi
    rw [hi, Option.bind_some, hdi] at hd
    dsimp only at hd
    split at hd
    case isFalse => exact absurd hd reject_ne
    case isTrue hrep =>
      have hc := modify_ok (a := b) (f := fun _ => b.addDeclaration node d.id) hd
      subst hc
      have hk : n ∈ keys := by
        rw [← hkeys]
        exact Table.exists_lookup.1 ⟨_, hi⟩
      refine ⟨d, ?_, hdn, hds.trans hsid, ?_, ?_,
        .inl ⟨hk, hrep, h.addDeclaration _ ⟨d, (mem_of_binding? hdi).1, rfl⟩⟩⟩
      · cases node <;> exact (mem_of_binding? hdi).1
      · cases node with
        | none => simp [addDeclaration]
        | some k => rfl
      · cases node <;> exact .refl _
  | none =>
    rw [hi] at hd
    have hc := modify_ok (a := b)
      (f := fun _ => (b.addBinding id n o span).addDeclaration node b.nextBinding) hd
    subst hc
    have hk : n ∉ keys := by
      rw [← hkeys]
      exact Table.lookup_eq_none.1 hi
    refine ⟨⟨b.nextBinding, n, o, id, span⟩, ?_, rfl, rfl, ?_, ?_,
      .inr ⟨hk, rfl, (h.addBinding hk o span).addDeclaration _
        ⟨_, List.mem_append_right _ (List.mem_singleton.2 rfl), rfl⟩⟩⟩
    · cases node <;> simp [addDeclaration, addBinding]
    · cases node with
      | none => simp [addDeclaration, addBinding]
      | some k => rfl
    · cases node <;> exact .one trivial

/-- A name to be declared. -/
structure Item where
  name : Name
  origin : Origin
  span : Span
  node : Option NodeId

/-- Declares names in a scope. -/
def declareAll (scope : ScopeId) (items : List Item) : Resolve Unit :=
  items.forM fun i => declare scope i.name i.origin i.span i.node

namespace Item

/-- A parameter as something to declare. -/
def ofParam (span : Span) (p : Name) : Item := ⟨p, .param, span, none⟩

/-- A `var` as something to declare. -/
def ofVar (v : Name × Mark) : Item := ⟨v.1, .declared .var, v.2.span, some v.2.id⟩

/-- A `let` or `const` as something to declare. -/
def ofLexical (l : Lexical Mark) : Item :=
  ⟨l.name, .declared l.kind, l.mark.span, some l.mark.id⟩

/-- The nodes that declare the items. -/
def nodes (items : List Item) : List NodeId := items.filterMap (·.node)

@[simp] theorem nodes_ofParam (span : Span) (ps : List Name) :
    nodes (ps.map (ofParam span)) = [] := by
  simp [nodes, ofParam]

@[simp] theorem nodes_ofVar (vs : List (Name × Mark)) : nodes (vs.map ofVar) = varIds vs := by
  induction vs with
  | nil => rfl
  | cons v vs ih => exact congrArg (v.2.id :: ·) ih

@[simp] theorem nodes_ofLexical (ls : List (Lexical Mark)) :
    nodes (ls.map ofLexical) = Lexical.ids ls := by
  induction ls with
  | nil => rfl
  | cons l ls ih => exact congrArg (l.mark.id :: ·) ih

end Item

/-- Declaring parameters is declaring a list of items. -/
theorem declareParams_eq (scope : ScopeId) (params : List Name) (span : Span) :
    declareParams scope params span = declareAll scope (params.map (.ofParam span)) := by
  simp [declareParams, declareAll, Item.ofParam]

/-- Declaring `var`s is declaring a list of items. -/
theorem declareVars_eq (scope : ScopeId) (vars : List (Name × Mark)) :
    declareVars scope vars = declareAll scope (vars.map .ofVar) := by
  simp [declareVars, declareAll, Item.ofVar]

/-- Declaring lexical names is declaring a list of items. -/
theorem declareLexicals_eq (scope : ScopeId) (lexicals : List (Lexical Mark)) :
    declareLexicals scope lexicals = declareAll scope (lexicals.map .ofLexical) := by
  simp [declareLexicals, declareAll, Item.ofLexical]

/-- Every item declares a binding of its name. -/
theorem declareAll_ok {items : List Item} (h : a.Opening id kind parent keys b)
    (hnodes : (Item.nodes items).Nodup)
    (hnew : ∀ d ∈ b.declarations, d.1 ∉ Item.nodes items)
    (hd : declareAll id items b = .ok (u, c)) :
    ∃ keys', a.Opening id kind parent keys' c ∧
      (∀ n, n ∈ keys' ↔ n ∈ keys ∨ n ∈ items.map (·.name)) ∧
      Adds (fun _ => True) b.bindings c.bindings ∧
      Adds (fun d => d.1 ∈ Item.nodes items) b.declarations c.declarations ∧
      ∀ i ∈ items, ∃ d ∈ c.bindings, d.name = i.name ∧ d.scope = id ∧
        (d.origin = i.origin ∨ mayRepeat d.origin i.origin) ∧
        ∀ k, i.node = some k → c.declared? k = some d := by
  induction items generalizing b keys with
  | nil =>
    obtain ⟨-, rfl⟩ := pure_ok (x := ()) (by simpa [declareAll] using hd)
    exact ⟨keys, h, by simp, .refl _, .refl _, by simp⟩
  | cons i items ih =>
    obtain ⟨_, b₁, h₁, h₂⟩ := bind_ok (by simpa [declareAll] using hd)
    obtain ⟨d, hdm, hdn, hds, hdecl, hbind, hcase⟩ := declare_ok h h₁
    -- the first item is declared, or it repeats a declaration that may be repeated
    obtain ⟨keys₁, hopen, hkeys₁, horig⟩ : ∃ keys₁, a.Opening id kind parent keys₁ b₁ ∧
        (∀ n, n ∈ keys₁ ↔ n ∈ keys ∨ n = i.name) ∧
        (d.origin = i.origin ∨ mayRepeat d.origin i.origin) := by
      rcases hcase with ⟨hk, hrep, ho⟩ | ⟨-, hdo, ho⟩
      · refine ⟨keys, ho, fun n => ⟨.inl, ?_⟩, .inr hrep⟩
        rintro (hn | rfl)
        · exact hn
        · exact hk
      · exact ⟨_, ho, by simp, .inl hdo⟩
    have hrest : Item.nodes items ⊆ Item.nodes (i :: items) := fun k hk => by
      obtain ⟨j, hj, hjk⟩ := List.mem_filterMap.1 hk
      exact List.mem_filterMap.2 ⟨j, List.mem_cons_of_mem _ hj, hjk⟩
    -- its node is none of those of the other items, so it keeps its binding
    have hnodes' : (Item.nodes items).Nodup ∧ ∀ k, i.node = some k → k ∉ Item.nodes items := by
      cases hk : i.node with
      | none => exact ⟨by simpa [Item.nodes, List.filterMap_cons, hk] using hnodes, nofun⟩
      | some k =>
        rw [Item.nodes, List.filterMap_cons, hk, List.nodup_cons] at hnodes
        refine ⟨hnodes.2, ?_⟩
        rintro _ ⟨⟩
        exact hnodes.1
    have hnew' : ∀ d ∈ b₁.declarations, d.1 ∉ Item.nodes items := by
      intro e he hmem
      rw [hdecl] at he
      rcases List.mem_append.1 he with he | he
      · exact hnew e he (hrest hmem)
      · obtain ⟨k, hk, rfl⟩ := Option.map_eq_some_iff.1 (Option.mem_toList.1 he)
        exact hnodes'.2 k hk hmem
    obtain ⟨keys', hopen', hkeys', hbind', hdecl', hitems⟩ := ih hopen hnodes'.1 hnew' h₂
    refine ⟨keys', hopen', fun n => ?_, hbind.trans hbind', ?_, ?_⟩
    · rw [hkeys', hkeys₁, List.map_cons, List.mem_cons, or_assoc]
    · refine Adds.trans (k := b₁.declarations) ⟨_, hdecl, ?_⟩ (hdecl'.mono fun _ hm => hrest hm)
      intro e he
      obtain ⟨k, hk, rfl⟩ := Option.map_eq_some_iff.1 (Option.mem_toList.1 he)
      exact List.mem_filterMap.2 ⟨i, List.mem_cons_self, hk⟩
    · intro j hj
      rcases List.mem_cons.1 hj with rfl | hj
      · refine ⟨d, hbind'.subset hdm, hdn, hds, horig, fun k hk => ?_⟩
        have hlook : b₁.declarations.lookup k = some d.id := by
          have hnone : b.declarations.lookup k = none := by
            rw [Table.lookup_eq_none]
            intro hmem
            obtain ⟨e, he, rfl⟩ := List.mem_map.1 hmem
            exact hnew e he (List.mem_filterMap.2 ⟨_, List.mem_cons_self, hk⟩)
          rw [hdecl, Table.lookup_append_of_none hnone, hk]
          simp
        rw [declared?, hdecl'.isPrefix.lookup_eq_some hlook, Option.bind_some]
        exact hopen'.consistent.binding?_of_mem (hbind'.subset hdm)
      · exact hitems j hj

/-- Names that may not be repeated become the names of the scope, in order. -/
theorem declareNew_ok {items : List Item} (h : a.Opening id kind parent keys b)
    (hnew : ∀ i ∈ items, i.origin.kind? ≠ some .var)
    (hd : declareAll id items b = .ok (u, c)) :
    a.Opening id kind parent (keys ++ items.map (·.name)) c := by
  induction items generalizing b keys with
  | nil =>
    obtain ⟨-, rfl⟩ := pure_ok (x := ()) (by simpa [declareAll] using hd)
    simpa using h
  | cons i items ih =>
    obtain ⟨_, b₁, h₁, h₂⟩ := bind_ok (by simpa [declareAll] using hd)
    obtain ⟨d, -, -, -, -, -, hcase⟩ := declare_ok h h₁
    have hi := hnew i List.mem_cons_self
    rcases hcase with ⟨-, hrep, -⟩ | ⟨-, -, ho⟩
    · simp [mayRepeat, hi] at hrep
    · have := ih ho (fun j hj => hnew j (List.mem_cons_of_mem _ hj)) h₂
      simpa using this

end Resolve

end FlatScope
