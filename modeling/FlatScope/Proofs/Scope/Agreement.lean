import FlatScope.Proofs.Scope.Steps
import FlatScope.Proofs.Scope.WellScoped

/-!
# Surroundings and scopes

What a resolution knows about a scope *agrees* with what the code around it declares
(`Scoping.Agrees`): a name means a binding there if it is declared around, and a constant if the
innermost declaration is that of one; and the names that are declared between the scope and its
function are those that a `var` may not have. The agreement lasts when more is found out
(`Scoping.Agrees.grows`), and passes from a scope to the scopes of blocks, loops and functions in
it.
-/

namespace FlatScope

theorem Header.lexical?_eq (h : Header Mark) : h.lexical? = Resolve.headerLexical? h := by
  cases h with
  | counting a i e u => cases i <;> rfl
  | forOf a n k e => cases k <;> rfl
  | _ => rfl

theorem Lexical.of_mem_entries {ls : List (Lexical Mark)} {n : Name} {v : Bool}
    (h : (n, v) ∈ Lexical.entries ls) : ∃ l ∈ ls, l.name = n ∧ decide (l.kind = .const) = v := by
  obtain ⟨l, hl, he⟩ := List.mem_map.1 h
  cases he
  exact ⟨l, hl, rfl, rfl⟩

theorem Lexical.keys_entries (ls : List (Lexical Mark)) :
    (Lexical.entries ls).map (·.1) = ls.map (·.name) := List.map_map

theorem Origin.isConst_of_kind {o : Origin} {k : DeclKind} (h : o.kind? = some k) :
    o.isConst = decide (k = .const) := by
  rw [isConst, h]
  simp

theorem Origin.isConst_of_isFunctionScoped {o : Origin} (h : o.isFunctionScoped) :
    o.isConst = false := by
  cases o with
  | param => rfl
  | declared k | header k => cases k <;> first | rfl | cases h

namespace Scoping

variable {a b : Scoping} {fs sc id : ScopeId} {c : Surroundings}

/-- A binding of a name that is declared in a scope. -/
theorem Consistent.eq_of_declared (ha : a.Consistent) {d : Binding} (hd : d ∈ a.bindings)
    {m : NodeId} {e : Binding} (he : a.declared? m = some e) (hn : e.name = d.name)
    (hs : e.scope = d.scope) : e = d := by
  obtain ⟨_, -, he⟩ := Option.bind_eq_some_iff.1 he
  exact ha.eq_of_name (mem_of_binding? he).1 hd hn hs

namespace InFunction

theorem function (h : a.InFunction fs sc) : ∃ s, a.scope? fs = some s ∧ s.kind = .function := by
  induction h with
  | root hs hk => exact ⟨_, hs, hk⟩
  | inner _ _ _ _ ih => exact ih

/-- No name is declared between a function and itself. -/
theorem bindingBelowFunction?_root (ha : a.Consistent) {s : Scope} (hs : a.scope? fs = some s)
    (hk : s.kind = .function) (n : Name) : a.bindingBelowFunction? fs n = none := by
  rw [bindingBelowFunction?, ha.chain_eq hs, List.takeWhile_cons_of_neg (by simp [hk])]
  rfl

/-- A name that is declared between a scope and its function means that there. -/
theorem of_below (h : a.InFunction fs sc) (ha : a.Consistent) {n : Name} {d : Binding}
    (hd : a.bindingBelowFunction? sc n = some d) : a.lookup? sc n = some d ∧ d.scope ≠ fs := by
  induction h with
  | root hs hk =>
    rw [bindingBelowFunction?_root ha hs hk] at hd
    cases hd
  | @inner sc p s hs hk hp hin ih =>
    obtain ⟨hmem, rfl⟩ := mem_of_scope? hs
    rw [bindingBelowFunction?_eq ha hs hk hp] at hd
    rw [ha.lookup?_eq hs]
    cases hi : s.names.lookup n with
    | some i =>
      obtain ⟨e, he, -, -, hes⟩ := ha.binding?_of_named hmem hi
      rw [hi] at hd
      obtain rfl : e = d := Option.some.inj (he.symm.trans hd)
      refine ⟨hd, fun hfs => ?_⟩
      obtain ⟨t, ht, htk⟩ := hin.function
      rw [← hfs, hes, hs] at ht
      exact hk (Option.some.inj ht ▸ htk)
    | none =>
      rw [hi] at hd
      rw [hp]
      exact ih hd

end InFunction

/-- What names mean in a scope is what the code around it declares. -/
structure Agrees (a : Scoping) (fs sc : ScopeId) (c : Surroundings) : Prop where
  inFunction : a.InFunction fs sc
  means : ∀ n, (a.lookup? sc n).map (·.origin.isConst) = c.names.lookup n
  below : ∀ n, n ∈ c.inner ↔ ∃ d, a.bindingBelowFunction? sc n = some d

namespace Agrees

/-- A name is declared around a scope if it means something there. -/
theorem mem_names (h : a.Agrees fs sc c) {n : Name} :
    n ∈ c.names.map (·.1) ↔ a.lookup? sc n ≠ none := by
  rw [← Table.exists_lookup, ← h.means n]
  cases a.lookup? sc n <;> simp

theorem grows {P : NodeId → Prop} (h : a.Agrees fs sc c) (hab : Grows P a b) (ha : a.Consistent)
    (hb : b.Consistent) : b.Agrees fs sc c where
  inFunction := h.inFunction.grows hab
  means n := by
    obtain ⟨s, hs⟩ := h.inFunction.known
    rw [hab.lookup? ha hb hs]
    exact h.means n
  below n := by
    have hsame : ∀ {sc}, a.InFunction fs sc →
        b.bindingBelowFunction? sc n = a.bindingBelowFunction? sc n := fun hin => by
      induction hin with
      | root hs hk =>
        rw [InFunction.bindingBelowFunction?_root ha hs hk,
          InFunction.bindingBelowFunction?_root hb (hab.scope? hs) hk]
      | @inner sc p s hs hk hp hin ih =>
        rw [InFunction.bindingBelowFunction?_eq ha hs hk hp,
          InFunction.bindingBelowFunction?_eq hb (hab.scope? hs) hk hp, ih]
        cases hi : s.names.lookup n with
        | none => rfl
        | some i =>
          obtain ⟨d, hd, -⟩ := ha.binding?_of_named (mem_of_scope? hs).1 hi
          exact (hab.binding? hd).trans hd.symm
    rw [hsame h.inFunction]
    exact h.below n

/-- A scope for some `let`s and `const`s agrees with the surroundings in it. -/
theorem enter {kind : ScopeKind} {ls : List (Lexical Mark)} (h : a.Agrees fs sc c)
    (ha : a.Consistent) (ho : a.Opens id kind (some sc) (· = ls.map (·.name)))
    (hk : kind ≠ .function) (hl : a.DeclaresLexicals id ls) : a.Agrees fs id (c.enter ls) := by
  obtain ⟨s, hs, rfl, hp, hnames⟩ := ho
  obtain ⟨hmem, rfl⟩ := mem_of_scope? hs
  refine ⟨.inner hs hk hp h.inFunction, fun n => ?_, fun n => ?_⟩
  · rw [ha.lookup?_eq hs, Surroundings.enter]
    cases hi : s.names.lookup n with
    | some i =>
      obtain ⟨d, hd, rfl, hdn, hds⟩ := ha.binding?_of_named hmem hi
      obtain ⟨v, hv⟩ := Table.exists_lookup.2 (show n ∈ (Lexical.entries ls).map (·.1) by
        rw [Lexical.keys_entries, ← hnames]
        exact Table.exists_lookup.1 ⟨_, hi⟩)
      obtain ⟨l, hlm, hln, rfl⟩ := Lexical.of_mem_entries (Table.mem_of_lookup hv)
      obtain ⟨e, he, hen, hes, hek⟩ := hl l hlm
      obtain rfl : e = d := ha.eq_of_declared (mem_of_binding? hd).1 he
        (by rw [hen, hln, hdn]) (hes.trans hds.symm)
      rw [Table.lookup_append_of_some hv, ← Origin.isConst_of_kind hek]
      simp only [hd, Option.map_some]
    | none =>
      rw [Table.lookup_append_of_none, hp, Option.bind_some]
      · exact h.means n
      · rw [Table.lookup_eq_none, Lexical.keys_entries, ← hnames]
        exact Table.lookup_eq_none.1 hi
  · rw [InFunction.bindingBelowFunction?_eq ha hs hk hp, Surroundings.enter, List.mem_append,
      ← hnames]
    cases hi : s.names.lookup n with
    | some i =>
      obtain ⟨d, hd, -⟩ := ha.binding?_of_named hmem hi
      exact ⟨fun _ => ⟨d, hd⟩, fun _ => .inl (Table.exists_lookup.1 ⟨_, hi⟩)⟩
    | none =>
      rw [h.below n]
      exact or_iff_right (Table.lookup_eq_none.1 hi)

/-- The scope in which the statements of a block run. -/
theorem block {body : Block Mark} (h : a.Agrees fs sc c) (ha : a.Consistent)
    (ho : a.OpensBlock body sc) : a.Agrees fs (body.scopeIn sc) (c.enter body.lexicals) := by
  by_cases hl : body.lexicals = []
  · rw [Block.scopeIn, hl]
    exact h
  · rw [Block.scopeIn, if_neg (by simpa using hl)]
    exact h.enter ha (ho.scope hl).2 (by decide) ho.lexicals

/-- The scope in which the clauses of the header of a loop run. -/
theorem header {loop : NodeId} {hd : Header Mark} (h : a.Agrees fs sc c) (ha : a.Consistent)
    (ho : a.OpensLoop loop hd sc) :
    a.Agrees fs (hd.scopeIn loop sc) (c.enter hd.lexical?.toList) := by
  rw [Header.scopeIn, hd.lexical?_eq]
  cases hl : Resolve.headerLexical? hd with
  | none => exact h
  | some l =>
    refine h.enter ha (ho l hl).1 (by decide) ?_
    have := ho.lexicals
    rwa [hl] at this

/-- Whether a loop is around the code does not matter. -/
theorem loopBody (h : a.Agrees fs sc c) : a.Agrees fs sc c.loopBody :=
  ⟨h.inFunction, h.means, h.below⟩

end Agrees

/-! ## Functions -/

variable {ps : List Name} {body : Block Mark} {parent : Option ScopeId}

/-- What a `let` or `const` of a function declares is neither a parameter nor a `var`. -/
theorem OpensFunction.distinctNames (h : a.OpensFunction id ps body parent) (ha : a.Consistent) :
    DistinctNames ps body where
  distinctParams := h.distinct
  distinctLexicals := h.distinctLexicals
  apart l hl := by
    obtain ⟨d, hd, hdn, hds, hdk⟩ := h.lexicals l hl
    obtain ⟨_, -, hdm⟩ := Option.bind_eq_some_iff.1 hd
    have hscoped : d.origin.isFunctionScoped = false := by
      have := Block.lexicals_kind hl
      cases ho : d.origin with
      | param => simp [ho, Origin.kind?] at hdk
      | declared k | header k =>
        obtain rfl : k = l.kind := by simpa [ho, Origin.kind?] using hdk
        simp [Origin.isFunctionScoped, this]
    refine ⟨fun hp => ?_, fun hv => ?_⟩
    · obtain ⟨e, he, hes, heo⟩ := h.params l.name hp
      obtain ⟨hem, hen, -⟩ := ha.of_lookup? he
      obtain rfl : d = e := ha.eq_of_declared hem hd (hdn.trans hen.symm) (hds.trans hes.symm)
      rw [heo] at hscoped
      cases hscoped
    · obtain ⟨v, hv, hvn⟩ := List.mem_map.1 hv
      obtain ⟨e, he, hen, hes, heo⟩ := h.vars v hv
      obtain rfl : e = d := ha.eq_of_declared (mem_of_binding? hdm).1 he
        (hen.trans (hvn.trans hdn.symm)) (hes.trans hds.symm)
      rw [heo] at hscoped
      cases hscoped

/-- The scope of a function agrees with the surroundings in the function, if what is around the
    function does. -/
theorem OpensFunction.agrees (h : a.OpensFunction id ps body parent) (ha : a.Consistent)
    (hp : ∀ n, (parent.bind (a.lookup? · n)).map (·.origin.isConst) = c.names.lookup n) :
    a.Agrees id id (c.function ps body) := by
  obtain ⟨s, hs, hk, hsp, hnames⟩ := h.scope
  obtain ⟨hmem, rfl⟩ := mem_of_scope? hs
  refine ⟨.root hs hk, fun n => ?_, fun n => ?_⟩
  · -- each name of the scope stands for one entry of the table, with that entry's constness
    have hentry : ∀ {d}, d ∈ a.bindings → d.scope = s.id → ∀ {v}, (d.name, v) ∈
        ps.map (·, false) ++ body.vars.map (fun v => (v.1, false)) ++
          Lexical.entries body.lexicals → d.origin.isConst = v := by
      intro d hd hds v hv
      rcases List.mem_append.1 hv with hv | hv
      · rcases List.mem_append.1 hv with hv | hv
        · obtain ⟨n, hn, he⟩ := List.mem_map.1 hv
          cases he
          obtain ⟨e, he, hes, heo⟩ := h.params d.name hn
          obtain ⟨hem, hen, -⟩ := ha.of_lookup? he
          obtain rfl := ha.eq_of_name hem hd hen (hes.trans hds.symm)
          rw [heo]
          rfl
        · obtain ⟨w, hw, he⟩ := List.mem_map.1 hv
          obtain ⟨hwn, rfl⟩ := Prod.mk.inj he
          obtain ⟨e, he, hen, hes, heo⟩ := h.vars w hw
          obtain rfl := ha.eq_of_declared hd he (hen.trans hwn) (hes.trans hds.symm)
          exact Origin.isConst_of_isFunctionScoped heo
      · obtain ⟨l, hl, hln, rfl⟩ := Lexical.of_mem_entries hv
        obtain ⟨e, he, hen, hes, hek⟩ := h.lexicals l hl
        obtain rfl := ha.eq_of_declared hd he (hen.trans hln) (hes.trans hds.symm)
        exact Origin.isConst_of_kind hek
    -- the scope holds no other names than the table
    have hkeys : n ∈ (ps.map (·, false) ++ body.vars.map (fun v => (v.1, false)) ++
        Lexical.entries body.lexicals).map (·.1) ↔ n ∈ s.names.map (·.1) := by
      rw [hnames, List.map_append, List.map_append, Lexical.keys_entries]
      simp [Function.comp_def]
    rw [ha.lookup?_eq hs, Surroundings.function]
    cases hi : s.names.lookup n with
    | some i =>
      obtain ⟨d, hd, rfl, rfl, hds⟩ := ha.binding?_of_named hmem hi
      obtain ⟨v, hv⟩ := Table.exists_lookup.2 (hkeys.2 (Table.exists_lookup.1 ⟨_, hi⟩))
      rw [Table.lookup_append_of_some hv,
        ← hentry (mem_of_binding? hd).1 hds (Table.mem_of_lookup hv)]
      simp only [hd, Option.map_some]
    | none =>
      rw [Table.lookup_append_of_none
        (Table.lookup_eq_none.2 fun hn => Table.lookup_eq_none.1 hi (hkeys.1 hn)), ← hp n, hsp]
  · rw [InFunction.bindingBelowFunction?_root ha hs hk]
    simp [Surroundings.function]

end Scoping

end FlatScope
