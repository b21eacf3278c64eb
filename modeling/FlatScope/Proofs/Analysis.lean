import FlatScope.Analysis
import FlatScope.Proofs.Scope.Noted
import FlatScope.Proofs.Scope.Resolve

/-!
# What an analysis says

An analysed function is one whose names are resolved, whose constants are not assigned to, and each
of whose blocks and loops is known with the wrapper and the plan that the rules give it
(`FunctionDef.Analysed`).

A scope is *inlined* if its bindings live in the function or wrapper around it. The bindings of a
block without a wrapper are inlined, and those of the header and body of a loop without one, as well
as the bindings in the header of any loop that need not be new ones in every iteration
(`Scoping.Inlined`). No function uses such a binding that is nested inside of its scope.
-/

namespace FlatScope

open Node

/-! ## Finding nodes -/

/-- The first result for a number is that of the node of this number. -/
theorem find?_filterMap_ids {β : Type} {xs : List (Node Mark)} (hxs : (Node.ids xs).Nodup)
    {f : Node Mark → Option β} {g : β → NodeId} (hf : ∀ x y, f x = some y → g y = x.mark.id)
    {x : Node Mark} (hx : x ∈ xs) : (xs.filterMap f).find? (fun y => g y = x.mark.id) = f x := by
  induction xs with
  | nil => cases hx
  | cons z xs ih =>
    rw [ids_cons, List.nodup_cons] at hxs
    rw [List.filterMap_cons]
    rcases List.mem_cons.1 hx with rfl | hx
    · cases hfx : f x with
      | some y => simp [hf x y hfx]
      | none =>
        dsimp only
        rw [List.find?_eq_none]
        intro y hy he
        obtain ⟨z, hz, hzy⟩ := List.mem_filterMap.1 hy
        rw [hf z y hzy, decide_eq_true_eq] at he
        exact hxs.1 (he ▸ List.mem_map_of_mem hz)
    · have hne : z.mark.id ≠ x.mark.id := fun he => hxs.1 (he ▸ List.mem_map_of_mem hx)
      cases hfz : f z with
      | none => exact ih hxs.2 hx
      | some y =>
        dsimp only
        rw [List.find?_cons_of_neg, ih hxs.2 hx]
        rw [hf z y hfz]
        simpa using hne

/-- A node is known by its number. -/
theorem node_unique {xs : List (Node Mark)} (hxs : (Node.ids xs).Nodup) {x y : Node Mark}
    (hx : x ∈ xs) (hy : y ∈ xs) (h : x.mark.id = y.mark.id) : x = y := by
  have hfx := Table.find?_key (f := fun z : Node Mark => z.mark.id) hxs hx
  rw [h, Table.find?_key (f := fun z : Node Mark => z.mark.id) hxs hy] at hfx
  exact (Option.some.inj hfx).symm

namespace Scoping

variable {a : Scoping}

theorem Consistent.mem_bindingIdsOf (h : a.Consistent) {i : BindingId} {id : ScopeId} :
    i ∈ a.bindingIdsOf id ↔ ∃ b ∈ a.bindings, b.id = i ∧ b.scope = id := by
  constructor
  · intro hi
    cases hs : a.scope? id with
    | none => simp [bindingIdsOf, hs] at hi
    | some s =>
      obtain ⟨hmem, rfl⟩ := mem_of_scope? hs
      obtain ⟨x, hx, rfl⟩ :=
        List.mem_map.1 (by simpa [bindingIdsOf, hs, Scope.bindingIds] using hi :
        i ∈ s.names.map (·.2))
      obtain ⟨b, hb, hbi, -, hbs⟩ := h.named s hmem x hx
      exact ⟨b, hb, hbi, hbs⟩
  · rintro ⟨b, hb, rfl, rfl⟩
    obtain ⟨s, hs, hsb, hmem⟩ := h.listed b hb
    rw [bindingIdsOf, ← hsb, h.scope?_of_mem hs]
    exact List.mem_map_of_mem (f := (·.2)) hmem

/-! ## Wrappers of nodes -/

theorem wrapper?_node {x : Node Mark} {w : Wrapper} (h : a.wrapper? x = some w) :
    w.node = x.mark.id := by
  cases x with
  | block b =>
    rw [wrapper?, blockWrapper?] at h
    split at h
    · cases h
    · split at h
      · cases h
      · cases h
        rfl
  | stmt s =>
    cases s with
    | loop m hd b =>
      rw [wrapper?, loopWrapper?] at h
      split at h
      · cases h
      · split at h
        · cases h
        · cases h
          rfl
    | _ => cases h
  | _ => cases h

end Scoping

/-! ## Analysed functions -/

/-- A function whose names are resolved and whose constants are not assigned to, with the wrappers
    and plans that the rules give its blocks and loops. -/
structure FunctionDef.Analysed (fn : FunctionDef Mark) (globals : List Name) (a : Analysis) :
    Prop where
  source : fn.IsSource
  numbered : ∃ m, Consecutive fn.mark.id fn.nodes m
  consistent : a.scoping.Consistent
  opens : a.scoping.OpensFunction fn.mark.id fn.params fn.body none
  resolved : a.scoping.ResolvedStmts globals fn.mark.id fn.mark.id false fn.body.statements
  constants : ∀ r ∈ a.scoping.references, a.scoping.violated? r = none
  wrappers : a.wrappers = fn.wrappers a.scoping
  loops : ∃ hoisting, a.loops = fn.loopPlans a.scoping a.wrappers hoisting

theorem Scoping.violated?_of_checkConstants {a : Scoping} {u : Unit}
    (h : a.checkConstants = .ok u) : ∀ r ∈ a.references, a.violated? r = none := by
  unfold checkConstants at h
  rw [List.forM_eq_forM] at h
  generalize a.references = rs at h
  induction rs with
  | nil => nofun
  | cons r rs ih =>
    rw [List.forM_cons] at h
    cases hr : a.violated? r with
    | some b =>
      rw [hr] at h
      cases h
    | none =>
      rw [hr] at h
      intro s hs
      rcases List.mem_cons.1 hs with rfl | hs
      · exact hr
      · exact ih h s hs

/-- A function is analysed if its names are resolved and no constant is assigned to. -/
theorem FunctionDef.analyse_eq_ok {fn : FunctionDef Mark} {globals : List Name} {hoisting : Bool}
    {a : Analysis} : fn.analyse globals hoisting = .ok a ↔ ∃ s, fn.resolve globals = .ok s ∧
      s.checkConstants = .ok () ∧
      a = ⟨s, fn.wrappers s, fn.loopPlans s (fn.wrappers s) hoisting⟩ := by
  rw [FunctionDef.analyse]
  cases hr : fn.resolve globals with
  | error e => simp [bind, Except.bind]
  | ok s => cases hc : s.checkConstants <;> simp [bind, Except.bind, pure, Except.pure, hc, eq_comm]

/-- What `FunctionDef.analyse` accepts is analysed. -/
theorem FunctionDef.analyse_analysed {fn : FunctionDef Mark} {globals : List Name}
    {hoisting : Bool} {a : Analysis} {m : Nat} (hsrc : fn.IsSource)
    (hn : Consecutive fn.mark.id fn.nodes m) (h : fn.analyse globals hoisting = .ok a) :
    fn.Analysed globals a := by
  obtain ⟨s, hr, hc, rfl⟩ := FunctionDef.analyse_eq_ok.1 h
  obtain ⟨hcons, hopens, hres⟩ := fn.resolve_resolved hsrc hn hr
  exact ⟨hsrc, ⟨m, hn⟩, hcons, hopens, hres, s.violated?_of_checkConstants hc, rfl, hoisting, rfl⟩

namespace FunctionDef.Analysed

variable {fn : FunctionDef Mark} {globals : List Name} {a : Analysis}

theorem nodup (h : fn.Analysed globals a) : (Node.ids fn.nodes).Nodup := by
  obtain ⟨m, hm⟩ := h.numbered
  exact hm.nodup

theorem wrapper? (h : fn.Analysed globals a) {x : Node Mark} (hx : x ∈ fn.nodes) :
    a.wrapper? x.mark.id = a.scoping.wrapper? x := by
  rw [Analysis.wrapper?, h.wrappers]
  exact find?_filterMap_ids h.nodup (fun _ _ => Scoping.wrapper?_node) hx

theorem loopPlan? (h : fn.Analysed globals a) {m : Mark} {hd : Header Mark} {b : Block Mark}
    (hx : .stmt (.loop m hd b) ∈ fn.nodes) :
    ∃ hoisting, a.loopPlan? m.id =
      some (a.scoping.planLoop a.wrappers hoisting m.id hd b) := by
  obtain ⟨hoisting, hl⟩ := h.loops
  refine ⟨hoisting, ?_⟩
  rw [Analysis.loopPlan?, hl]
  refine find?_filterMap_ids (g := LoopPlan.loop) h.nodup (fun x y hxy => ?_) hx
  split at hxy
  · cases hxy
    unfold Scoping.planLoop
    split <;> rfl
  · cases hxy

/-- The resolution has noted something about every node that a later stage asks for. -/
theorem noted (h : fn.Analysed globals a) : ∀ x ∈ fn.nodes, a.scoping.Noted x := by
  obtain ⟨mark, name, params, m, ss⟩ := fn
  intro x hx
  rcases List.mem_cons.1 hx with rfl | hx
  · trivial
  · rcases List.mem_cons.1 hx with rfl | hx
    · trivial
    · exact h.resolved.noted x hx

end FunctionDef.Analysed

/-! ## Inlined bindings -/

/-- The binding lives neither in the scope of a function nor inside of a wrapper. -/
structure Analysis.Inlined (a : Analysis) (b : Binding) : Prop where
  scope : ¬ a.scoping.HasScope b.scope .function
  wrapped : b.id ∉ a.wrappedBindings

namespace FunctionDef.Analysed

variable {fn : FunctionDef Mark} {globals : List Name} {a : Analysis}

/-- A binding that lives inside of a wrapper is one of the scope of a block with a wrapper, or of
    the body or the header of a loop with one. -/
theorem of_wrapped (h : fn.Analysed globals a) {d : Binding} (hd : d ∈ a.scoping.bindings)
    (hw : d.id ∈ a.wrappedBindings) :
    (∃ b, .block b ∈ fn.nodes ∧ (a.scoping.blockWrapper? b).isSome ∧ d.scope = b.mark.id ∧
      a.scoping.HasScope d.scope .block ∧ ∀ l ∈ a.scoping.loops, l.body ≠ some d.scope) ∨
    ∃ m hd b l, .stmt (.loop m hd b) ∈ fn.nodes ∧ (a.scoping.loopWrapper? m.id b).isSome ∧
      l ∈ a.scoping.loops ∧ l.loop = m.id ∧
      (l.body = some d.scope ∨ l.header = some d.scope ∧ a.scoping.isPerIteration d.id) := by
  have hmem : ∀ {id}, d.id ∈ a.scoping.bindingIdsOf id → d.scope = id := fun hi => by
    obtain ⟨c, hc, hcd, hcs⟩ := h.consistent.mem_bindingIdsOf.1 hi
    rw [← h.consistent.eq_of_id hc hd hcd, hcs]
  obtain ⟨w, hwm, hdw⟩ := List.mem_flatMap.1 hw
  rw [h.wrappers] at hwm
  obtain ⟨x, hx, hxw⟩ := List.mem_filterMap.1 hwm
  cases x with
  | block b =>
    have hsome : (a.scoping.blockWrapper? b).isSome := by
      rw [show a.scoping.blockWrapper? b = some w from hxw]
      rfl
    rw [Scoping.wrapper?, Scoping.blockWrapper?] at hxw
    split at hxw
    · cases hxw
    · rename_i s hs
      obtain ⟨hs', hkind⟩ := h.consistent.blocks _ (Table.mem_of_lookup hs)
      dsimp only at hs' hkind
      subst hs'
      split at hxw
      · cases hxw
      · rename_i hcond
        cases hxw
        have hscope := hmem (by simpa using hdw)
        refine .inl ⟨b, hx, hsome, hscope, hscope ▸ hkind, fun l hl he => hcond ?_⟩
        rw [Bool.or_eq_true]
        exact .inl (List.any_eq_true.2 ⟨l, hl, by simp [he, hscope]⟩)
  | stmt s =>
    cases s with
    | loop m hd b =>
      have hsome : (a.scoping.loopWrapper? m.id b).isSome := by
        rw [show a.scoping.loopWrapper? m.id b = some w from hxw]
        rfl
      rw [Scoping.wrapper?, Scoping.loopWrapper?] at hxw
      split at hxw
      · cases hxw
      · rename_i l hl
        have hlm := List.mem_of_find?_eq_some hl
        have hlid : l.loop = m.id := by simpa using List.find?_some hl
        split at hxw
        · cases hxw
        · cases hxw
          refine .inr ⟨m, hd, b, l, hx, hsome, hlm, hlid, ?_⟩
          rcases List.mem_append.1 hdw with hdw | hdw
          · cases hb : l.body with
            | none => simp [hb] at hdw
            | some i => exact .inl (by rw [hmem (by simpa [hb] using hdw)])
          · obtain ⟨hin, hper⟩ := List.mem_filter.1 hdw
            cases hh : l.header with
            | none => simp [hh] at hin
            | some i => exact .inr ⟨by rw [hmem (by simpa [hh] using hin)], hper⟩
    | _ => cases hxw
  | _ => cases hxw

/-! ## Blocks -/

theorem hasScope_of_opens {s : Scoping} {id : ScopeId} {kind : ScopeKind} {parent : Option ScopeId}
    {names : List Name → Prop} (h : s.Opens id kind parent names) : s.HasScope id kind := by
  obtain ⟨sc, hsc, hk, -, -⟩ := h
  obtain ⟨hm, hid⟩ := Scoping.mem_of_scope? hsc
  exact ⟨sc, hm, hid, hk⟩

/-- The `let`s and `const`s of a block without a wrapper are inlined, and no nested function uses
    them. -/
theorem of_plainBlock (h : fn.Analysed globals a) {b : Block Mark} {sc : ScopeId}
    (hx : .block b ∈ fn.nodes) (ho : a.scoping.OpensBlock b sc) (hl : a.scoping.NoLoopBody b)
    (hw : a.scoping.blockWrapper? b = none) (hne : b.lexicals ≠ []) {d : Binding}
    (hd : d ∈ a.scoping.bindings) (hs : d.scope = b.mark.id) :
    a.Inlined d ∧ a.scoping.isCaptured d.id = false := by
  have hkind := hasScope_of_opens (ho.scope hne).2
  refine ⟨⟨fun hf => ?_, fun hwr => ?_⟩, ?_⟩
  · exact absurd (h.consistent.kind_unique (hs ▸ hf) hkind) (by decide)
  · rcases h.of_wrapped hd hwr with ⟨c, hc, hcw, hcs, -, -⟩ | ⟨_, _, _, l, _, _, hlm, hll, hb | hh⟩
    · have := node_unique h.nodup hc hx (show c.mark.id = b.mark.id by rw [← hcs, hs])
      cases this
      simp [hw] at hcw
    · exact hl l hlm (by rw [hb, hs])
    · obtain ⟨-, hloop⟩ := h.consistent.headers l hlm _ hh.1
      exact absurd (h.consistent.kind_unique (hs ▸ hloop) hkind) (by decide)
  · rw [Scoping.blockWrapper?, (ho.scope hne).1] at hw
    dsimp only at hw
    split at hw
    · rename_i hcond
      have hany : ¬ (a.scoping.loops.any (·.body = some b.mark.id)) = true := by
        rw [List.any_eq_true]
        rintro ⟨l, hlm, he⟩
        exact hl l hlm (by simpa using he)
      have hneed : a.scoping.needsWrapper b.mark.id = false := by simpa [hany] using hcond
      have hmem := h.consistent.mem_bindingIdsOf.2 ⟨d, hd, rfl, hs⟩
      simpa using List.any_eq_false.1 hneed d.id hmem
    · cases hw

/-- The wrapper of a block hosts the `let`s and `const`s of the block. -/
theorem of_wrappedBlock (h : fn.Analysed globals a) {b : Block Mark} {sc : ScopeId}
    (hx : .block b ∈ fn.nodes) (ho : a.scoping.OpensBlock b sc) {w : Wrapper}
    (hw : a.scoping.blockWrapper? b = some w) :
    b.lexicals ≠ [] ∧ w.exits = b.exits ∧ w.locals = a.scoping.bindingIdsOf b.mark.id ∧
      ∀ i ∈ w.locals, i ∈ a.wrappedBindings := by
  have hmem : w ∈ a.wrappers := by
    rw [h.wrappers]
    exact List.mem_filterMap.2 ⟨_, hx, hw⟩
  have hne : b.lexicals ≠ [] := by
    intro he
    rw [Scoping.blockWrapper?] at hw
    split at hw
    · cases hw
    · rename_i s hs
      exact ho.none he _ (Table.mem_of_lookup hs) rfl
  rw [Scoping.blockWrapper?, (ho.scope hne).1] at hw
  dsimp only at hw
  split at hw
  · cases hw
  · cases hw
    refine ⟨hne, rfl, rfl, fun i hi => ?_⟩
    exact List.mem_flatMap.2 ⟨_, hmem, List.mem_append_left _ hi⟩

/-! ## Loops -/

/-- The binding that the header of a loop declares. -/
theorem of_header (h : fn.Analysed globals a) {loop : NodeId} {hd : Header Mark} {sc : ScopeId}
    (ho : a.scoping.OpensLoop loop hd sc) {l : Lexical Mark}
    (hl : Resolve.headerLexical? hd = some l) :
    ∃ d ∈ a.scoping.bindings, a.scoping.declared? l.mark.id = some d ∧ d.name = l.name ∧
      d.scope = loop ∧ d.origin = .header l.kind ∧ a.scoping.bindingIdsOf loop = [d.id] := by
  obtain ⟨⟨s, hs, -, -, hnames⟩, d, hdecl, hdn, hds, hdo⟩ := ho l hl
  obtain ⟨i, -, hi⟩ := Option.bind_eq_some_iff.1 hdecl
  obtain ⟨hdm, -⟩ := Scoping.mem_of_binding? hi
  refine ⟨d, hdm, hdecl, hdn, hds, hdo, ?_⟩
  obtain ⟨hsm, hsid⟩ := Scoping.mem_of_scope? hs
  obtain ⟨t, ht, htid, hmem⟩ := h.consistent.listed d hdm
  have hts : t = s := by
    have := h.consistent.scope?_of_mem ht
    rw [htid, hds, hs] at this
    exact (Option.some.inj this).symm
  subst hts
  rw [Scoping.bindingIdsOf, hs]
  match hn : t.names, hnames, hmem with
  | [x], _, hmem =>
    obtain rfl : (d.name, d.id) = x := by simpa [hn] using hmem
    simp [Scope.bindingIds, hn]
  | [], hnames, _ => simp at hnames
  | _ :: _ :: _, hnames, _ => simp at hnames

/-- The binding in the header of a loop is a new one in every iteration if it is captured. -/
theorem isPerIteration_eq (h : fn.Analysed globals a) {d : Binding}
    (hd : d ∈ a.scoping.bindings) {k : DeclKind} (hk : k.isBlockScoped)
    (ho : d.origin = .header k) : a.scoping.isPerIteration d.id = a.scoping.isCaptured d.id := by
  have hkind : d.kind = .loopScoped := by
    simp [Binding.kind, ho, Origin.isFunctionScoped, hk]
  simp [Scoping.isPerIteration, h.consistent.binding?_of_mem hd, hkind]

end FunctionDef.Analysed

/-- The binding in the header of a loop that opens a scope is block-scoped. -/
theorem Resolve.headerLexical?_kind {h : Header Mark} {l : Lexical Mark}
    (hl : Resolve.headerLexical? h = some l) : l.kind.isBlockScoped := by
  cases h with
  | counting m i c u =>
    cases i with
    | none => cases hl
    | some s => exact Stmt.lexical?_kind hl
  | forOf m x k e =>
    cases k with
    | none => cases hl
    | some k =>
      rw [headerLexical?] at hl
      split at hl
      · cases hl
        assumption
      · cases hl
  | _ => cases hl

/-- The bindings that the wrapper of a loop gets as parameters. -/
def Scoping.freshOf (a : Scoping) (loop : NodeId) (h : Header Mark) : List BindingId :=
  if (Resolve.headerLexical? h).isSome then (a.bindingIdsOf loop).filter a.isPerIteration else []

/-- The parameters of the wrapper of a loop that are written back. -/
def Scoping.writeBackOf (a : Scoping) (loop : NodeId) (h : Header Mark) (b : Block Mark) :
    List BindingId :=
  if isCounting h then
    (a.freshOf loop h).filter fun i => (a.writesOf i).any (b.marks.map (·.id)).contains
  else []

namespace Scoping

variable {a : Scoping}

/-- The wrapper of a loop whose scopes are known. -/
theorem HasLoop.loopWrapper? {loop : NodeId} {hd : Header Mark} {b : Block Mark} {sc : ScopeId}
    (h : a.HasLoop loop hd b sc) :
    (a.loopWrapper? loop b = none ∧
      ((Resolve.headerLexical? hd).isSome → a.needsWrapper loop = false) ∧
      (b.lexicals ≠ [] → a.needsWrapper b.mark.id = false)) ∨
    ∃ w, a.loopWrapper? loop b = some w ∧ w.node = loop ∧ w.exits = b.exits ∧
      w.params = a.freshOf loop hd ∧
      w.locals = (if b.lexicals.isEmpty then [] else a.bindingIdsOf b.mark.id) ∧
      ((Resolve.headerLexical? hd).isSome ∧ a.needsWrapper loop ∨
        b.lexicals ≠ [] ∧ a.needsWrapper b.mark.id) := by
  rw [Scoping.loopWrapper?, h]
  dsimp only
  cases hl : Resolve.headerLexical? hd with
  | none =>
    cases hb : b.lexicals with
    | nil => exact .inl (by simp)
    | cons l ls =>
      cases hn : a.needsWrapper b.mark.id with
      | false => exact .inl (by simp [hn])
      | true => exact .inr (by simp [hn, freshOf, hl])
  | some l =>
    cases hb : b.lexicals with
    | nil =>
      cases hn : a.needsWrapper loop with
      | false => exact .inl (by simp [hn])
      | true => exact .inr (by simp [hn, freshOf, hl])
    | cons k ks =>
      cases hn : a.needsWrapper loop with
      | true => exact .inr (by simp [hn, freshOf, hl])
      | false =>
        cases hn' : a.needsWrapper b.mark.id with
        | false => exact .inl (by simp [hn, hn'])
        | true => exact .inr (by simp [hn, hn', freshOf, hl])

end Scoping

namespace FunctionDef.Analysed

variable {fn : FunctionDef Mark} {globals : List Name} {a : Analysis}

/-- A binding of the header of a loop lives inside of a wrapper only if the loop has one, and the
    binding has to be a new one in every iteration. -/
theorem header_wrapped (h : fn.Analysed globals a) {m : Mark} {hd : Header Mark} {b : Block Mark}
    {sc : ScopeId} (hx : .stmt (.loop m hd b) ∈ fn.nodes) (ho : a.scoping.OpensLoop m.id hd sc)
    (hhd : (Resolve.headerLexical? hd).isSome) {d : Binding} (hdm : d ∈ a.scoping.bindings)
    (hs : d.scope = m.id) (hwr : d.id ∈ a.wrappedBindings) :
    (a.scoping.loopWrapper? m.id b).isSome ∧ a.scoping.isPerIteration d.id := by
  obtain ⟨l, hl⟩ := Option.isSome_iff_exists.1 hhd
  have hkind := hasScope_of_opens (ho l hl).1
  rcases h.of_wrapped hdm hwr with ⟨_, _, _, _, hblock, _⟩ |
    ⟨m', hd', b', l', hx', hw', hlm, hll, hb | ⟨hh, hper⟩⟩
  · exact absurd (h.consistent.kind_unique (hs ▸ hblock) hkind) (by decide)
  · exact absurd (h.consistent.kind_unique (hs ▸ h.consistent.bodies l' hlm _ hb) hkind) (by decide)
  · obtain ⟨hid, -⟩ := h.consistent.headers l' hlm _ hh
    have hmm : m'.id = m.id := by rw [← hll, ← hid, hs]
    cases node_unique h.nodup hx' hx hmm
    exact ⟨hw', hper⟩

/-- A binding of the body of a loop lives inside of a wrapper only if the loop has one. -/
theorem body_wrapped (h : fn.Analysed globals a) {m : Mark} {hd : Header Mark} {b : Block Mark}
    {sc : ScopeId} (hx : .stmt (.loop m hd b) ∈ fn.nodes) (hl : a.scoping.HasLoop m.id hd b sc)
    (hb : a.scoping.OpensBlock b (hd.scopeIn m.id sc)) (hne : b.lexicals ≠ []) {d : Binding}
    (hdm : d ∈ a.scoping.bindings) (hs : d.scope = b.mark.id) (hwr : d.id ∈ a.wrappedBindings) :
    (a.scoping.loopWrapper? m.id b).isSome := by
  have hkind := hasScope_of_opens (hb.scope hne).2
  have hLm := List.mem_of_find?_eq_some hl
  rcases h.of_wrapped hdm hwr with ⟨_, _, _, _, _, hno⟩ |
    ⟨m', hd', b', l', hx', hw', hlm, hll, hbody | ⟨hh, -⟩⟩
  · exact absurd (by simp [hs, hne]) (hno _ hLm)
  · have hlL := h.consistent.distinctBodies l' hlm _ hLm _ hbody (by simp [hs, hne])
    have hmm : m'.id = m.id := by rw [← hll, hlL]
    cases node_unique h.nodup hx' hx hmm
    exact hw'
  · obtain ⟨-, hloop⟩ := h.consistent.headers l' hlm _ hh
    exact absurd (h.consistent.kind_unique (hs ▸ hloop) hkind) (by decide)

/-- The bindings of the header and of the body of a loop without a wrapper are inlined, and no
    nested function uses them. -/
theorem of_plainLoop (h : fn.Analysed globals a) {m : Mark} {hd : Header Mark} {b : Block Mark}
    {sc : ScopeId} (hx : .stmt (.loop m hd b) ∈ fn.nodes) (hl : a.scoping.HasLoop m.id hd b sc)
    (ho : a.scoping.OpensLoop m.id hd sc) (hb : a.scoping.OpensBlock b (hd.scopeIn m.id sc))
    (hw : a.scoping.loopWrapper? m.id b = none) {d : Binding} (hdm : d ∈ a.scoping.bindings)
    (hs : (Resolve.headerLexical? hd).isSome ∧ d.scope = m.id ∨
      b.lexicals ≠ [] ∧ d.scope = b.mark.id) :
    a.Inlined d ∧ a.scoping.isCaptured d.id = false := by
  have hneeds := hl.loopWrapper?.resolve_right (by simp [hw])
  have hcaptured : ∀ {id}, d.scope = id → a.scoping.needsWrapper id = false →
      a.scoping.isCaptured d.id = false := fun hid hneed => by
    have hmem := h.consistent.mem_bindingIdsOf.2 ⟨d, hdm, rfl, hid⟩
    simpa using List.any_eq_false.1 hneed d.id hmem
  rcases hs with ⟨hhd, hs⟩ | ⟨hne, hs⟩
  · refine ⟨⟨fun hf => ?_, fun hwr => ?_⟩, hcaptured hs (hneeds.2.1 hhd)⟩
    · obtain ⟨l, hl'⟩ := Option.isSome_iff_exists.1 hhd
      exact absurd (h.consistent.kind_unique (hs ▸ hf) (hasScope_of_opens (ho l hl').1)) (by decide)
    · simpa [hw] using (h.header_wrapped hx ho hhd hdm hs hwr).1
  · refine ⟨⟨fun hf => ?_, fun hwr => ?_⟩, hcaptured hs (hneeds.2.2 hne)⟩
    · exact absurd (h.consistent.kind_unique (hs ▸ hf) (hasScope_of_opens (hb.scope hne).2))
        (by decide)
    · simpa [hw] using h.body_wrapped hx hl hb hne hdm hs hwr

/-- What a nested function does not use of the header of a loop with a wrapper is inlined. -/
theorem of_sharedHeader (h : fn.Analysed globals a) {m : Mark} {hd : Header Mark} {b : Block Mark}
    {sc : ScopeId} (hx : .stmt (.loop m hd b) ∈ fn.nodes) (ho : a.scoping.OpensLoop m.id hd sc)
    (hhd : (Resolve.headerLexical? hd).isSome) {d : Binding} (hdm : d ∈ a.scoping.bindings)
    (hs : d.scope = m.id) (hper : d.id ∉ a.scoping.freshOf m.id hd) :
    a.Inlined d ∧ a.scoping.isCaptured d.id = false := by
  obtain ⟨l, hl⟩ := Option.isSome_iff_exists.1 hhd
  obtain ⟨e, hem, -, -, hes, heo, hids⟩ := h.of_header ho hl
  have hde : d.id = e.id := by
    have := h.consistent.mem_bindingIdsOf.2 ⟨d, hdm, rfl, hs⟩
    simpa [hids] using this
  have hd' : a.scoping.isPerIteration d.id = false := by
    simpa [Scoping.freshOf, hl, hids, hde] using hper
  refine ⟨⟨fun hf => ?_, fun hwr => ?_⟩, ?_⟩
  · exact absurd (h.consistent.kind_unique (hs ▸ hf) (hasScope_of_opens (ho l hl).1)) (by decide)
  · simpa [hd'] using (h.header_wrapped hx ho hhd hdm hs hwr).2
  · rw [hde] at hd' ⊢
    rwa [h.isPerIteration_eq hem (Resolve.headerLexical?_kind hl) heo] at hd'

/-- The wrapper of a loop hosts the bindings of the body and those of the header that have to be new
    ones in every iteration. -/
theorem of_wrappedLoop (h : fn.Analysed globals a) {m : Mark} {hd : Header Mark} {b : Block Mark}
    (hx : .stmt (.loop m hd b) ∈ fn.nodes) {w : Wrapper}
    (hw : a.scoping.loopWrapper? m.id b = some w) :
    w ∈ a.wrappers ∧ ∀ i ∈ w.locals ++ w.params, i ∈ a.wrappedBindings := by
  have hmem : w ∈ a.wrappers := by
    rw [h.wrappers]
    exact List.mem_filterMap.2 ⟨_, hx, hw⟩
  exact ⟨hmem, fun i hi => List.mem_flatMap.2 ⟨w, hmem, hi⟩⟩

/-- The plan of a loop without a wrapper. -/
theorem loopPlan?_plain (h : fn.Analysed globals a) {m : Mark} {hd : Header Mark} {b : Block Mark}
    (hx : .stmt (.loop m hd b) ∈ fn.nodes) (hw : a.scoping.loopWrapper? m.id b = none) :
    ∃ plan, a.loopPlan? m.id = some plan ∧ plan.wrapper = none := by
  obtain ⟨hoisting, hp⟩ := h.loopPlan? hx
  refine ⟨_, hp, ?_⟩
  have hf : a.wrappers.find? (·.node = m.id) = none := (h.wrapper? hx).trans hw
  rw [Scoping.planLoop, hf]

/-- The plan of a loop with a wrapper. -/
theorem loopPlan?_wrapped (h : fn.Analysed globals a) {m : Mark} {hd : Header Mark}
    {b : Block Mark} {sc : ScopeId} (hx : .stmt (.loop m hd b) ∈ fn.nodes)
    (hl : a.scoping.HasLoop m.id hd b sc) {w : Wrapper}
    (hw : a.scoping.loopWrapper? m.id b = some w) :
    ∃ plan, a.loopPlan? m.id = some plan ∧ plan.wrapper = some w ∧
      plan.fresh = a.scoping.freshOf m.id hd ∧
      plan.writeBack = a.scoping.writeBackOf m.id hd b := by
  obtain ⟨hoisting, hp⟩ := h.loopPlan? hx
  have hf : a.wrappers.find? (·.node = m.id) = some w := (h.wrapper? hx).trans hw
  have hparams : w.params = a.scoping.freshOf m.id hd := by
    rcases hl.loopWrapper? with ⟨hn, -⟩ | ⟨v, hv, -, -, hvp, -⟩
    · rw [hw] at hn
      cases hn
    · rw [hw] at hv
      cases hv
      exact hvp
  have hfresh : ((((a.scoping.loop? m.id).bind (·.header)).map a.scoping.bindingIdsOf).getD
      []).filter w.params.contains = a.scoping.freshOf m.id hd := by
    rw [hl, hparams, Scoping.freshOf]
    cases Resolve.headerLexical? hd with
    | none => rfl
    | some l =>
      refine List.filter_congr fun i hi => ?_
      simpa using fun _ => hi
  refine ⟨_, hp, ?_⟩
  rw [Scoping.planLoop, hf]
  refine ⟨rfl, hfresh, ?_⟩
  rw [Scoping.writeBackOf, ← hfresh]

end FunctionDef.Analysed

end FlatScope
