import FlatScope.Proofs.Scope.Performed

/-!
# The finished scopes

References are resolved while scopes and declarations are still being found. What is true of them in
the end (`FunctionDef.resolve_finished`): the scopes form one tree, rooted at the function
(`Scoping.IsTree`), every binding is listed in one scope, under its own name
(`Scoping.ListsBindings`), and every reference means what its name means in the finished table, or
is one to something outside of the function if it means nothing there (`Scoping.IsSettled`).
-/

namespace FlatScope

open Node Resolve

namespace Scoping

/-- The scopes are one tree, whose root is the scope of the function: every other scope is inside of
    one with a smaller number, the scopes around a scope lead up to the root, and the scopes inside
    of a scope are those that it is the parent of, each once. -/
structure IsTree (a : Scoping) : Prop where
  nodup : (a.scopes.map (·.id)).Nodup
  root : ∃ s ∈ a.scopes, s.id = a.root ∧ s.kind = .function ∧ s.parent = none
  parent : ∀ s ∈ a.scopes, s.id ≠ a.root → ∃ t ∈ a.scopes, s.parent = some t.id ∧ t.id < s.id
  linked : ∀ s ∈ a.scopes, (a.chain s.id).IsChain fun x y => x.parent = some y.id
  first : ∀ s ∈ a.scopes, (a.chain s.id).head? = some s
  last : ∀ s ∈ a.scopes, (a.chain s.id).getLast?.map (·.id) = some a.root
  children : ∀ s ∈ a.scopes, ∀ i, i ∈ a.children s.id ↔ ∃ t ∈ a.scopes, t.id = i ∧
    t.parent = some s.id
  childrenNodup : ∀ s ∈ a.scopes, (a.children s.id).Nodup

/-- Every binding is listed in one scope, its own, there once and under its own name, and nothing
    else is listed. -/
structure ListsBindings (a : Scoping) : Prop where
  nodup : (a.bindings.map (·.id)).Nodup
  scope : ∀ b ∈ a.bindings, ∃ s ∈ a.scopes, s.id = b.scope
  listed : ∀ b ∈ a.bindings, ∀ s ∈ a.scopes, ∀ n, (n, b.id) ∈ s.names ↔ s.id = b.scope ∧ n = b.name
  bindingIds : ∀ s ∈ a.scopes, s.bindingIds.Nodup ∧ ∀ i ∈ s.bindingIds, ∃ b ∈ a.bindings, b.id = i

/-- Every reference means what its name means in its scope. One that means nothing there is noted as
    one to something outside of the function, and only such names are noted. -/
structure IsSettled (a : Scoping) (globals : List Name) : Prop where
  binding : ∀ r ∈ a.references, r.binding = (a.lookup? r.scope r.name).map (·.id)
  known : ∀ r ∈ a.references, a.lookup? r.scope r.name = none ↔ r.binding = none
  globals : ∀ r ∈ a.references, r.binding = none → r.name ∈ globals
  globalsUsed : ∀ n, n ∈ a.globalsUsed ↔ ∃ r ∈ a.references, r.name = n ∧ r.binding = none

namespace Consistent

variable {a : Scoping}

theorem listsBindings (h : a.Consistent) : a.ListsBindings where
  nodup := by
    rw [h.numbered]
    exact List.nodup_range'
  scope b hb := by
    obtain ⟨s, hs, hsb, -⟩ := h.listed b hb
    exact ⟨s, hs, hsb⟩
  listed b hb s hs n := by
    constructor
    · intro hmem
      obtain ⟨c, hc, hcb, hcn, hcs⟩ := h.named s hs _ hmem
      obtain rfl := h.eq_of_id hc hb hcb
      exact ⟨hcs.symm, hcn.symm⟩
    · rintro ⟨hsb, rfl⟩
      obtain ⟨t, ht, htb, hmem⟩ := h.listed b hb
      have := h.scope?_of_mem ht
      rw [htb, ← hsb, h.scope?_of_mem hs] at this
      rwa [Option.some.inj this]
  bindingIds s hs := by
    refine ⟨?_, fun i hi => ?_⟩
    · -- A number that was listed twice would stand behind two names.
      refine List.Nodup.map_on (fun x hx y hy hxy => ?_) (List.Nodup.of_map _ (h.distinct s hs))
      obtain ⟨c, hc, hcx, hcn, -⟩ := h.named s hs x hx
      obtain ⟨d, hd, hdy, hdn, -⟩ := h.named s hs y hy
      obtain rfl := h.eq_of_id hc hd (hcx.trans (hxy.trans hdy.symm))
      exact Prod.ext (hcn.symm.trans hdn) hxy
    · obtain ⟨x, hx, rfl⟩ := List.mem_map.1 hi
      obtain ⟨b, hb, hbi, -⟩ := h.named s hs x hx
      exact ⟨b, hb, hbi⟩

/-- Induction from the scopes that have none around them inwards. -/
theorem scope_induction (h : a.Consistent) {P : Scope → Prop}
    (root : ∀ s ∈ a.scopes, s.parent = none → P s)
    (inner : ∀ s ∈ a.scopes, ∀ t ∈ a.scopes, s.parent = some t.id → P t → P s) :
    ∀ s ∈ a.scopes, P s := by
  suffices hall : ∀ i, ∀ s ∈ a.scopes, s.id = i → P s from fun s hs => hall s.id s hs rfl
  intro i
  induction i using Nat.strongRecOn with
  | ind i ih =>
    rintro s hs rfl
    cases hp : s.parent with
    | none => exact root s hs hp
    | some p =>
      obtain ⟨hlt, t, ht, rfl⟩ := h.parent s hs p hp
      exact inner s hs t ht hp (ih t.id hlt t ht rfl)

theorem chain_root (h : a.Consistent) {s : Scope} (hs : s ∈ a.scopes) (hp : s.parent = none) :
    a.chain s.id = [s] := by
  rw [h.chain_eq (h.scope?_of_mem hs), hp]

theorem chain_inner (h : a.Consistent) {s : Scope} (hs : s ∈ a.scopes) {p : ScopeId}
    (hp : s.parent = some p) : a.chain s.id = s :: a.chain p := by
  rw [h.chain_eq (h.scope?_of_mem hs), hp]

/-- A scope is the first of those around it. -/
theorem chain_head? (h : a.Consistent) {s : Scope} (hs : s ∈ a.scopes) :
    (a.chain s.id).head? = some s := by
  rw [h.chain_eq (h.scope?_of_mem hs)]
  rfl

/-- The scopes inside of a scope are those that it is the parent of. -/
theorem mem_children (h : a.Consistent) {p i : ScopeId} :
    i ∈ a.children p ↔ ∃ t ∈ a.scopes, t.id = i ∧ t.parent = some p := by
  simp only [children, h.nesting, List.mem_map, List.mem_filter, List.mem_filterMap]
  constructor
  · rintro ⟨x, ⟨⟨t, ht, hx⟩, hxp⟩, rfl⟩
    obtain ⟨q, hq, rfl⟩ := Option.map_eq_some_iff.1 hx
    obtain rfl : q = p := by simpa using hxp
    exact ⟨t, ht, rfl, hq⟩
  · rintro ⟨t, ht, rfl, hp⟩
    exact ⟨(p, t.id), ⟨⟨t, ht, by rw [hp]; rfl⟩, by simp⟩, rfl⟩

theorem children_nodup (h : a.Consistent) (p : ScopeId) : (a.children p).Nodup := by
  have hsub : ∀ l : List Scope,
      ((l.filterMap fun s => s.parent.map fun p => (p, s.id)).map (·.2)).Sublist
      (l.map (·.id)) := by
    intro l
    induction l with
    | nil => exact .slnil
    | cons s l ih =>
      cases hp : s.parent with
      | none => simpa [hp] using ih.cons s.id
      | some p => simpa [hp] using ih
  rw [children, h.nesting]
  exact h.nodup.sublist ((List.filter_sublist.map _).trans (hsub a.scopes))

/-- The scopes around a scope, up to the only one that has none around it. -/
theorem isTree (h : a.Consistent)
    (hroot : ∃ s ∈ a.scopes, s.id = a.root ∧ s.kind = .function ∧ s.parent = none)
    (honly : ∀ s ∈ a.scopes, s.parent = none → s.id = a.root) : a.IsTree where
  nodup := h.nodup
  root := hroot
  parent s hs hne := by
    cases hp : s.parent with
    | none => exact absurd (honly s hs hp) hne
    | some p =>
      obtain ⟨hlt, t, ht, rfl⟩ := h.parent s hs p hp
      exact ⟨t, ht, rfl, hlt⟩
  linked := h.scope_induction (fun s hs hp => by rw [h.chain_root hs hp]; exact .singleton s)
    fun s hs t ht hp ih => by
      rw [h.chain_inner hs hp]
      have hhead := h.chain_head? ht
      cases hc : a.chain t.id with
      | nil => simp [hc] at hhead
      | cons x l =>
        rw [hc] at ih hhead
        obtain rfl : x = t := by simpa using hhead
        exact .cons_cons hp ih
  first s hs := h.chain_head? hs
  last := h.scope_induction (fun s hs hp => by rw [h.chain_root hs hp, ← honly s hs hp]; rfl)
    fun s hs t ht hp ih => by
      rw [h.chain_inner hs hp]
      cases hc : a.chain t.id with
      | nil => simp [hc] at ih
      | cons x l => rwa [List.getLast?_cons_cons, ← hc]
  children s hs i := h.mem_children
  childrenNodup s hs := h.children_nodup s.id

end Consistent

end Scoping

/-! ## Functions -/

/-- Only the function itself is not inside of a scope. -/
theorem Place.scope?_eq_none {fn : FunctionDef Mark} {q : Place} (h : (ofFunction fn).Contains q)
    (hq : q.scope? = none) : q = ofFunction fn := by
  by_contra hne
  obtain ⟨l, hl⟩ := h.around_inner nofun hne
  rw [scope?, ← hl] at hq
  simp [inner, ofFunction, under, Node.enclosure?] at hq

/-- What the resolution of a numbered function finds holds of the finished table, though references
    are resolved before it is finished. -/
theorem FunctionDef.resolve_finished (fn : FunctionDef Span) (globals : List Name) (a : Scoping)
    (h : fn.number.resolve globals = .ok a) :
    a.root = fn.number.mark.id ∧ a.IsTree ∧ a.ListsBindings ∧ a.IsSettled globals := by
  obtain ⟨hrec, hroot⟩ := FunctionDef.resolve_records (fn.numberFrom_consecutive 1) h
  refine ⟨hroot, hrec.consistent.isTree ?_ fun s hs hp => ?_, hrec.consistent.listsBindings,
    fun r hr => (hrec.settled r hr).1, fun r hr => ?_,
    fun r hr => (hrec.settled r hr).2, hrec.globals⟩
  · obtain ⟨s, hs, hfs⟩ :=
      hrec.opened (.ofFunction fn.number.mark fn.number.params fn.number.body) none
      List.mem_cons_self
    exact ⟨s, hs, hfs.id.trans hroot.symm, hfs.kind, hfs.parent⟩
  · obtain ⟨f, p, hf, hfs⟩ := hrec.scopes s hs
    obtain ⟨q, hq, hqf, hqp⟩ := FunctionDef.opens_mem_acts.1 hf
    obtain rfl := Place.scope?_eq_none hq (hqp.trans (hfs.parent.symm.trans hp))
    cases hqf
    exact hfs.id.trans hroot.symm
  · rw [(hrec.settled r hr).1, Option.map_eq_none_iff]

/-- The function
    `function f(n) { for (let i = 0; i < n; i = i + 1) { g(function () { return i; }); } }`. -/
def capturingHeader : FunctionDef Span :=
  let u := Span.unknown
  ⟨u, "f", ["n"], .mk u [.loop u
    (.counting u (some (.declaration u "i" .letVar (some (.literal u (.number (.int 0))))))
      (some (.binary u .lt (.name u "i") (.name u "n")))
      (some (.assignment u (.name u "i")
      (.binary u .add (.name u "i") (.literal u (.number (.int 1)))))))
    (.mk u [.expression u (.call u (.name u "g")
      [.function u [] (.mk u [.ret u (some (.name u "i"))])])])]⟩

/-- The theorem for a function with three scopes, one inside of the other. -/
theorem FunctionDef.resolve_finished_capturingHeader : ∃ a,
    capturingHeader.number.resolve ["g"] = .ok a ∧
      a.scopes.map (·.kind) = [.function, .loop, .function] ∧
      a.references.map (·.binding) = [some 2, some 1, some 2, some 2, none, some 2] ∧
      a.root = capturingHeader.number.mark.id ∧ a.IsTree ∧ a.ListsBindings ∧ a.IsSettled ["g"] :=
  ⟨_, rfl, rfl, rfl, FunctionDef.resolve_finished capturingHeader ["g"] _ rfl⟩

end FlatScope
