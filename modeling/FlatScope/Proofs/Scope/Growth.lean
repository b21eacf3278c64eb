import FlatScope.Proofs.Scope.Chain

/-!
# What is found out stays

The resolution of names only adds to what is known. `Scoping.Grows P a b` says that `b` knows what
`a` knows and more, and that what it knows more is about nodes that satisfy `P`. So every answer
that `a` gives is also the answer of `b`: on the scopes and bindings, on the names in a scope
(`Scoping.Grows.lookup?`) and on the uses of names and the declarations.
-/

namespace FlatScope

/-- A list with further members, all of which satisfy `P`. -/
def Adds {α : Type} (P : α → Prop) (l k : List α) : Prop := ∃ new, k = l ++ new ∧ ∀ x ∈ new, P x

namespace Adds

variable {α : Type} {P Q : α → Prop} {l k j : List α}

/-- Adding nothing. -/
theorem refl (l : List α) : Adds P l l := ⟨[], by simp⟩

theorem one {x : α} (h : P x) : Adds P l (l ++ [x]) := ⟨[x], rfl, by simpa using h⟩

/-- Additions one after the other. -/
theorem trans (h : Adds P l k) (h' : Adds P k j) : Adds P l j := by
  obtain ⟨m, rfl, hm⟩ := h
  obtain ⟨m', rfl, hm'⟩ := h'
  refine ⟨m ++ m', List.append_assoc .., fun x hx => ?_⟩
  rcases List.mem_append.1 hx with hx | hx
  · exact hm x hx
  · exact hm' x hx

theorem mono (h : Adds P l k) (hPQ : ∀ x, P x → Q x) : Adds Q l k := by
  obtain ⟨m, rfl, hm⟩ := h
  exact ⟨m, rfl, fun x hx => hPQ x (hm x hx)⟩

theorem subset (h : Adds P l k) {x : α} (hx : x ∈ l) : x ∈ k := by
  obtain ⟨m, rfl, -⟩ := h
  exact List.mem_append_left m hx

theorem mem (h : Adds P l k) {x : α} (hx : x ∈ k) : x ∈ l ∨ P x := by
  obtain ⟨m, rfl, hm⟩ := h
  exact (List.mem_append.1 hx).imp_right (hm x)

/-- The old entries stay where they were: additions go to the end. -/
theorem isPrefix (h : Adds P l k) : l <+: k := by
  obtain ⟨m, rfl, -⟩ := h
  exact List.prefix_append l m

end Adds

namespace Scoping

/-- `b` knows what `a` knows, and further things about nodes that satisfy `P`. -/
structure Grows (P : NodeId → Prop) (a b : Scoping) : Prop where
  root : b.root = a.root
  scopes : Adds (fun s => P s.id) a.scopes b.scopes
  bindings : Adds (fun c => P c.scope) a.bindings b.bindings
  references : Adds (fun r => P r.node) a.references b.references
  declarations : Adds (fun d => P d.1) a.declarations b.declarations
  blockScopes : Adds (fun d => P d.1) a.blockScopes b.blockScopes
  loops : Adds (fun l => P l.loop ∧ ∀ i, l.body = some i → P i) a.loops b.loops
  globalsUsed : Adds (fun _ => True) a.globalsUsed b.globalsUsed

namespace Grows

variable {P Q : NodeId → Prop} {a b c : Scoping}

theorem refl (a : Scoping) : Grows P a a :=
  ⟨rfl, .refl _, .refl _, .refl _, .refl _, .refl _, .refl _, .refl _⟩

theorem trans (h : Grows P a b) (h' : Grows P b c) : Grows P a c where
  root := h'.root.trans h.root
  scopes := h.scopes.trans h'.scopes
  bindings := h.bindings.trans h'.bindings
  references := h.references.trans h'.references
  declarations := h.declarations.trans h'.declarations
  blockScopes := h.blockScopes.trans h'.blockScopes
  loops := h.loops.trans h'.loops
  globalsUsed := h.globalsUsed.trans h'.globalsUsed

theorem mono (h : Grows P a b) (hPQ : ∀ i, P i → Q i) : Grows Q a b where
  root := h.root
  scopes := h.scopes.mono fun _ => hPQ _
  bindings := h.bindings.mono fun _ => hPQ _
  references := h.references.mono fun _ => hPQ _
  declarations := h.declarations.mono fun _ => hPQ _
  blockScopes := h.blockScopes.mono fun _ => hPQ _
  loops := h.loops.mono fun _ hl => ⟨hPQ _ hl.1, fun i hi => hPQ _ (hl.2 i hi)⟩
  globalsUsed := h.globalsUsed

/-! ## Answers that stay -/

/-- A scope that was found stays what it was. -/
theorem scope? (h : Grows P a b) {id : ScopeId} {s : Scope} (hs : a.scope? id = some s) :
    b.scope? id = some s := h.scopes.isPrefix.find?_eq_some hs

/-- A binding that was found stays what it was. -/
theorem binding? (h : Grows P a b) {id : BindingId} {s : Binding} (hs : a.binding? id = some s) :
    b.binding? id = some s := h.bindings.isPrefix.find?_eq_some hs

/-- A reference that was recorded stays what it was. -/
theorem referenceAt? (h : Grows P a b) {id : NodeId} {r : Reference}
    (hr : a.referenceAt? id = some r) : b.referenceAt? id = some r :=
  h.references.isPrefix.find?_eq_some hr

/-- The scopes of a loop stay what they were. -/
theorem loop? (h : Grows P a b) {id : NodeId} {l : LoopScopes} (hl : a.loop? id = some l) :
    b.loop? id = some l := h.loops.isPrefix.find?_eq_some hl

/-- The scope of a block stays what it was. -/
theorem blockScope (h : Grows P a b) {id : NodeId} {s : ScopeId}
    (hs : a.blockScopes.lookup id = some s) : b.blockScopes.lookup id = some s :=
  h.blockScopes.isPrefix.lookup_eq_some hs

/-- What a declaration declared stays what it was. -/
theorem declared? (h : Grows P a b) {id : NodeId} {s : Binding} (hs : a.declared? id = some s) :
    b.declared? id = some s := by
  obtain ⟨i, hi, hs⟩ := Option.bind_eq_some_iff.1 hs
  exact Option.bind_eq_some_iff.2 ⟨i, h.declarations.isPrefix.lookup_eq_some hi, h.binding? hs⟩

/-- What a name means in a scope that is known stays. -/
theorem lookup? (h : Grows P a b) (ha : a.Consistent) (hb : b.Consistent) {id : ScopeId}
    {s : Scope} (hs : a.scope? id = some s) (n : Name) : b.lookup? id n = a.lookup? id n := by
  induction id using Nat.strongRecOn generalizing s with
  | ind id ih =>
    obtain ⟨hmem, hid⟩ := mem_of_scope? hs
    rw [ha.lookup?_eq hs, hb.lookup?_eq (h.scope? hs)]
    cases hi : s.names.lookup n with
    | some i =>
      obtain ⟨c, hc, -⟩ := ha.binding?_of_named hmem hi
      show b.binding? i = a.binding? i
      rw [hc, h.binding? hc]
    | none =>
      cases hp : s.parent with
      | none => rfl
      | some p =>
        obtain ⟨hlt, ht⟩ := ha.parent s hmem p hp
        obtain ⟨t, ht, -⟩ := ha.scope?_eq ht
        exact ih p (hid ▸ hlt) ht

end Grows

end Scoping

end FlatScope
