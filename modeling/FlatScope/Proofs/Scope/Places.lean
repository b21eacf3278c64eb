import Mathlib.Data.List.Nodup
import Mathlib.Data.List.Pairwise
import Mathlib.Logic.Relation
import Mathlib.Tactic.ByContra
import FlatScope.Proofs.Scope.Opening

/-!
# Places in a function

A node of a function stands inside of functions, blocks and loops that declare names, its
*enclosures*. A `Place` is a node together with the enclosures around it, so that what a name means
there can be read off the text: it is the name of the innermost enclosure that declares it
(`Place.owner?`).

A place contains its parts and what these contain (`Place.Contains`). In a numbered tree

* a place is known by the number of its node (`Place.eq_of_id`);
* the enclosures around a place that another one contains are that of the outer place, if it is one,
  those between the two, and those around the outer place (`Place.Contains.around`);
* every enclosure around a place is that of a place around it (`Place.Contains.enclosed`).
-/

namespace FlatScope

open Node Resolve

/-! ## Enclosures -/

/-- A function, block or loop that declares names for what is inside of it, in the order of their
    declaration. -/
structure Enclosure where
  id : ScopeId
  kind : ScopeKind
  items : List Item

namespace Enclosure

def names (f : Enclosure) : List Name := f.items.map (·.name)

/-- A function declares its parameters, the `var`s in it and the `let`s and `const`s of its body. -/
def ofFunction (m : Mark) (params : List Name) (body : Block Mark) : Enclosure :=
  ⟨m.id, .function,
    params.map (.ofParam m.span) ++ (body.vars.map .ofVar ++ body.lexicals.map .ofLexical)⟩

/-- A block declares its `let`s and `const`s, if it has any. -/
def ofBlock? (b : Block Mark) : Option Enclosure :=
  if b.lexicals.isEmpty then none
  else some ⟨b.mark.id, .block, b.lexicals.map .ofLexical⟩

/-- A loop declares the `let` or `const` of its header, if it has one. -/
def ofLoop? (loop : Mark) (h : Header Mark) : Option Enclosure :=
  (headerLexical? h).map fun l =>
    ⟨loop.id, .loop, [⟨l.name, .header l.kind, l.mark.span, some l.mark.id⟩]⟩

end Enclosure

/-- The enclosure that a node is. -/
def Node.enclosure? : Node Mark → Option Enclosure
  | .expr (.function m ps b) => some (.ofFunction m ps b)
  | .function fn => some (.ofFunction fn.mark fn.params fn.body)
  | .block b | .stmt (.block b) => Enclosure.ofBlock? b
  | .stmt (.loop m h _) => Enclosure.ofLoop? m h
  | _ => none

theorem Enclosure.ofBlock?_eq_some {b : Block Mark} {f : Enclosure} (h : ofBlock? b = some f) :
    b.lexicals ≠ [] ∧ f = ⟨b.mark.id, .block, b.lexicals.map .ofLexical⟩ := by
  unfold ofBlock? at h
  split at h
  · cases h
  case isFalse hne => exact ⟨by simpa using hne, (Option.some.inj h).symm⟩

theorem Enclosure.ofLoop?_eq_some {m : Mark} {h : Header Mark} {f : Enclosure}
    (hf : ofLoop? m h = some f) : ∃ l, headerLexical? h = some l ∧
      f = ⟨m.id, .loop, [⟨l.name, .header l.kind, l.mark.span, some l.mark.id⟩]⟩ := by
  obtain ⟨l, hl, rfl⟩ := Option.map_eq_some_iff.1 hf
  exact ⟨l, hl, rfl⟩

/-- An enclosure is known by the number of its node. -/
theorem Node.enclosure?_id {x : Node Mark} {f : Enclosure} (h : x.enclosure? = some f) :
    f.id = x.mark.id := by
  unfold Node.enclosure? at h
  split at h
  · cases h; rfl
  · cases h; rfl
  · rw [(Enclosure.ofBlock?_eq_some h).2]; rfl
  · rw [(Enclosure.ofBlock?_eq_some h).2]; rfl
  · obtain ⟨l, -, rfl⟩ := Enclosure.ofLoop?_eq_some h
    rfl
  · cases h

/-- An enclosure of the kind of a function is one. -/
theorem Node.enclosure?_function {x : Node Mark} {f : Enclosure} (h : x.enclosure? = some f)
    (hk : f.kind = .function) :
    (∃ m ps b, x = .expr (.function m ps b)) ∨ ∃ fn, x = .function fn := by
  unfold Node.enclosure? at h
  split at h
  · exact .inl ⟨_, _, _, rfl⟩
  · exact .inr ⟨_, rfl⟩
  · rw [(Enclosure.ofBlock?_eq_some h).2] at hk
    cases hk
  · rw [(Enclosure.ofBlock?_eq_some h).2] at hk
    cases hk
  · obtain ⟨l, -, rfl⟩ := Enclosure.ofLoop?_eq_some h
    cases hk
  · cases h

/-- An enclosure of the kind of a block is one that declares something. -/
theorem Node.enclosure?_block {x : Node Mark} {f : Enclosure} (h : x.enclosure? = some f)
    (hk : f.kind = .block) : ∃ b, (x = .block b ∨ x = .stmt (.block b)) ∧ b.lexicals ≠ [] := by
  unfold Node.enclosure? at h
  split at h
  · cases h
    cases hk
  · cases h
    cases hk
  · exact ⟨_, .inl rfl, (Enclosure.ofBlock?_eq_some h).1⟩
  · exact ⟨_, .inr rfl, (Enclosure.ofBlock?_eq_some h).1⟩
  · obtain ⟨l, -, rfl⟩ := Enclosure.ofLoop?_eq_some h
    cases hk
  · cases h

/-- An enclosure of the kind of a loop is one whose header declares something. -/
theorem Node.enclosure?_loop {x : Node Mark} {f : Enclosure} (h : x.enclosure? = some f)
    (hk : f.kind = .loop) : ∃ m hd b, x = .stmt (.loop m hd b) ∧ (headerLexical? hd).isSome := by
  unfold Node.enclosure? at h
  split at h
  · cases h
    cases hk
  · cases h
    cases hk
  · rw [(Enclosure.ofBlock?_eq_some h).2] at hk
    cases hk
  · rw [(Enclosure.ofBlock?_eq_some h).2] at hk
    cases hk
  · obtain ⟨l, hl, rfl⟩ := Enclosure.ofLoop?_eq_some h
    exact ⟨_, _, _, rfl, by rw [hl]; rfl⟩
  · cases h

/-- The enclosures around the header of a loop, given those around the body and around the loop: the
    sequence of a loop is evaluated outside of the scope of the loop. -/
def Header.around (inner outer : List Enclosure) : Header Mark → List Enclosure
  | .forOf .. => outer
  | _ => inner

theorem Header.around_eq (inner outer : List Enclosure) (h : Header Mark) :
    h.around inner outer = inner ∨ h.around inner outer = outer := by
  cases h
  case forOf => exact .inr rfl
  all_goals exact .inl rfl

/-! ## Places -/

/-- A node, the enclosures around it, the innermost first, the one that it is itself, and whether it
    is assigned to. -/
structure Place where
  node : Node Mark
  around : List Enclosure
  opens : Option Enclosure
  written : Bool

namespace Place

/-- A node that is not assigned to. -/
def under (around : List Enclosure) (x : Node Mark) : Place := ⟨x, around, x.enclosure?, false⟩

/-- The enclosures around the parts of a place. -/
def inner (p : Place) : List Enclosure := p.opens.toList ++ p.around

/-- The parts of a place. The body of a function declares its names with the function. -/
def children (p : Place) : List Place :=
  match p.node with
  | .expr (.function _ _ b) => [⟨.block b, p.inner, none, false⟩]
  | .function fn => [⟨.block fn.body, p.inner, none, false⟩]
  | .stmt (.assignment _ t v) =>
    [⟨.expr t, p.inner, (Node.expr t).enclosure?, true⟩, .under p.inner (.expr v)]
  | .stmt (.loop _ h b) =>
    [.under (h.around p.inner p.around) (.header h), .under p.inner (.block b)]
  | x => x.children.map (.under p.inner)

/-- The place of a whole function. -/
def ofFunction (fn : FunctionDef Mark) : Place := .under [] (.function fn)

/-- The place is the other one, or around it. -/
def Contains : Place → Place → Prop := Relation.ReflTransGen fun p q => q ∈ p.children

/-- The name that is used at a place, and whether it is assigned to: a name in an expression or on
    the left of an assignment, or the variable of a loop that is declared elsewhere. -/
def use? (p : Place) : Option (Name × Bool) :=
  match p.node with
  | .expr (.name _ n) => some (n, p.written)
  | .header (.forOf _ n none _) | .header (.forOf _ n (some .var) _) => some (n, true)
  | _ => none

/-- The enclosure that a name belongs to: the innermost one that declares it. -/
def owner? (p : Place) (n : Name) : Option Enclosure := p.around.find? fun f => n ∈ f.names

/-- A binding is used at a place. -/
def Uses (p : Place) (b : Binding) : Prop :=
  (∃ w, p.use? = some (b.name, w)) ∧ (p.owner? b.name).map (·.id) = some b.scope

/-- The scope that a place is in. -/
def scope? (p : Place) : Option ScopeId := p.around.head?.map (·.id)

variable {p q : Place}

theorem scope?_eq_none_iff : p.scope? = none ↔ p.around = [] := by simp [scope?]

theorem scope?_of_around {f : Enclosure} {fs : List Enclosure} (h : p.around = f :: fs) :
    p.scope? = some f.id := by
  rw [scope?, h]
  rfl

namespace Contains

theorem refl (p : Place) : p.Contains p := Relation.ReflTransGen.refl

theorem child {c : Place} (hc : c ∈ p.children) (h : c.Contains q) : p.Contains q := .head hc h

theorem trans {r : Place} (h : p.Contains q) (h' : q.Contains r) : p.Contains r :=
  Relation.ReflTransGen.trans h h'

end Contains

/-- A place contains itself and what its parts contain. -/
theorem contains_iff : p.Contains q ↔ q = p ∨ ∃ c ∈ p.children, c.Contains q := by
  rw [Contains, Relation.ReflTransGen.cases_head_iff]
  exact or_congr_left eq_comm

/-! ## The numbers of a place -/

/-- The numbers of the nodes of a place. -/
def ids (p : Place) : List NodeId := Node.ids p.node.nodes

theorem children_node (p : Place) : p.children.map (·.node) = p.node.children := by
  unfold children
  split <;> simp_all [Node.children, under, Function.comp_def]

/-- The body of a loop is a part of it. -/
theorem body_mem_children {m : Mark} {h : Header Mark} {b : Block Mark}
    (hp : p.node = .stmt (.loop m h b)) : under p.inner (.block b) ∈ p.children := by
  rw [children, hp]
  exact List.mem_cons_of_mem _ List.mem_cons_self

theorem ids_eq (p : Place) : p.ids = p.node.mark.id :: p.children.flatMap ids := by
  rw [ids, Node.nodes_eq, Node.ids_cons, Node.canonical_mark, ← p.children_node, List.flatMap_map,
    Node.ids, List.map_flatMap]
  rfl

/-- The node of a place is listed as it is, if that of a place around it is. -/
theorem Contains.canonical (h : p.Contains q) (hp : p.node.canonical = p.node) :
    q.node.canonical = q.node := by
  cases h with
  | refl => exact hp
  | @tail c _ _ hd =>
    refine c.node.canonical_of_mem_children _ ?_
    rw [← c.children_node]
    exact List.mem_map_of_mem hd

/-- The node of a place is one of those of a place around it. -/
theorem Contains.mem_nodes (h : p.Contains q) (hp : p.node.canonical = p.node) :
    q.node ∈ p.node.nodes := by
  suffices hsub : q.node.nodes ⊆ p.node.nodes by
    refine hsub ?_
    rw [Node.nodes_eq, h.canonical hp]
    exact List.mem_cons_self
  clear hp
  induction h with
  | refl => exact fun _ => id
  | @tail c d _ hd ih =>
    refine fun x hx => ih ?_
    rw [Node.nodes_eq, ← c.children_node, List.flatMap_map]
    exact List.mem_cons_of_mem _ (List.mem_flatMap.2 ⟨d, hd, hx⟩)

theorem id_mem (p : Place) : p.node.mark.id ∈ p.ids := by
  rw [ids_eq]
  exact List.mem_cons_self

theorem Contains.ids_subset (h : p.Contains q) : q.ids ⊆ p.ids := by
  induction h with
  | refl => exact fun _ => id
  | @tail c d _ hd ih =>
    refine fun i hi => ih ?_
    rw [ids_eq]
    exact List.mem_cons_of_mem _ (List.mem_flatMap.2 ⟨d, hd, hi⟩)

theorem Contains.nodup (h : p.Contains q) (hp : p.ids.Nodup) : q.ids.Nodup := by
  induction h with
  | refl => exact hp
  | tail _ hd ih =>
    rw [ids_eq, List.nodup_cons] at ih
    exact (List.nodup_flatMap.1 ih.2).1 _ hd

/-- In a tree whose nodes have different numbers, different children have nothing in common. -/
theorem child_unique (hp : p.ids.Nodup) {c d : Place} (hc : c ∈ p.children) (hd : d ∈ p.children)
    {i : NodeId} (hic : i ∈ c.ids) (hid : i ∈ d.ids) : c = d := by
  rw [ids_eq, List.nodup_cons] at hp
  by_contra hne
  have : Std.Symm (Function.onFun List.Disjoint ids) := ⟨fun _ _ h _ hj hi => h hi hj⟩
  exact (List.nodup_flatMap.1 hp.2).2.forall hc hd hne hic hid

theorem not_mem_child (hp : p.ids.Nodup) {c : Place} (hc : c ∈ p.children) :
    p.node.mark.id ∉ c.ids := by
  rw [ids_eq, List.nodup_cons] at hp
  exact fun h => hp.1 (List.mem_flatMap.2 ⟨c, hc, h⟩)

/-- A place is known by the number of its node. -/
theorem eq_of_id {root : Place} (hroot : root.ids.Nodup) (hp : root.Contains p)
    (hq : root.Contains q) (h : p.node.mark.id = q.node.mark.id) : p = q := by
  -- Both are below the same child, or both are the root.
  induction hp using Relation.ReflTransGen.head_induction_on with
  | refl =>
    rcases contains_iff.1 hq with rfl | ⟨c, hc, hcq⟩
    · rfl
    · exact absurd (hcq.ids_subset (h ▸ q.id_mem)) (not_mem_child hroot hc)
  | @head root c hc hcp ih =>
    have hpc : p.node.mark.id ∈ c.ids := Contains.ids_subset hcp p.id_mem
    rcases contains_iff.1 hq with rfl | ⟨d, hd, hdq⟩
    · exact absurd (h ▸ hpc) (not_mem_child hroot hc)
    · have hqd : p.node.mark.id ∈ d.ids := h ▸ hdq.ids_subset q.id_mem
      obtain rfl := child_unique hroot hc hd hpc hqd
      exact ih ((Contains.child hc (.refl c)).nodup hroot) hdq

/-- Only the root of a tree may be a function at the top of a program. -/
theorem Contains.eq_of_function {fn : FunctionDef Mark} (h : p.Contains q)
    (hq : q.node = .function fn) : q = p := by
  cases h with
  | refl => rfl
  | @tail c _ _ hd =>
    have hmem : Node.function fn ∈ c.node.children := by
      rw [← c.children_node, ← hq]
      exact List.mem_map_of_mem hd
    exact absurd hmem c.node.function_not_mem_children

/-! ## The enclosures around a place -/

/-- Around a part are the enclosures of the place, except that the sequence of a loop is outside of
    the loop. -/
theorem child_around {c : Place} (hc : c ∈ p.children) : c.around = p.inner ∨
    c.around = p.around ∧ ∃ m h b, p.node = .stmt (.loop m h b) ∧ c.node = .header h := by
  unfold children at hc
  split at hc
  case h_4 m h b hp =>
    simp only [List.mem_cons, List.not_mem_nil, or_false] at hc
    rcases hc with rfl | rfl
    · exact (h.around_eq p.inner p.around).imp_right fun hout => ⟨hout, m, h, b, hp, rfl⟩
    · exact .inl rfl
  all_goals simp only [List.mem_cons, List.not_mem_nil, or_false, List.mem_map] at hc
  · exact .inl (by rw [hc])
  · exact .inl (by rw [hc])
  · rcases hc with rfl | rfl <;> exact .inl rfl
  · obtain ⟨x, -, rfl⟩ := hc
    exact .inl rfl

/-- The enclosures around a place are around everything in it. -/
theorem Contains.around (h : p.Contains q) : p.around <:+ q.around := by
  induction h with
  | refl => exact List.suffix_refl _
  | @tail c d _ hd ih =>
    rcases child_around hd with hd | ⟨hd, -⟩
    · exact hd ▸ ih.trans (List.suffix_append ..)
    · exact hd ▸ ih

/-- All that is inside of a place but a loop stands inside of its enclosure. -/
theorem Contains.around_inner (h : p.Contains q) (hp : ∀ m h b, p.node ≠ .stmt (.loop m h b))
    (hne : q ≠ p) : p.inner <:+ q.around := by
  rcases contains_iff.1 h with rfl | ⟨c, hc, hcq⟩
  · exact absurd rfl hne
  · rcases child_around hc with hin | ⟨-, m, h, b, hloop, -⟩
    · exact hin ▸ hcq.around
    · exact absurd hloop (hp m h b)

/-- A place is the enclosure that its node is, unless it is the body of a function. -/
def Proper (p : Place) : Prop :=
  p.opens = p.node.enclosure? ∨ p.opens = none ∧ ∃ b, p.node = .block b

theorem proper_under (around : List Enclosure) (x : Node Mark) : (under around x).Proper := .inl rfl

theorem child_proper {c : Place} (hc : c ∈ p.children) : c.Proper := by
  unfold children at hc
  split at hc
  all_goals simp only [List.mem_cons, List.not_mem_nil, or_false, List.mem_map] at hc
  · exact .inr (by rw [hc]; exact ⟨rfl, _, rfl⟩)
  · exact .inr (by rw [hc]; exact ⟨rfl, _, rfl⟩)
  · rcases hc with rfl | rfl <;> exact .inl rfl
  · rcases hc with rfl | rfl <;> exact .inl rfl
  · obtain ⟨x, -, rfl⟩ := hc
    exact .inl rfl

theorem Contains.proper (h : p.Contains q) (hp : p.Proper) : q.Proper := by
  cases h with
  | refl => exact hp
  | tail _ hd => exact child_proper hd

namespace Proper

/-- The enclosure that a place is belongs to its node. -/
theorem enclosure? (h : p.Proper) {f : Enclosure} (hf : p.opens = some f) :
    p.node.enclosure? = some f := by
  rcases h with h | ⟨h, -⟩
  · exact h ▸ hf
  · rw [h] at hf
    cases hf

/-- The enclosure that a place is has the number of its node. -/
theorem id (h : p.Proper) {f : Enclosure} (hf : p.opens = some f) : f.id = p.node.mark.id :=
  Node.enclosure?_id (h.enclosure? hf)

/-- A function is an enclosure. -/
theorem function (h : p.Proper) {m : Mark} {ps : List Name} {b : Block Mark}
    (hp : p.node = .expr (.function m ps b)) : p.opens = some (.ofFunction m ps b) := by
  rcases h with h | ⟨-, b', hb⟩
  · rw [h, hp]
    rfl
  · rw [hp] at hb
    cases hb

end Proper

/-- The innermost enclosure around a place is that of a place around it, around which are the
    others. -/
theorem Contains.enclosing {root : Place} (hroot : root.around = []) (h : root.Contains p) :
    p.around = [] ∨ ∃ q f, root.Contains q ∧ q.Contains p ∧ q.opens = some f ∧
      p.around = f :: q.around := by
  induction h with
  | refl => exact .inl hroot
  | @tail c d hc hd ih =>
    have hstep : c.Contains d := .child hd (.refl d)
    have hup : d.around = c.around → d.around = [] ∨ ∃ q f, root.Contains q ∧ q.Contains d ∧
        q.opens = some f ∧ d.around = f :: q.around := fun hdc => by
      rw [hdc]
      refine ih.imp_right fun ⟨q, f, hq, hqc, hf⟩ => ⟨q, f, hq, hqc.trans hstep, hf⟩
    rcases child_around hd with hin | ⟨hout, -⟩
    · cases hf : c.opens with
      | none => exact hup (by rw [hin, inner, hf]; rfl)
      | some f => exact .inr ⟨c, f, hc, hstep, hf, by rw [hin, inner, hf]; rfl⟩
    · exact hup hout

/-- Every enclosure around a place is that of a place around it. -/
theorem Contains.enclosed {root : Place} (hroot : root.around = []) (h : root.Contains p)
    {f : Enclosure} (hf : f ∈ p.around) : ∃ q, root.Contains q ∧ q.Contains p ∧ q.opens = some f ∧
      f :: q.around <:+ p.around := by
  generalize hfs : p.around = fs at hf
  induction fs generalizing p with
  | nil => cases hf
  | cons g fs ih =>
    rcases h.enclosing hroot with hnil | ⟨q, g', hq, hqp, hg, haround⟩
    · rw [hfs] at hnil
      cases hnil
    · rw [hfs] at haround
      cases haround
      rcases List.mem_cons.1 hf with rfl | hf
      · exact ⟨q, hq, hqp, hg, List.suffix_refl _⟩
      · obtain ⟨r, hr, hrq, hrf, hsuf⟩ := ih hq rfl hf
        exact ⟨r, hr, hrq.trans hqp, hrf, hsuf.trans (List.suffix_cons _ _)⟩

end Place

end FlatScope
