import FlatScope.Proofs.Isolation
import FlatScope.Proofs.Residence.Headers
import FlatScope.Proofs.Traversal

/-!
# What closures use

A function is *settled* if its names are resolved and no function in the header of a `for` that
counts uses the binding of the header (`FunctionDef.Settled`). What a function inside of a settled
one uses from outside of itself is captured (`Settled.captured`), so nothing closes over what lives
in no wrapper (`Settled.not_closes`).
-/

namespace FlatScope

open Node Resolve Place

namespace Scoping

variable {a : Scoping} {b : BindingId} {ns ms : List (Node Mark)}

/-- What is used among some nodes is used among more. -/
theorem UsedIn.mono (h : a.UsedIn b ns) (hs : ∀ y ∈ ns, y ∈ ms) : a.UsedIn b ms :=
  h.imp (·.mono hs) fun ⟨m, n, hm, hb⟩ => ⟨m, n, hs _ hm, hb⟩

/-- What functions among some nodes use, functions among more of them do. -/
theorem ClosesOver.mono (h : a.ClosesOver ns b) (hs : ∀ y ∈ ns, y ∈ ms) : a.ClosesOver ms b := by
  obtain ⟨m, ps, c, hm, hc⟩ := h
  exact ⟨m, ps, c, hs _ hm, hc⟩

/-- What a function among statements uses is used among these. -/
theorem ClosesOver.usedIn {ss : List (Stmt Mark)} (h : a.ClosesOver (Stmt.nodesOfList ss) b) :
    a.UsedIn b (Stmt.nodesOfList ss) := by
  obtain ⟨m, ps, c, hm, hu⟩ := h
  refine hu.mono fun y hy => ?_
  rw [Stmt.nodesOfList_eq] at hm ⊢
  obtain ⟨x, hx, hmx⟩ := List.mem_flatMap.1 hm
  exact List.mem_flatMap.2 ⟨x, hx, (Node.nodes_sublist hmx).subset (List.mem_cons_of_mem _ hy)⟩

/-- A reference to a binding is made at a node below the one that uses the binding. -/
theorem UsedIn.reference {x : Node Mark} (h : a.UsedIn b x.nodes) :
    ∃ r ∈ a.references, r.binding = some b ∧ r.node ∈ Node.ids x.nodes := by
  obtain ⟨i, hi, hb⟩ : ∃ i ∈ Node.ids x.nodes, (a.referenceAt? i).bind (·.binding) = some b := by
    rcases h with ⟨y, hy, i, ht, hb⟩ | ⟨m, n, hm, hb⟩
    · exact ⟨i, target_mem hy ht, hb⟩
    · exact ⟨m.id, List.mem_map_of_mem (f := fun x => x.mark.id) hm, hb⟩
  obtain ⟨r, hr, hb⟩ := Option.bind_eq_some_iff.1 hb
  have hnode : r.node = i := by simpa using List.find?_some hr
  exact ⟨r, List.mem_of_find?_eq_some hr, hb, hnode ▸ hi⟩

end Scoping

/-- Every number of a place is that of a place in it. -/
theorem Place.exists_of_mem_ids {p : Place} {i : NodeId} (h : i ∈ p.ids) :
    ∃ q, p.Contains q ∧ q.node.mark.id = i := by
  induction hx : p.node using Node.children_induction generalizing p with
  | h x ih =>
    subst hx
    rw [ids_eq] at h
    rcases List.mem_cons.1 h with rfl | h
    · exact ⟨p, .refl p, rfl⟩
    · obtain ⟨c, hc, hi⟩ := List.mem_flatMap.1 h
      obtain ⟨q, hq, hqi⟩ := ih c.node (p.children_node ▸ List.mem_map_of_mem hc) hi rfl
      exact ⟨q, .child hc hq, hqi⟩

/-- A function whose names are resolved, none of whose functions in the header of a `for` that
    counts uses the binding of the header. -/
structure FunctionDef.Settled (fn : FunctionDef Mark) (globals : List Name) (a : Analysis) :
    Prop where
  analysed : fn.Analysed globals a
  records : a.scoping.Records globals fn.acts
  closed : fn.ClosedHeaders a.scoping

namespace FunctionDef.Settled

variable {fn : FunctionDef Mark} {globals : List Name} {a : Analysis} {d : Binding}

/-- What a function uses from a scope around it is captured. -/
theorem captured (h : fn.Settled globals a) (hd : d ∈ a.scoping.bindings) {m : Mark}
    {ps : List Name} {c : Block Mark} (hx : .expr (.function m ps c) ∈ fn.nodes)
    (hlt : d.scope < m.id) (hu : a.scoping.UsedIn d.id c.nodes) : a.scoping.isCaptured d.id := by
  have hn : (ofFunction fn).ids.Nodup := h.analysed.nodup
  -- the place of the function
  obtain ⟨p, hp, hpm⟩ := Place.exists_of_mem_ids (p := ofFunction fn)
    (List.mem_map_of_mem (f := fun x => x.mark.id) hx)
  obtain hnode := node_unique hn (hp.mem_nodes rfl) hx hpm
  -- the place of the use, which is inside of the function
  obtain ⟨r, hr, hrb, hrc⟩ := Scoping.UsedIn.reference (x := .block c) hu
  obtain ⟨u, hu, -, hub, hur⟩ := h.records.uses_of_reference hd hr hrb
  obtain ⟨q, hpq, hq⟩ := Place.exists_of_mem_ids (p := p) (i := r.node) (by
    rw [Place.ids, hnode]
    exact List.mem_cons_of_mem _ hrc)
  obtain rfl := Place.eq_of_id hn hu (hp.trans hpq) (hur.trans hq.symm)
  have hne : u ≠ p := by
    rintro rfl
    obtain ⟨⟨w, huse⟩, -⟩ := hub
    simp [use?, hnode] at huse
  have hin := hpq.around_inner (by simp [hnode]) hne
  rw [Place.inner, (hp.proper (proper_under _ _)).function hnode] at hin
  obtain ⟨g, hg, hgd⟩ := Option.map_eq_some_iff.1 hub.2
  have hmem : m.id ∈ a.scoping.capturersOf d.id := (h.records.mem_capturersOf_around hd).2
    ⟨u, hu, hub, hgd ▸ List.mem_map_of_mem (List.mem_of_find?_eq_some hg), _,
      hin.subset List.mem_cons_self, rfl, rfl, hlt⟩
  simpa [Scoping.isCaptured] using List.ne_nil_of_mem hmem

/-- No function closes over what is not captured. -/
theorem not_closes (h : fn.Settled globals a) (hd : d ∈ a.scoping.bindings)
    (hc : a.scoping.isCaptured d.id = false) {ns : List (Node Mark)}
    (hns : ∀ y ∈ ns, y ∈ fn.nodes ∧ d.scope < y.mark.id) : ¬ a.scoping.ClosesOver ns d.id := by
  rintro ⟨m, ps, c, hx, hu⟩
  obtain ⟨hx, hlt⟩ := hns _ hx
  rw [h.captured hd hx hlt hu] at hc
  cases hc

end FunctionDef.Settled

end FlatScope
