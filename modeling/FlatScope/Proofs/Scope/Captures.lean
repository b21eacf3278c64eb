import FlatScope.Proofs.Scope.Tree
import FlatScope.Scope.Usage

/-!
# Captures

The scopes around a scope are the enclosures around every place in it (`Scoping.Records.chain_eq`),
and what a name means there is the binding of the innermost one that declares it
(`Scoping.Records.lookup?_scope`). So the captures of a binding, found from the references and the
scopes around them, can be read off the text (`FunctionDef.mem_capturersOf`): a function captures a
binding if it stands inside of the scope of the binding and the binding is used anywhere in it.
-/

namespace FlatScope

open Node Resolve Place

namespace Scoping

namespace Records

variable {fn : FunctionDef Mark} {globals : List Name} {a : Scoping} {q : Place} {sc : ScopeId}

/-- The innermost scope around a place, and the place that it is the scope of. -/
theorem enclosing (h : a.Records globals fn.acts) (hq : (ofFunction fn).Contains q) :
    q.around = [] ∨ ∃ p f s, (ofFunction fn).Contains p ∧ s ∈ a.scopes ∧ f.Is p.scope? s ∧
      q.around = f :: p.around := by
  refine (hq.enclosing rfl).imp_right fun ⟨p, f, hp, hpq, hf, haround⟩ => ?_
  obtain ⟨s, hs, hfs⟩ := h.opened f p.scope? (FunctionDef.opens_mem_acts.2 ⟨p, hp, hf, rfl⟩)
  exact ⟨p, f, s, hp, hs, hfs, haround⟩

/-- Induction over the enclosures around places, from the function inwards. -/
theorem around_induction (h : a.Records globals fn.acts) {P : Place → Prop}
    (outer : ∀ q, q.around = [] → P q)
    (inner : ∀ q p f s, (ofFunction fn).Contains p → s ∈ a.scopes → f.Is p.scope? s →
      q.around = f :: p.around → P p → P q) :
    ∀ q, (ofFunction fn).Contains q → P q := by
  intro q hq
  generalize hfs : q.around = fs
  induction fs generalizing q with
  | nil => exact outer q hfs
  | cons f fs ih =>
    rcases h.enclosing hq with hnil | ⟨p, g, s, hp, hs, hgs, haround⟩
    · rw [hfs] at hnil
      cases hnil
    · have heq := hfs.symm.trans haround
      exact inner q p g s hp hs hgs haround (ih p hp (List.cons.inj heq).2.symm)

/-- The scopes around a place are the enclosures around it. -/
theorem chain_eq (h : a.Records globals fn.acts) (hq : (ofFunction fn).Contains q)
    (hsc : q.scope? = some sc) :
    (a.chain sc).map (fun s => (s.id, s.kind)) = q.around.map fun f => (f.id, f.kind) := by
  refine h.around_induction (P := fun q => ∀ sc, q.scope? = some sc →
    (a.chain sc).map (fun s => (s.id, s.kind)) = q.around.map fun f => (f.id, f.kind))
    (fun q hq sc hsc => by simp [scope?_eq_none_iff.2 hq] at hsc)
    (fun q p f s _ hs hfs haround ih sc hsc => ?_)
    q hq sc hsc
  obtain rfl : s.id = sc := by
    rw [scope?_of_around haround] at hsc
    exact hfs.id.trans (Option.some.inj hsc)
  rw [haround, List.map_cons, ← hfs.id, ← hfs.kind]
  cases hp : p.scope? with
  | none =>
    have hnil : p.around = [] := scope?_eq_none_iff.1 hp
    rw [h.consistent.chain_root hs (hfs.parent.trans hp), hnil]
    rfl
  | some i => rw [h.consistent.chain_inner hs (hfs.parent.trans hp), List.map_cons, ih i hp]

/-- A name means the binding of the innermost enclosure that declares it. -/
theorem lookup?_scope (h : a.Records globals fn.acts) (hq : (ofFunction fn).Contains q)
    (hsc : q.scope? = some sc) (n : Name) :
    (a.lookup? sc n).map (·.scope) = (q.owner? n).map (·.id) := by
  refine h.around_induction (P := fun q => ∀ sc, q.scope? = some sc →
    (a.lookup? sc n).map (·.scope) = (q.owner? n).map (·.id))
    (fun q hq sc hsc => by simp [scope?_eq_none_iff.2 hq] at hsc)
    (fun q p f s _ hs hfs haround ih sc hsc => ?_)
    q hq sc hsc
  obtain rfl : s.id = sc := by
    rw [scope?_of_around haround] at hsc
    exact hfs.id.trans (Option.some.inj hsc)
  rw [h.consistent.lookup?_eq (h.consistent.scope?_of_mem hs), owner?, haround, List.find?_cons]
  by_cases hn : n ∈ f.names
  · obtain ⟨i, hi⟩ := Table.exists_lookup.2 ((hfs.names n).2 hn)
    obtain ⟨b, hb, -, -, hbs⟩ := h.consistent.binding?_of_named hs hi
    simp [hi, hb, hn, hbs, hfs.id]
  · have hnone : s.names.lookup n = none := Table.lookup_eq_none.2 fun hmem => hn
      ((hfs.names n).1 hmem)
    simp only [hnone, hn, decide_false]
    cases hp : p.scope? with
    | none =>
      have hnil : p.around = [] := scope?_eq_none_iff.1 hp
      simp [hfs.parent, hp, hnil]
    | some i =>
      rw [hfs.parent, hp, Option.bind_some]
      exact ih i hp

/-- The numbers of enclosures get smaller outwards. -/
theorem around_sorted (h : a.Records globals fn.acts) (hq : (ofFunction fn).Contains q) :
    (q.around.map (·.id)).Pairwise (· > ·) := by
  refine h.around_induction (P := fun q => (q.around.map (·.id)).Pairwise (· > ·))
    (fun q hq => by simp [hq]) (fun q p f s _ hs hfs haround ih => ?_) q hq
  rw [haround, List.map_cons, List.pairwise_cons]
  refine ⟨fun i hi => ?_, ih⟩
  cases hp : p.around with
  | nil => simp [hp] at hi
  | cons g rest =>
    have hpar : s.parent = some g.id := hfs.parent.trans (scope?_of_around hp)
    have hlt : g.id < f.id := hfs.id ▸ (h.consistent.parent s hs _ hpar).1
    rw [hp, List.map_cons] at hi ih
    rcases List.mem_cons.1 hi with rfl | hi
    · exact hlt
    · exact Nat.lt_trans ((List.pairwise_cons.1 ih).1 i hi) hlt

/-! ## Uses of bindings -/

variable {b : Binding}

/-- A name means a binding where the innermost enclosure that declares it is that of the binding. -/
theorem lookup?_eq_some_iff (h : a.Records globals fn.acts) (hq : (ofFunction fn).Contains q)
    (hsc : q.scope? = some sc) (hb : b ∈ a.bindings) :
    a.lookup? sc b.name = some b ↔ (q.owner? b.name).map (·.id) = some b.scope := by
  rw [← h.lookup?_scope hq hsc]
  refine ⟨fun hl => by rw [hl]; rfl, fun hl => ?_⟩
  obtain ⟨c, hc, hcs⟩ := Option.map_eq_some_iff.1 hl
  obtain ⟨hcm, hcn, -⟩ := h.consistent.of_lookup? hc
  rw [hc, h.consistent.eq_of_name hcm hb hcn hcs]

/-- A reference to a binding is made where the binding is used. -/
theorem uses_of_reference (h : a.Records globals fn.acts) (hb : b ∈ a.bindings) {r : Reference}
    (hr : r ∈ a.references) (hrb : r.binding = some b.id) :
    ∃ u, (ofFunction fn).Contains u ∧ u.scope? = some r.scope ∧ u.Uses b ∧
      u.node.mark.id = r.node := by
  obtain ⟨u, hu, huse, hsc, hmark⟩ := FunctionDef.refers_mem_acts.1 (h.references r hr)
  obtain ⟨c, hc, hcb⟩ := Option.map_eq_some_iff.1 ((h.settled r hr).1.symm.trans hrb)
  obtain ⟨hcm, hcn, -⟩ := h.consistent.of_lookup? hc
  obtain rfl := h.consistent.eq_of_id hcm hb hcb
  rw [← hcn] at hc huse
  exact ⟨u, hu, hsc, ⟨⟨r.isWrite, huse⟩, (h.lookup?_eq_some_iff hu hsc hcm).1 hc⟩,
    congrArg Mark.id hmark⟩

/-- Where a binding is used, a reference to it is made. -/
theorem reference_of_uses (h : a.Records globals fn.acts) (hb : b ∈ a.bindings) {u : Place}
    (hu : (ofFunction fn).Contains u) (hub : u.Uses b) :
    ∃ r ∈ a.references, r.binding = some b.id ∧ u.scope? = some r.scope := by
  obtain ⟨⟨w, huse⟩, howner⟩ := hub
  cases hsc : u.scope? with
  | none => simp [owner?, scope?_eq_none_iff.1 hsc] at howner
  | some sc =>
    obtain ⟨r, hr, hact⟩ := h.uses sc b.name u.node.mark w
      (FunctionDef.refers_mem_acts.2 ⟨u, hu, huse, hsc, rfl⟩)
    obtain ⟨hrsc, hrn, -⟩ : r.scope = sc ∧ r.name = b.name ∧ _ := by
      simp only [Reference.act, Act.refers.injEq] at hact
      exact hact
    refine ⟨r, hr, ?_, by rw [hrsc]⟩
    rw [(h.settled r hr).1, hrsc, hrn, (h.lookup?_eq_some_iff hu hsc hb).2 howner]
    rfl

/-! ## Functions around a use -/

/-- Up to a given one, a list of enclosures whose numbers get smaller has those of larger
    numbers. -/
theorem mem_takeWhile_iff {fs : List Enclosure}
    (hfs : (fs.map (·.id)).Pairwise (· > ·)) {o : ScopeId} (ho : o ∈ fs.map (·.id))
    {f : Enclosure} : f ∈ fs.takeWhile (·.id ≠ o) ↔ f ∈ fs ∧ o < f.id := by
  induction fs with
  | nil => cases ho
  | cons g fs ih =>
    rw [List.map_cons, List.pairwise_cons] at hfs
    by_cases hg : g.id = o
    · rw [List.takeWhile_cons_of_neg (by simpa using hg)]
      refine ⟨nofun, fun ⟨hf, hlt⟩ => ?_⟩
      rcases List.mem_cons.1 hf with rfl | hf
      · exact absurd hg (Nat.ne_of_gt hlt)
      · exact absurd (hfs.1 _ (List.mem_map_of_mem hf)) (Nat.not_lt.2 (hg ▸ Nat.le_of_lt hlt))
    · have ho' : o ∈ fs.map (·.id) := (List.mem_cons.1 ho).resolve_left fun he => hg he.symm
      rw [List.takeWhile_cons_of_pos (by simpa using hg), List.mem_cons, List.mem_cons,
        ih hfs.2 ho', or_and_right]
      exact or_congr_left ⟨fun he => ⟨he, he ▸ hfs.1 _ ho'⟩, And.left⟩

/-- The functions between a place and an enclosure around it. -/
theorem mem_functionsBetween (h : a.Records globals fn.acts) (hq : (ofFunction fn).Contains q)
    (hsc : q.scope? = some sc) {o i : ScopeId} (ho : o ∈ q.around.map (·.id)) :
    i ∈ a.functionsBetween sc o ↔ ∃ f ∈ q.around, f.id = i ∧ f.kind = .function ∧ o < i := by
  have heq : a.functionsBetween sc o =
      ((q.around.takeWhile (·.id ≠ o)).filter (·.kind = .function)).map (·.id) := by
    have hscopes : a.functionsBetween sc o = ((((a.chain sc).map fun s => (s.id, s.kind)).takeWhile
        (·.1 ≠ o)).filter (·.2 = .function)).map (·.1) := by
      simp [functionsBetween, List.takeWhile_map, List.filter_map, Function.comp_def]
    rw [hscopes, h.chain_eq hq hsc]
    simp [List.takeWhile_map, List.filter_map, Function.comp_def]
  rw [heq]
  simp only [List.mem_map, List.mem_filter, decide_eq_true_eq,
    mem_takeWhile_iff (h.around_sorted hq) ho]
  constructor
  · rintro ⟨f, ⟨⟨hf, hlt⟩, hk⟩, rfl⟩
    exact ⟨f, hf, rfl, hk, hlt⟩
  · rintro ⟨f, hf, rfl, hk, hlt⟩
    exact ⟨f, ⟨⟨hf, hlt⟩, hk⟩, rfl⟩

/-- What captures a binding is a function around a use of it, inside of the scope of the binding. -/
theorem mem_capturersOf_around (h : a.Records globals fn.acts) (hb : b ∈ a.bindings) {i : ScopeId} :
    i ∈ a.capturersOf b.id ↔ ∃ u, (ofFunction fn).Contains u ∧ u.Uses b ∧
      b.scope ∈ u.around.map (·.id) ∧ ∃ f ∈ u.around, f.id = i ∧
      f.kind = .function ∧ b.scope < i := by
  have hcap : i ∈ a.capturersOf b.id ↔ ∃ r ∈ a.references, r.binding = some b.id ∧
      i ∈ a.functionsBetween r.scope b.scope := by
    simp [capturersOf, h.consistent.binding?_of_mem hb, List.mem_eraseDups, referencesTo, and_assoc]
  have howner : ∀ {u : Place}, u.Uses b → b.scope ∈ u.around.map (·.id) := fun hu => by
    obtain ⟨g, hg, hgb⟩ := Option.map_eq_some_iff.1 hu.2
    exact List.mem_map.2 ⟨g, List.mem_of_find?_eq_some hg, hgb⟩
  rw [hcap]
  constructor
  · rintro ⟨r, hr, hrb, hi⟩
    obtain ⟨u, hu, husc, hub, -⟩ := h.uses_of_reference hb hr hrb
    exact ⟨u, hu, hub, howner hub, (h.mem_functionsBetween hu husc (howner hub)).1 hi⟩
  · rintro ⟨u, hu, hub, hout, hi⟩
    obtain ⟨r, hr, hrb, husc⟩ := h.reference_of_uses hb hu hub
    exact ⟨r, hr, hrb, (h.mem_functionsBetween hu husc hout).2 hi⟩

/-- What captures a binding is a function inside of its scope in which the binding is used. -/
theorem mem_capturersOf_iff (h : a.Records globals fn.acts) (hb : b ∈ a.bindings) {i : ScopeId} :
    i ∈ a.capturersOf b.id ↔ ∃ p m ps body, (ofFunction fn).Contains p ∧
      p.node = .expr (.function m ps body) ∧ m.id = i ∧ b.scope ∈ p.around.map (·.id) ∧
        ∃ u, p.Contains u ∧ u.Uses b := by
  rw [h.mem_capturersOf_around hb]
  constructor
  · rintro ⟨u, hu, hub, hmem, f, hf, rfl, hk, hlt⟩
    obtain ⟨p, hp, hpu, hpf, l, hl⟩ := hu.enclosed rfl hf
    -- The enclosures further in have larger numbers, so that of the binding is further out.
    have hout : b.scope ∈ p.around.map (·.id) := by
      have hsorted := h.around_sorted hu
      rw [← hl, List.map_append, List.map_cons] at hsorted hmem
      rcases List.mem_append.1 hmem with hmem | hmem
      · have := (List.pairwise_append.1 hsorted).2.2 _ hmem _ List.mem_cons_self
        exact absurd this (Nat.not_lt.2 (Nat.le_of_lt hlt))
      · exact (List.mem_cons.1 hmem).resolve_left (Nat.ne_of_lt hlt)
    have henc := (hp.proper (proper_under _ _)).enclosure? hpf
    have hid := Node.enclosure?_id henc
    obtain ⟨m, ps, body, hnode⟩ | ⟨g, hnode⟩ := Node.enclosure?_function henc hk
    · exact ⟨p, m, ps, body, hp, hnode, by rw [hid, hnode]; rfl, hout, u, hpu, hub⟩
    · rw [hp.eq_of_function hnode] at hout
      cases hout
  · rintro ⟨p, m, ps, body, hp, hnode, rfl, hout, u, hpu, hub⟩
    have hne : u ≠ p := by
      rintro rfl
      obtain ⟨⟨w, huse⟩, -⟩ := hub
      simp [use?, hnode] at huse
    have hopens := (hp.proper (proper_under _ _)).function hnode
    obtain ⟨l, hl⟩ := hpu.around_inner (by simp [hnode]) hne
    rw [Place.inner, hopens, Option.toList_some, List.singleton_append] at hl
    have hsorted := h.around_sorted (hp.trans hpu)
    rw [← hl, List.map_append, List.map_cons] at hsorted
    refine ⟨u, hp.trans hpu, hub, ?_, .ofFunction m ps body,
      hl ▸ List.mem_append_right _ List.mem_cons_self, rfl, rfl,
      (List.pairwise_cons.1 (List.pairwise_append.1 hsorted).2.1).1 _ hout⟩
    rw [← hl, List.map_append]
    exact List.mem_append_right _ (List.mem_cons_of_mem _ hout)

end Records

end Scoping

/-! ## Functions -/

/-- A function captures a binding exactly if it stands inside of the scope of the binding and the
    binding is used in it, however deep. So no function captures its own parameters and variables,
    and nothing but such functions captures anything. -/
theorem FunctionDef.mem_capturersOf (fn : FunctionDef Span) (globals : List Name) (a : Scoping)
    (h : fn.number.resolve globals = .ok a) (b : Binding) (hb : b ∈ a.bindings) :
    (∀ p m ps body, (Place.ofFunction fn.number).Contains p → p.node = .expr (.function m ps body) →
      (m.id ∈ a.capturersOf b.id ↔
        b.scope ∈ p.around.map (·.id) ∧ ∃ u, p.Contains u ∧ u.Uses b)) ∧
    (∀ i ∈ a.capturersOf b.id, i ≠ b.scope ∧ ∃ p m ps body,
      (Place.ofFunction fn.number).Contains p ∧ p.node = .expr (.function m ps body) ∧
      m.id = i) := by
  obtain ⟨hrec, -⟩ := FunctionDef.resolve_records (fn.numberFrom_consecutive 1) h
  have hnodup : (Place.ofFunction fn.number).ids.Nodup := fn.number_nodup
  refine ⟨fun p m ps body hp hnode => ?_, fun i hi => ⟨?_, ?_⟩⟩
  · rw [hrec.mem_capturersOf_iff hb]
    constructor
    · rintro ⟨q, k, ps', body', hq, hqnode, hid, hout, u, hu, hub⟩
      obtain rfl : q = p := Place.eq_of_id hnodup hq hp (by rw [hqnode, hnode]; exact hid)
      exact ⟨hout, u, hu, hub⟩
    · rintro ⟨hout, u, hu, hub⟩
      exact ⟨p, m, ps, body, hp, hnode, rfl, hout, u, hu, hub⟩
  · obtain ⟨u, -, -, -, f, -, rfl, -, hlt⟩ := (hrec.mem_capturersOf_around hb).1 hi
    exact Nat.ne_of_gt hlt
  · obtain ⟨p, m, ps, body, hp, hnode, hid, -⟩ := (hrec.mem_capturersOf_iff hb).1 hi
    exact ⟨p, m, ps, body, hp, hnode, hid⟩

/-- The theorem for the function in `capturingHeader`, which captures the variable of the loop. -/
theorem FunctionDef.mem_capturersOf_capturingHeader : ∃ a b p m ps body,
    capturingHeader.number.resolve ["g"] = .ok a ∧ b ∈ a.bindings ∧ b.name = "i" ∧
      (Place.ofFunction capturingHeader.number).Contains p ∧ p.node = .expr (.function m ps body) ∧
      m.id ∈ a.capturersOf b.id ∧ b.scope ∈ p.around.map (·.id) ∧ ∃ u, p.Contains u ∧ u.Uses b := by
  have hi : (⟨2, "i", .header .letVar, 3, .unknown⟩ : Binding) ∈
      [⟨1, "n", .param, 1, .unknown⟩, (⟨2, "i", .header .letVar, 3, .unknown⟩ : Binding)] :=
    List.mem_cons_of_mem _ List.mem_cons_self
  have hpath : (Place.ofFunction capturingHeader.number).Contains _ :=
    .child List.mem_cons_self
      (.child List.mem_cons_self (.child (List.mem_cons_of_mem _ List.mem_cons_self)
      (.child List.mem_cons_self (.child List.mem_cons_self
        (.child (List.mem_cons_of_mem _ List.mem_cons_self) (.refl _))))))
  have hmem : (19 : ScopeId) ∈ [19] := List.mem_cons_self
  exact ⟨_, _, _, _, _, _, rfl, hi, rfl, hpath, rfl, hmem,
    ((FunctionDef.mem_capturersOf capturingHeader ["g"] _ rfl _ hi).1 _ _ _ _ hpath rfl).1 hmem⟩

end FlatScope
