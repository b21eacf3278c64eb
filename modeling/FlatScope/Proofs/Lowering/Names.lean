import FlatScope.Proofs.Analysis
import FlatScope.Proofs.Naming

/-!
# The names of an analysed function

What the naming of an analysed function comes to. Two bindings with one name are of one name in the
source too, and neither is inlined; so they are told apart by the scopes that they belong to. A
binding of a function keeps its name, and no inlined one is called like something from outside of
the function.
-/

namespace FlatScope

/-- An inlined binding keeps its name only if nothing else is called like it. -/
theorem Analysis.Inlined.alone {a : Analysis} {b : Binding} (hb : b ∈ a.scoping.bindings)
    (hi : a.Inlined b) (hk : Naming.keepsName a b) :
    (∀ c ∈ a.scoping.bindings, c.name = b.name → c = b) ∧ b.name ∉ a.scoping.globalsUsed := by
  have hscope : ((a.scoping.scope? b.scope).any fun s => decide (s.kind = .function)) = false := by
    rw [Bool.eq_false_iff]
    intro hany
    obtain ⟨s, hs, hkind⟩ := Option.any_eq_true .. |>.1 hany
    obtain ⟨hm, hid⟩ := Scoping.mem_of_scope? hs
    exact hi.scope ⟨s, hm, hid, by simpa using hkind⟩
  have hwr : a.wrappedBindings.contains b.id = false := by
    simpa using hi.wrapped
  rw [Naming.keepsName, hscope, hwr] at hk
  simp only [Bool.false_or, Bool.not_eq_true', Bool.or_eq_false_iff, decide_eq_false_iff_not] at hk
  refine ⟨fun c hc hcb => ?_, by simpa using hk.2⟩
  have hmem : ∀ d ∈ a.scoping.bindings, d.name = b.name →
      d ∈ a.scoping.bindings.filter (·.name = b.name) := fun d hd hdb =>
    List.mem_filter.2 ⟨hd, by simpa using hdb⟩
  have hone : (a.scoping.bindings.filter (·.name = b.name)).length ≤ 1 := by
    simpa using hk.1
  obtain ⟨x, hx⟩ := List.length_eq_one_iff.1
    (Nat.le_antisymm hone (List.length_pos_of_mem (hmem b hb rfl)))
  have hcx := hmem c hc hcb
  have hbx := hmem b hb rfl
  rw [hx, List.mem_singleton] at hcx hbx
  rw [hcx, hbx]

namespace FunctionDef.Analysed

variable {fn : FunctionDef Mark} {globals : List Name} {a : Analysis}

theorem binding_ids_nodup (h : fn.Analysed globals a) :
    (a.scoping.bindings.map (·.id)).Nodup := by
  rw [h.consistent.numbered]
  exact List.nodup_range'

/-- A binding is known by its number. -/
theorem eq_of_id (h : fn.Analysed globals a) {b c : Binding} (hb : b ∈ a.scoping.bindings)
    (hc : c ∈ a.scoping.bindings) (he : b.id = c.id) : b = c :=
  h.consistent.eq_of_id hb hc he

/-- A binding that lives inside of a wrapper belongs to no function. -/
theorem not_function_of_wrapped (h : fn.Analysed globals a) {d : Binding}
    (hd : d ∈ a.scoping.bindings) (hw : d.id ∈ a.wrappedBindings) :
    ¬ a.scoping.HasScope d.scope .function := by
  intro hf
  rcases h.of_wrapped hd hw with ⟨_, _, _, _, hblock, _⟩ | ⟨_, _, _, l, _, _, hl, _, hb | ⟨hh, _⟩⟩
  · exact absurd (h.consistent.kind_unique hf hblock) (by decide)
  · exact absurd (h.consistent.kind_unique hf (h.consistent.bodies l hl _ hb)) (by decide)
  · exact absurd (h.consistent.kind_unique hf (h.consistent.headers l hl _ hh).2) (by decide)

/-- The bindings of a wrapper are those of the function, and no local one is a parameter. -/
theorem sorted (h : fn.Analysed globals a) {w : Wrapper} (hw : w ∈ a.wrappers) :
    Naming.Sorted a.scoping.bindings w := by
  rw [h.wrappers] at hw
  obtain ⟨x, -, hxw⟩ := List.mem_filterMap.1 hw
  have hown : ∀ {i id}, i ∈ a.scoping.bindingIdsOf id → ∃ b ∈ a.scoping.bindings, b.id = i :=
    fun hi => by
      obtain ⟨b, hb, hbi, -⟩ := h.consistent.mem_bindingIdsOf.1 hi
      exact ⟨b, hb, hbi⟩
  cases x with
  | block b =>
    rw [Scoping.wrapper?, Scoping.blockWrapper?] at hxw
    split at hxw
    · cases hxw
    · split at hxw
      · cases hxw
      · cases hxw
        exact ⟨fun i hi => hown (by simpa using hi), by simp⟩
  | stmt s =>
    cases s with
    | loop m hd b =>
      rw [Scoping.wrapper?, Scoping.loopWrapper?] at hxw
      split at hxw
      · cases hxw
      · rename_i l hl
        have hlm := List.mem_of_find?_eq_some hl
        split at hxw
        · cases hxw
        · cases hxw
          refine ⟨fun i hi => ?_, fun i hi hj => ?_⟩
          · rcases List.mem_append.1 hi with hi | hi
            · cases hb : l.body with
              | none => simp [hb] at hi
              | some k => exact hown (by simpa [hb] using hi)
            · cases hh : l.header with
              | none => simp [hh] at hi
              | some k =>
                have := (List.mem_filter.1 hi).1
                exact hown (by simpa [hh] using this)
          · cases hb : l.body with
            | none => simp [hb] at hi
            | some k =>
              cases hh : l.header with
              | none => simp [hh] at hj
              | some k' =>
                have hj' := (List.mem_filter.1 hj).1
                -- a binding of the body is none of the header: the two scopes are of different
                -- kinds
                obtain ⟨b, hbm, hbi, hbs⟩ :=
                  h.consistent.mem_bindingIdsOf.1 (by simpa [hb] using hi : i ∈ _)
                obtain ⟨c, hcm, hci, hcs⟩ :=
                  h.consistent.mem_bindingIdsOf.1 (by simpa [hh] using hj' : i ∈ _)
                cases h.eq_of_id hbm hcm (hbi.trans hci.symm)
                have hblock := h.consistent.bodies l hlm _ hb
                have hloop := (h.consistent.headers l hlm _ hh).2
                rw [← hbs, hcs] at hblock
                exact absurd (h.consistent.kind_unique hblock hloop) (by decide)
    | _ => cases hxw
  | _ => cases hxw

theorem apart (h : fn.Analysed globals a) :
    (Naming.ofAnalysis a).Apart a a.scoping.bindings :=
  (Naming.ofAnalysis_separates h.binding_ids_nodup fun _ => h.sorted).1

/-- The bindings declared inside of a wrapper are told from its parameters. -/
theorem separated (h : fn.Analysed globals a) {w : Wrapper} (hw : w ∈ a.wrappers) {i j : BindingId}
    (hi : i ∈ w.locals) (hj : j ∈ w.params) :
    (Naming.ofAnalysis a).nameOf i ≠ (Naming.ofAnalysis a).nameOf j :=
  (Naming.ofAnalysis_separates h.binding_ids_nodup fun _ => h.sorted).2.1 w hw i hi j hj

/-- Parameters and whatever else belongs to a function keep their names. -/
theorem name_of_function (h : fn.Analysed globals a) {b : Binding} (hb : b ∈ a.scoping.bindings)
    (hf : a.scoping.HasScope b.scope .function) : (Naming.ofAnalysis a).nameOf b.id = b.name := by
  have hk : Naming.keepsName a b := by
    obtain ⟨s, hs, hid, hkind⟩ := hf
    have hsc := h.consistent.scope?_of_mem hs
    rw [hid] at hsc
    simp [Naming.keepsName, hsc, hkind]
  refine (Naming.ofAnalysis_separates h.binding_ids_nodup fun _ => h.sorted).2.2 b hb hk
    fun w hw hin => h.not_function_of_wrapped hb ?_ hf
  exact List.mem_flatMap.2 ⟨w, hw, List.mem_append_left _ hin⟩

/-- Two bindings of one name are of one name in the source, and neither is inlined. -/
theorem name_eq (h : fn.Analysed globals a) {b c : Binding} (hb : b ∈ a.scoping.bindings)
    (hc : c ∈ a.scoping.bindings)
    (he : (Naming.ofAnalysis a).nameOf b.id = (Naming.ofAnalysis a).nameOf c.id) :
    b = c ∨ b.name = c.name ∧ ¬ a.Inlined b ∧ ¬ a.Inlined c := by
  rcases h.apart.name_eq hb hc he with hid | ⟨⟨hkb, hnb⟩, hkc, hnc⟩
  · exact .inl (h.eq_of_id hb hc hid)
  · have hname : b.name = c.name := by rw [← hnb, ← hnc, he]
    by_cases hbc : b = c
    · exact .inl hbc
    · refine .inr ⟨hname, fun hi => ?_, fun hi => ?_⟩
      · exact hbc ((hi.alone hb hkb).1 c hc hname.symm).symm
      · exact hbc ((hi.alone hc hkc).1 b hb hname)

/-- A binding that is called like something from outside of the function keeps its name and is not
    inlined. -/
theorem name_global (h : fn.Analysed globals a) {b : Binding} (hb : b ∈ a.scoping.bindings)
    (hg : (Naming.ofAnalysis a).nameOf b.id ∈ a.scoping.globalsUsed) :
    (Naming.ofAnalysis a).nameOf b.id = b.name ∧ ¬ a.Inlined b := by
  obtain ⟨hk, hn⟩ := h.apart.global_eq hb hg
  exact ⟨hn, fun hi => (hi.alone hb hk).2 (hn ▸ hg)⟩

end FunctionDef.Analysed

end FlatScope
