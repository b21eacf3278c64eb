import FlatScope.Naming
import FlatScope.Proofs.Scope.Chain

/-!
# The names of the lowered bindings are told apart

A fresh name is none of those that are taken (`NameSupply.fresh_not_mem`), since different numbers
have different digits and there is one number more to try than there are taken names.

So a naming keeps the names of some bindings and gives every other one a name of its own
(`Naming.Apart`): two bindings are called alike only if both keep the same name
(`Naming.Apart.name_eq`). The bindings declared inside of a wrapper are also told from its
parameters (`Naming.ofAnalysis_separates`).
-/

namespace FlatScope

/-! ## Fresh names -/

/-- Different numbers have different digits. -/
theorem Text.ofNat_injective : Function.Injective Text.ofNat := by
  intro n m h
  have hchars : Nat.toDigits 10 n = Nat.toDigits 10 m :=
    (List.map_inj_right fun c d hcd => Char.toNat_inj.1 hcd).1 h
  rw [← Nat.ofDigitChars_ten_toDigits (n := n), hchars, Nat.ofDigitChars_ten_toDigits]

namespace NameSupply

theorem numbered_injective (stem : Name) : Function.Injective (numbered stem) :=
  fun _ _ h => Text.ofNat_injective (List.append_cancel_left h)

/-- Of more numbers than there are taken names one is free. -/
theorem exists_free (taken : List Name) (stem : Name) (ns : List Nat) (hns : ns.Nodup)
    (hlen : taken.length < ns.length) : ∃ n ∈ ns, numbered stem n ∉ taken := by
  refine Decidable.byContradiction fun hall => ?_
  have hsub : ns.map (numbered stem) ⊆ taken := by
    intro x hx
    obtain ⟨n, hn, rfl⟩ := List.mem_map.1 hx
    exact Decidable.byContradiction fun hfree => hall ⟨n, hn, hfree⟩
  have hnd : (ns.map (numbered stem)).Nodup :=
    List.pairwise_map.2 (hns.imp fun hne he => hne (numbered_injective stem he))
  have hle := hnd.length_le_of_subset hsub
  rw [List.length_map] at hle
  omega

/-- A fresh name is not taken. -/
theorem fresh_not_mem (s : NameSupply) (stem : Name) : (s.fresh stem).1 ∉ s.taken := by
  obtain ⟨n, hn, hfree⟩ := exists_free s.taken stem (List.range' (s.count + 1) (s.taken.length + 1))
    List.nodup_range' (by simp)
  have hsome : ((List.range' (s.count + 1) (s.taken.length + 1)).find? fun n =>
      !s.taken.contains (numbered stem n)).isSome := by
    rw [List.find?_isSome]
    exact ⟨n, hn, by simpa using hfree⟩
  obtain ⟨k, hk⟩ := Option.isSome_iff_exists.1 hsome
  have hfree := List.find?_some hk
  rw [fresh, nextNumber, hk]
  simpa using hfree

end NameSupply

namespace Naming

variable {a : Analysis} {n : Naming} {bs : List Binding}

/-- The names that are in use before anything is named. -/
def used (a : Analysis) : List Name := a.scoping.bindings.map (·.name) ++ a.scoping.globalsUsed

/-- The given bindings are named: each keeps its name, if it may, or has one that is in use nowhere
    else. -/
structure Apart (a : Analysis) (bs : List Binding) (n : Naming) : Prop where
  keys : n.names.map (·.1) = bs.map (·.id)
  used : ∀ x ∈ used a, x ∈ n.supply.taken
  taken : ∀ b ∈ bs, n.nameOf b.id ∈ n.supply.taken
  kept : ∀ b ∈ bs, keepsName a b ∧ n.nameOf b.id = b.name ∨
    n.nameOf b.id ∉ Naming.used a ∧ ∀ c ∈ bs, n.nameOf c.id = n.nameOf b.id → c.id = b.id

namespace Apart

/-- Two bindings are called alike only if both keep their names. -/
theorem name_eq (h : n.Apart a bs) {b c : Binding} (hb : b ∈ bs) (hc : c ∈ bs)
    (he : n.nameOf b.id = n.nameOf c.id) : b.id = c.id ∨
      (keepsName a b ∧ n.nameOf b.id = b.name) ∧ (keepsName a c ∧ n.nameOf c.id = c.name) := by
  rcases h.kept b hb with hkb | ⟨-, hub⟩
  · rcases h.kept c hc with hkc | ⟨-, huc⟩
    · exact .inr ⟨hkb, hkc⟩
    · exact .inl (huc b hb he)
  · exact .inl (hub c hc he.symm).symm

/-- A binding that is called like something from outside of the function keeps that name. -/
theorem global_eq (h : n.Apart a bs) {b : Binding} (hb : b ∈ bs)
    (hg : n.nameOf b.id ∈ a.scoping.globalsUsed) : keepsName a b ∧ n.nameOf b.id = b.name := by
  rcases h.kept b hb with hk | ⟨hu, -⟩
  · exact hk
  · exact absurd (List.mem_append_right _ hg) hu

end Apart

/-! ## Naming the bindings one by one -/

theorem nameOf_append_left {l k : List (BindingId × Name)} {s : NameSupply} {i : BindingId}
    (hi : i ∈ l.map (·.1)) : nameOf ⟨l ++ k, s⟩ i = nameOf ⟨l, s⟩ i := by
  obtain ⟨x, hx⟩ := Table.exists_lookup.2 hi
  simp [nameOf, Table.lookup_append_of_some hx, hx]

theorem nameOf_append_right {l : List (BindingId × Name)} {s : NameSupply} {i : BindingId}
    {x : Name} (hi : i ∉ l.map (·.1)) : nameOf ⟨l ++ [(i, x)], s⟩ i = x := by
  simp [nameOf, Table.lookup_append_of_none (Table.lookup_eq_none.2 hi)]

/-- Naming one more binding. -/
theorem Apart.add (h : n.Apart a bs) {b : Binding} (hb : b.id ∉ bs.map (·.id))
    (hm : b ∈ a.scoping.bindings) : (add a n b).Apart a (bs ++ [b]) := by
  have hkey : b.id ∉ n.names.map (·.1) := h.keys ▸ hb
  have hold : ∀ c ∈ bs, c.id ∈ n.names.map (·.1) := fun c hc => by
    rw [h.keys]
    exact List.mem_map_of_mem hc
  unfold Naming.add
  split
  · -- the binding keeps its name, so no other one of that name does
    rename_i hk
    have hc : ∀ c ∈ bs, nameOf ⟨n.names ++ [(b.id, b.name)], n.supply⟩ c.id = n.nameOf c.id :=
      fun c hc => nameOf_append_left (hold c hc)
    have hbn : nameOf ⟨n.names ++ [(b.id, b.name)], n.supply⟩ b.id = b.name :=
      nameOf_append_right hkey
    have hused : b.name ∈ Naming.used a := List.mem_append_left _ (List.mem_map_of_mem hm)
    refine ⟨by simp [h.keys], h.used, ?_, ?_⟩
    · intro c hmem
      rcases List.mem_append.1 hmem with hcm | hcm
      · rw [hc c hcm]
        exact h.taken c hcm
      · obtain rfl := List.mem_singleton.1 hcm
        rw [hbn]
        exact h.used _ hused
    · intro c hmem
      rcases List.mem_append.1 hmem with hcm | hcm
      · rw [hc c hcm]
        rcases h.kept c hcm with hkept | ⟨hu, huniq⟩
        · exact .inl hkept
        · refine .inr ⟨hu, fun d hd he => ?_⟩
          rcases List.mem_append.1 hd with hdm | hdm
          · exact huniq d hdm (hc d hdm ▸ he)
          · obtain rfl := List.mem_singleton.1 hdm
            rw [hbn] at he
            exact absurd (he ▸ hused) hu
      · obtain rfl := List.mem_singleton.1 hcm
        exact .inl ⟨hk, hbn⟩
  · -- the binding gets a name that nothing of the source has taken
    have hfresh := n.supply.fresh_not_mem (stem b.name)
    generalize hx : n.supply.fresh (stem b.name) = x at hfresh
    have htaken : x.2.taken = x.1 :: n.supply.taken := by rw [← hx]; rfl
    have hc : ∀ c ∈ bs, nameOf ⟨n.names ++ [(b.id, x.1)], x.2⟩ c.id = n.nameOf c.id :=
      fun c hc => nameOf_append_left (hold c hc)
    have hbn : nameOf ⟨n.names ++ [(b.id, x.1)], x.2⟩ b.id = x.1 := nameOf_append_right hkey
    refine ⟨by simp [h.keys], fun y hy => ?_, ?_, ?_⟩
    · simp only [htaken]
      exact List.mem_cons_of_mem _ (h.used y hy)
    · intro c hmem
      simp only [htaken]
      rcases List.mem_append.1 hmem with hcm | hcm
      · rw [hc c hcm]
        exact List.mem_cons_of_mem _ (h.taken c hcm)
      · obtain rfl := List.mem_singleton.1 hcm
        rw [hbn]
        exact List.mem_cons_self
    · intro c hmem
      rcases List.mem_append.1 hmem with hcm | hcm
      · rw [hc c hcm]
        rcases h.kept c hcm with hkept | ⟨hu, huniq⟩
        · exact .inl hkept
        · refine .inr ⟨hu, fun d hd he => ?_⟩
          rcases List.mem_append.1 hd with hdm | hdm
          · exact huniq d hdm (hc d hdm ▸ he)
          · obtain rfl := List.mem_singleton.1 hdm
            rw [hbn] at he
            exact absurd (he ▸ h.taken c hcm) hfresh
      · obtain rfl := List.mem_singleton.1 hcm
        refine .inr ⟨fun hu => hfresh (hbn ▸ h.used _ hu), fun d hd he => ?_⟩
        rcases List.mem_append.1 hd with hdm | hdm
        · rw [hbn, hc d hdm] at he
          exact absurd (he ▸ h.taken d hdm) hfresh
        · rw [List.mem_singleton.1 hdm]

/-- Naming further bindings. -/
theorem Apart.addAll {l : List Binding} : ∀ {n : Naming} {bs : List Binding}, n.Apart a bs →
    ((bs ++ l).map (·.id)).Nodup → (∀ c ∈ l, c ∈ a.scoping.bindings) →
      (l.foldl (Naming.add a) n).Apart a (bs ++ l) := by
  induction l with
  | nil =>
    intro n bs h _ _
    simpa using h
  | cons c l ih =>
    intro n bs h hnd hm
    rw [List.append_cons] at hnd ⊢
    refine ih (h.add (fun hin => ?_) (hm c List.mem_cons_self)) hnd
      (fun d hd => hm d (List.mem_cons_of_mem _ hd))
    rw [List.map_append, List.map_append, List.nodup_append, List.nodup_append] at hnd
    exact hnd.1.2.2 _ hin _ (by simp) rfl

/-- The bindings that may keep their names do. -/
theorem nameOf_addAll {l : List Binding} : ∀ {n : Naming} {bs : List Binding}, n.Apart a bs →
    ((bs ++ l).map (·.id)).Nodup → (∀ c ∈ l, c ∈ a.scoping.bindings) →
    (∀ b ∈ bs, keepsName a b → n.nameOf b.id = b.name) →
      ∀ b ∈ bs ++ l, keepsName a b → (l.foldl (Naming.add a) n).nameOf b.id = b.name := by
  induction l with
  | nil =>
    intro n bs _ _ _ hk
    simpa using hk
  | cons c l ih =>
    intro n bs h hnd hm hk
    rw [List.append_cons] at hnd ⊢
    have hc : c.id ∉ bs.map (·.id) := fun hin => by
      rw [List.map_append, List.map_append, List.nodup_append, List.nodup_append] at hnd
      exact hnd.1.2.2 _ hin _ (by simp) rfl
    refine ih (h.add hc (hm c List.mem_cons_self)) hnd
      (fun d hd => hm d (List.mem_cons_of_mem _ hd)) fun b hb hkb => ?_
    unfold Naming.add
    rcases List.mem_append.1 hb with hb | hb
    · have hin : b.id ∈ n.names.map (·.1) := by
        rw [h.keys]
        exact List.mem_map_of_mem hb
      rw [← hk b hb hkb]
      split <;> exact nameOf_append_left hin
    · obtain rfl := List.mem_singleton.1 hb
      rw [if_pos hkb]
      exact nameOf_append_right (h.keys ▸ hc)

/-! ## Avoiding the names of parameters -/

/-- Renaming one binding of a table. -/
theorem nameOf_rename {l : List (BindingId × Name)} {s s' : NameSupply} {b : BindingId} {x : Name}
    (i : BindingId) : nameOf ⟨l.map fun (c, old) => if c = b then (c, x) else (c, old), s⟩ i =
      if i = b ∧ b ∈ l.map (·.1) then x else nameOf ⟨l, s'⟩ i := by
  induction l with
  | nil => simp [nameOf]
  | cons y l ih =>
    obtain ⟨c, old⟩ := y
    simp only [nameOf, List.map_cons, List.mem_cons] at ih ⊢
    by_cases hcb : c = b
    · subst hcb
      by_cases hic : i = c
      · simp [hic]
      · simp only [if_true, List.lookup_cons, beq_eq_false_iff_ne.2 hic, hic, false_and, if_false]
        simpa [hic] using ih
    · by_cases hic : i = c
      · subst hic
        simp [hcb]
      · have hbc : b ≠ c := fun he => hcb he.symm
        simp only [hcb, if_false, List.lookup_cons, beq_eq_false_iff_ne.2 hic, hbc, false_or]
        exact ih

/-- What `avoid` does to the names. -/
theorem avoid_cases (names : List Name) (n : Naming) (b : BindingId) :
    n.nameOf b ∉ names ∧ avoid names n b = n ∨
    ∃ x, x ∉ n.supply.taken ∧ n.nameOf b ∈ names ∧
      (avoid names n b).supply.taken = x :: n.supply.taken ∧
      (avoid names n b).names.map (·.1) = n.names.map (·.1) ∧
      ∀ i, (avoid names n b).nameOf i =
        if i = b ∧ b ∈ n.names.map (·.1) then x else n.nameOf i := by
  unfold avoid
  split
  · rename_i hc
    refine .inr ⟨(n.supply.fresh (stem (n.nameOf b))).1,
      NameSupply.fresh_not_mem _ _, by simpa using hc, rfl, ?_, fun i => nameOf_rename i⟩
    simp only [List.map_map]
    refine List.map_congr_left fun y _ => ?_
    simp only [Function.comp]
    split <;> rfl
  · rename_i hc
    exact .inl ⟨by simpa using hc, rfl⟩

/-- What stays true of a naming when bindings are given other names: it tells the bindings apart,
    and no two names become alike. -/
structure Refines (a : Analysis) (bs : List Binding) (n n' : Naming) : Prop where
  apart : n'.Apart a bs
  ne : ∀ b ∈ bs, ∀ c ∈ bs, n.nameOf b.id ≠ n.nameOf c.id → n'.nameOf b.id ≠ n'.nameOf c.id
  taken : ∀ x ∈ n.supply.taken, x ∈ n'.supply.taken

theorem Refines.refl (h : n.Apart a bs) : Refines a bs n n := ⟨h, fun _ _ _ _ h => h, fun _ h => h⟩

theorem Refines.trans {n₁ n₂ n₃ : Naming} (h : Refines a bs n₁ n₂) (h' : Refines a bs n₂ n₃) :
    Refines a bs n₁ n₃ where
  apart := h'.apart
  ne b hb c hc hne := h'.ne b hb c hc (h.ne b hb c hc hne)
  taken x hx := h'.taken x (h.taken x hx)

theorem Apart.avoid (h : n.Apart a bs) (names : List Name) {b : Binding} (hb : b ∈ bs) :
    Refines a bs n (avoid names n b.id) := by
  rcases avoid_cases names n b.id with ⟨-, he⟩ | ⟨x, hx, -, htaken, hkeys, hname⟩
  · rw [he]
    exact .refl h
  · have hin : b.id ∈ n.names.map (·.1) := by
      rw [h.keys]
      exact List.mem_map_of_mem hb
    have hself : (Naming.avoid names n b.id).nameOf b.id = x := by
      rw [hname, if_pos ⟨rfl, hin⟩]
    have hother : ∀ {i}, i ≠ b.id → (Naming.avoid names n b.id).nameOf i = n.nameOf
      i := fun hi => by
      rw [hname, if_neg (fun hc => hi hc.1)]
    -- the new name was not taken, so it is no name of another binding
    have hxne : ∀ c ∈ bs, x ≠ n.nameOf c.id := fun c hc he => hx (he ▸ h.taken c hc)
    refine ⟨⟨hkeys.trans h.keys, fun y hy => ?_, fun c hc => ?_, fun c hc => ?_⟩, ?_,
      fun y hy => ?_⟩
    · rw [htaken]
      exact List.mem_cons_of_mem _ (h.used y hy)
    · rw [htaken]
      by_cases hcb : c.id = b.id
      · rw [hcb, hself]
        exact List.mem_cons_self
      · rw [hother hcb]
        exact List.mem_cons_of_mem _ (h.taken c hc)
    · by_cases hcb : c.id = b.id
      · rw [hcb, hself]
        refine .inr ⟨fun hu => hx (h.used x hu), fun d hd he => ?_⟩
        refine Decidable.byContradiction fun hdb => ?_
        rw [hother hdb] at he
        exact hxne d hd he.symm
      · rw [hother hcb]
        rcases h.kept c hc with hk | ⟨hu, huniq⟩
        · exact .inl hk
        · refine .inr ⟨hu, fun d hd he => ?_⟩
          by_cases hdb : d.id = b.id
          · rw [hdb, hself] at he
            exact absurd he (hxne c hc)
          · exact huniq d hd (hother hdb ▸ he)
    · intro c hc d hd hne
      by_cases hcb : c.id = b.id
      · by_cases hdb : d.id = b.id
        · exact absurd (by rw [hcb, hdb]) hne
        · rw [hcb, hself, hother hdb]
          exact hxne d hd
      · by_cases hdb : d.id = b.id
        · rw [hdb, hself, hother hcb]
          exact (hxne c hc).symm
        · rw [hother hcb, hother hdb]
          exact hne
    · rw [htaken]
      exact List.mem_cons_of_mem _ hy

/-- A binding that avoids some names has none of them afterwards, and others keep what they have. -/
theorem avoid_not_mem {names : List Name} (h : n.Apart a bs)
    (hnames : ∀ x ∈ names, x ∈ n.supply.taken) {b : Binding} (hb : b ∈ bs) :
    (avoid names n b.id).nameOf b.id ∉ names ∧
      ∀ i, i ≠ b.id → (avoid names n b.id).nameOf i = n.nameOf i := by
  rcases avoid_cases names n b.id with ⟨hn, he⟩ | ⟨x, hx, -, -, -, hname⟩
  · rw [he]
    exact ⟨hn, fun _ _ => rfl⟩
  · have hin : b.id ∈ n.names.map (·.1) := by
      rw [h.keys]
      exact List.mem_map_of_mem hb
    refine ⟨?_, fun i hi => by rw [hname, if_neg (fun hc => hi hc.1)]⟩
    rw [hname, if_pos ⟨rfl, hin⟩]
    exact fun hm => hx (hnames x hm)

/-- Several bindings avoid some names. -/
theorem avoidAll {names : List Name} : ∀ (ls : List BindingId) {n : Naming}, n.Apart a bs →
    (∀ x ∈ names, x ∈ n.supply.taken) → (∀ i ∈ ls, ∃ b ∈ bs, b.id = i) →
    Refines a bs n (ls.foldl (avoid names) n) ∧
      (∀ i, n.nameOf i ∉ names ∨ i ∈ ls → (ls.foldl (avoid names) n).nameOf i ∉ names) ∧
      ∀ i, i ∉ ls → (ls.foldl (avoid names) n).nameOf i = n.nameOf i
  | [], n, h, _, _ => ⟨.refl h, fun i hi => hi.resolve_right (by simp), fun _ _ => rfl⟩
  | l :: ls, n, h, hnames, hls => by
    obtain ⟨b, hb, rfl⟩ := hls l List.mem_cons_self
    have hone := h.avoid names hb
    obtain ⟨hself, hother⟩ := avoid_not_mem h hnames hb
    obtain ⟨hrest, hout, hsame⟩ := avoidAll ls hone.apart (fun x hx => hone.taken x (hnames x hx))
      (fun i hi => hls i (List.mem_cons_of_mem _ hi))
    refine ⟨hone.trans hrest, fun i hi => hout i ?_, fun i hi => ?_⟩
    · by_cases hib : i = b.id
      · exact .inl (hib ▸ hself)
      · rw [hother i hib]
        rcases hi with hi | hi
        · exact .inl hi
        · exact .inr ((List.mem_cons.1 hi).resolve_left hib)
    · rw [List.mem_cons, not_or] at hi
      rw [List.foldl_cons, hsame i hi.2, hother i hi.1]

/-! ## The names of a function -/

/-- The bindings of a wrapper are those of the function, and no local one is a parameter. -/
def Sorted (bs : List Binding) (w : Wrapper) : Prop :=
  (∀ i ∈ w.locals ++ w.params, ∃ b ∈ bs, b.id = i) ∧ ∀ i ∈ w.locals, i ∉ w.params

/-- The bindings declared inside of a wrapper are told from its parameters. -/
theorem Apart.separate (h : n.Apart a bs) {w : Wrapper} (hw : Sorted bs w) :
    Refines a bs n (separate n w) ∧
      (∀ i ∈ w.locals, ∀ j ∈ w.params, (separate n w).nameOf i ≠ (separate n w).nameOf j) ∧
      ∀ i, i ∉ w.locals → (separate n w).nameOf i = n.nameOf i := by
  have hparams : ∀ x ∈ w.params.map n.nameOf, x ∈ n.supply.taken := by
    intro x hx
    obtain ⟨j, hj, rfl⟩ := List.mem_map.1 hx
    obtain ⟨b, hb, rfl⟩ := hw.1 j (List.mem_append_right _ hj)
    exact h.taken b hb
  obtain ⟨hr, hout, hsame⟩ := avoidAll w.locals h hparams
    (fun i hi => hw.1 i (List.mem_append_left _ hi))
  refine ⟨hr, fun i hi j hj he => hout i (.inr hi) ?_, hsame⟩
  have hj' : (w.locals.foldl (Naming.avoid (w.params.map n.nameOf)) n).nameOf j = n.nameOf j :=
    hsame j fun hjl => hw.2 j hjl hj
  exact List.mem_map.2 ⟨j, hj, (he.trans hj').symm⟩

/-- The wrappers of a function separate their bindings one after the other. -/
theorem Apart.separateAll : ∀ (ws : List Wrapper) {n : Naming}, n.Apart a bs →
    (∀ w ∈ ws, Sorted bs w) →
    Refines a bs n (ws.foldl Naming.separate n) ∧
      (∀ w ∈ ws, ∀ i ∈ w.locals, ∀ j ∈ w.params,
        (ws.foldl Naming.separate n).nameOf i ≠ (ws.foldl Naming.separate n).nameOf j) ∧
      ∀ i, (∀ w ∈ ws, i ∉ w.locals) → (ws.foldl Naming.separate n).nameOf i = n.nameOf i
  | [], n, h, _ => ⟨.refl h, by simp, fun _ _ => rfl⟩
  | w :: ws, n, h, hws => by
    obtain ⟨hone, hsep, hsame⟩ := h.separate (hws w List.mem_cons_self)
    obtain ⟨hrest, hseps, hsames⟩ := hone.apart.separateAll ws
      (fun v hv => hws v (List.mem_cons_of_mem _ hv))
    refine ⟨hone.trans hrest, fun v hv i hi j hj => ?_, fun i hi => ?_⟩
    rotate_left
    · rw [List.foldl_cons, hsames i fun v hv => hi v (List.mem_cons_of_mem _ hv),
        hsame i (hi w List.mem_cons_self)]
    rcases List.mem_cons.1 hv with rfl | hv
    · have hw := hws v List.mem_cons_self
      obtain ⟨b, hb, rfl⟩ := hw.1 i (List.mem_append_left _ hi)
      obtain ⟨c, hc, rfl⟩ := hw.1 j (List.mem_append_right _ hj)
      exact hrest.ne b hb c hc (hsep _ hi _ hj)
    · exact hseps v hv i hi j hj

/-- The bindings of a function are told apart, and those declared inside of a wrapper are told from
    its parameters. What is not declared inside of a wrapper keeps its name, if it may. -/
theorem ofAnalysis_separates (hnd : (a.scoping.bindings.map (·.id)).Nodup)
    (hws : ∀ w ∈ a.wrappers, Sorted a.scoping.bindings w) :
    (ofAnalysis a).Apart a a.scoping.bindings ∧
      (∀ w ∈ a.wrappers, ∀ i ∈ w.locals, ∀ j ∈ w.params,
        (ofAnalysis a).nameOf i ≠ (ofAnalysis a).nameOf j) ∧
      ∀ b ∈ a.scoping.bindings, keepsName a b → (∀ w ∈ a.wrappers, b.id ∉ w.locals) →
        (ofAnalysis a).nameOf b.id = b.name := by
  have hnone : Apart a [] ⟨[], .ofTaken (used a)⟩ :=
    ⟨rfl, fun _ hx => hx, by simp, by simp⟩
  have hall := hnone.addAll (l := a.scoping.bindings) (by simpa using hnd) (fun _ hc => hc)
  have hkeep := nameOf_addAll hnone (l := a.scoping.bindings) (by simpa using hnd)
    (fun _ hc => hc) (by simp)
  rw [List.nil_append] at hall hkeep
  obtain ⟨hr, hsep, hsame⟩ := hall.separateAll a.wrappers hws
  exact ⟨hr.apart, hsep, fun b hb hk hw => (hsame b.id hw).trans (hkeep b hb hk)⟩

end Naming

end FlatScope
