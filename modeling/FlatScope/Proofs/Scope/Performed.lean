import FlatScope.Proofs.Scope.Acts

/-!
# What performed acts record

The acts of a function are in order (`Resolve.InOrder`): each is in a scope that an earlier one
opened, and no scope is opened twice. Performing acts in order records exactly what they say
(`Scoping.Records`): a scope for every enclosure that is opened, a reference for every name that is
resolved, and all that was recorded means in the end what it meant when it was recorded.

* `Resolve.Act.perform_records`: what one act adds;
* `Resolve.performAll_records`: so do acts in order, by induction;
* `FunctionDef.resolve_records`: so does the resolution of any numbered function that is accepted.
-/

namespace FlatScope

open Node Scoping

namespace Resolve

/-! ## Acts in order -/

/-- The enclosures that acts open. -/
def opened (L : List Act) : List Enclosure := L.filterMap Act.opened?

/-- The loops that acts note. -/
def noted (L : List Act) : List LoopScopes := L.filterMap Act.noted?

@[simp] theorem opened_append (L M : List Act) : opened (L ++ M) = opened L ++ opened M :=
  List.filterMap_append

@[simp] theorem noted_append (L M : List Act) : noted (L ++ M) = noted L ++ noted M :=
  List.filterMap_append

/-- The scope is open after some acts. -/
def IsOpen (past : List Act) (sc : ScopeId) : Prop := ∃ g ∈ opened past, g.id = sc

/-- An act may come after those of `past`. What is refused outright is not that a name is declared
    nowhere. -/
def Act.Follows (past : List Act) : Act → Prop
  | .opens f parent => (∀ g ∈ opened past, g.id ≠ f.id) ∧
      ∀ p, parent = some p → p < f.id ∧ IsOpen past p
  | .refers sc _ _ _ | .checksPath sc _ _ => IsOpen past sc
  | .notes l =>
    (∀ i, l.header = some i → i = l.loop ∧ ∃ g ∈ opened past, g.id = i ∧ g.kind = .loop) ∧
      ∀ i, l.body = some i → (∃ g ∈ opened past, g.id = i ∧ g.kind = .block) ∧
        ∀ k ∈ noted past, k.body ≠ some i
  | .rejects cause _ => ∀ n, cause ≠ .unresolved n

/-- After those of `past` the acts come in order. -/
def InOrder : List Act → List Act → Prop
  | _, [] => True
  | past, x :: L => x.Follows past ∧ InOrder (past ++ [x]) L

theorem inOrder_append {past L M : List Act} :
    InOrder past (L ++ M) ↔ InOrder past L ∧ InOrder (past ++ L) M := by
  induction L generalizing past with
  | nil => simp [InOrder]
  | cons x L ih => simp [InOrder, ih, and_assoc]

theorem IsOpen.append {past : List Act} {sc : ScopeId} (h : IsOpen past sc) (L : List Act) :
    IsOpen (past ++ L) sc := by
  obtain ⟨g, hg, hid⟩ := h
  exact ⟨g, by simp [hg], hid⟩

theorem IsOpen.append_right {L : List Act} {sc : ScopeId} (h : IsOpen L sc) (past : List Act) :
    IsOpen (past ++ L) sc := by
  obtain ⟨g, hg, hid⟩ := h
  exact ⟨g, by simp [hg], hid⟩

/-- The acts open no scope of a number from `n` up to `m`, and note no loop with such a body. -/
structure Untouched (n m : Nat) (past : List Act) : Prop where
  opened : ∀ f ∈ opened past, ¬ Between n m f.id
  noted : ∀ l ∈ noted past, ∀ i, l.body = some i → ¬ Between n m i

/-- The acts of code that stands in the scope `sc` and whose nodes have the numbers from `n` up to
    `m`. -/
structure Fits (n m : Nat) (sc : ScopeId) (L : List Act) : Prop where
  opened : ∀ f ∈ opened L, Between n m f.id
  noted : ∀ l ∈ noted L, ∀ i, l.body = some i → Between (n + 1) m i
  inOrder : ∀ past, sc < n → IsOpen past sc → Untouched n m past → InOrder past L

namespace Fits

variable {n k m p q : Nat} {sc sc' : ScopeId} {L M : List Act}

theorem nil : Fits n m sc [] where
  opened := by simp [Resolve.opened]
  noted := by simp [Resolve.noted]
  inOrder _ _ _ _ := trivial

/-- An act that opens nothing and notes nothing. -/
theorem one {x : Act} (ho : x.opened? = none) (hn : x.noted? = none)
    (hx : ∀ past, IsOpen past sc → x.Follows past) : Fits n m sc [x] where
  opened := by simp [Resolve.opened, ho]
  noted := by simp [Resolve.noted, hn]
  inOrder past _ hopen _ := ⟨hx past hopen, trivial⟩

theorem rejects {cause : Cause} {span : Span} (h : ∀ n, cause ≠ .unresolved n) :
    Fits n m sc [.rejects cause span] :=
  one rfl rfl fun _ _ => h

theorem refers {x : Name} {mark : Mark} {w : Bool} : Fits n m sc [.refers sc x mark w] :=
  one rfl rfl fun _ h => h

theorem checksPath {x : Name} {span : Span} : Fits n m sc [.checksPath sc x span] :=
  one rfl rfl fun _ h => h

/-- Code inside of other code. -/
theorem widen (h : Fits n m sc L) (hn : p ≤ n) (hm : m ≤ q) : Fits p q sc L where
  opened f hf := (h.opened f hf).widen hn hm
  noted l hl i hi := (h.noted l hl i hi).widen (Nat.succ_le_succ hn) hm
  inOrder past hsc hopen hun := h.inOrder past (Nat.lt_of_lt_of_le hsc hn) hopen
    ⟨fun f hf hi => hun.opened f hf (hi.widen hn hm),
      fun l hl i hi hi' => hun.noted l hl i hi (hi'.widen hn hm)⟩

/-- Code that is resolved after other code, in the same scope or in one that the other code
    opens. -/
theorem both (h : Fits n m sc L) (h' : Fits p q sc' M) {lo hi : Nat} (hn : lo ≤ n) (hm : m ≤ hi)
    (hp : lo ≤ p) (hq : q ≤ hi) (hdisj : m ≤ p ∨ q ≤ n) (hsc : sc' = sc ∨ IsOpen L sc' ∧ m ≤ p) :
    Fits lo hi sc (L ++ M) where
  opened f hf := by
    rw [opened_append, List.mem_append] at hf
    exact hf.elim (fun hf => (h.opened f hf).widen hn hm) fun hf => (h'.opened f hf).widen hp hq
  noted l hl i hi := by
    rw [noted_append, List.mem_append] at hl
    exact hl.elim (fun hl => (h.noted l hl i hi).widen (Nat.succ_le_succ hn) hm)
      fun hl => (h'.noted l hl i hi).widen (Nat.succ_le_succ hp) hq
  inOrder past hlt hopen hun := by
    have hapart : ∀ {i}, Between n m i → ¬ Between p q i := fun hi hi' => by
      have := hi.1
      have := hi.2
      have := hi'.1
      have := hi'.2
      omega
    have hlt' : sc' < p := by
      rcases hsc with rfl | ⟨⟨g, hg, rfl⟩, hmp⟩
      · exact Nat.lt_of_lt_of_le hlt hp
      · exact Nat.lt_of_lt_of_le (h.opened g hg).2 hmp
    have hopen' : IsOpen (past ++ L) sc' := by
      rcases hsc with rfl | ⟨hL, -⟩
      · exact hopen.append L
      · exact hL.append_right past
    rw [inOrder_append]
    refine ⟨(h.widen hn hm).inOrder past hlt hopen hun,
      h'.inOrder _ hlt' hopen' ⟨fun f hf hi => ?_, fun l hl i hli hi => ?_⟩⟩
    · rw [opened_append, List.mem_append] at hf
      rcases hf with hf | hf
      · exact hun.opened f hf (hi.widen hp hq)
      · exact hapart (h.opened f hf) hi
    · rw [noted_append, List.mem_append] at hl
      rcases hl with hl | hl
      · exact hun.noted l hl i hli (hi.widen hp hq)
      · exact hapart ((h.noted l hl i hli).widen (Nat.le_succ n) (Nat.le_refl _)) hi

/-- Code behind other code. -/
theorem seq (h : Fits n k sc L) (h' : Fits k m sc M) (hnk : n ≤ k) (hkm : k ≤ m) :
    Fits n m sc (L ++ M) :=
  h.both h' (Nat.le_refl _) hkm hnk (Nat.le_refl _) (.inl (Nat.le_refl _)) (.inl rfl)

/-- A scope is opened, if there is one. -/
theorem opening {f : Option Enclosure} (hf : ∀ g, f = some g → g.id = n) (hnm : n < m) :
    Fits n m sc (Act.opening f sc) := by
  cases f with
  | none => exact nil
  | some g =>
    obtain rfl := hf g rfl
    refine ⟨fun f hf => ?_, fun l hl => ?_, fun past hsc hopen hun =>
      ⟨⟨fun f hf he => ?_, ?_⟩, trivial⟩⟩
    · rw [List.mem_singleton.1 hf]
      exact ⟨Nat.le_refl _, hnm⟩
    · cases hl
    · exact hun.opened f hf (by rw [he]; exact ⟨Nat.le_refl _, hnm⟩)
    · rintro p ⟨⟩
      exact ⟨hsc, hopen⟩

/-- Code inside of a scope that is opened for it, if one is. -/
theorem enclosed {f : Option Enclosure} (hf : ∀ g, f = some g → g.id = n) (hnm : n < m)
    (hsc : sc' = (f.map (·.id)).getD sc) (h : Fits (n + 1) m sc' L) :
    Fits n m sc (Act.opening f sc ++ L) := by
  refine (opening hf (Nat.lt_succ_self n)).both h (Nat.le_refl _) hnm (Nat.le_succ n)
    (Nat.le_refl _)
    (.inl (Nat.le_refl _)) ?_
  cases f with
  | none => exact .inl hsc
  | some g => exact .inr ⟨⟨g, List.mem_singleton.2 rfl, hsc.symm⟩, Nat.le_refl _⟩

/-- A loop is noted behind what is in it. -/
theorem note {l : LoopScopes} (h : Fits n m sc L)
    (hheader : ∀ i, l.header = some i → i = l.loop ∧ ∃ g ∈ Resolve.opened L, g.id = i ∧
    g.kind = .loop)
    (hbody : ∀ i, l.body = some i → Between (n + 1) m i ∧
      (∃ g ∈ Resolve.opened L, g.id = i ∧ g.kind = .block) ∧
      ∀ k ∈ Resolve.noted L, k.body ≠ some i) :
    Fits n m sc (L ++ [.notes l]) where
  opened f hf := h.opened f (by simpa [Resolve.opened, Act.opened?] using hf)
  noted k hk i hi := by
    rw [noted_append, List.mem_append] at hk
    rcases hk with hk | hk
    · exact h.noted k hk i hi
    · obtain rfl := List.mem_singleton.1 hk
      exact (hbody i hi).1
  inOrder past hlt hopen hun := by
    rw [inOrder_append]
    refine ⟨h.inOrder past hlt hopen hun, ⟨fun i hi => ?_, fun i hi => ?_⟩, trivial⟩
    · obtain ⟨hil, g, hg, hgi⟩ := hheader i hi
      exact ⟨hil, g, by simp [hg], hgi⟩
    · obtain ⟨hin, ⟨g, hg, hgi⟩, hnew⟩ := hbody i hi
      refine ⟨⟨g, by simp [hg], hgi⟩, fun k hk hki => ?_⟩
      rw [noted_append, List.mem_append] at hk
      rcases hk with hk | hk
      · exact hun.noted k hk i hki (hin.widen (Nat.le_succ n) (Nat.le_refl _))
      · exact hnew k hk hki

end Fits

end Resolve

open Resolve

theorem Enclosure.ofBlock?_id {b : Block Mark} {f : Enclosure} (h : ofBlock? b = some f) :
    f.id = b.mark.id ∧ f.kind = .block := by
  obtain ⟨-, rfl⟩ := ofBlock?_eq_some h
  exact ⟨rfl, rfl⟩

theorem Enclosure.ofLoop?_id {m : Mark} {h : Header Mark} {f : Enclosure}
    (hf : ofLoop? m h = some f) : f.id = m.id ∧ f.kind = .loop := by
  obtain ⟨l, -, rfl⟩ := ofLoop?_eq_some hf
  exact ⟨rfl, rfl⟩

theorem Block.scopeIn_eq (b : Block Mark) (sc : ScopeId) :
    b.scopeIn sc = ((Enclosure.ofBlock? b).map (·.id)).getD sc := by
  unfold Block.scopeIn Enclosure.ofBlock?
  split <;> rfl

theorem Header.scopeIn_eq (h : Header Mark) (loop : Mark) (sc : ScopeId) :
    h.scopeIn loop.id sc = ((Enclosure.ofLoop? loop h).map (·.id)).getD sc := by
  unfold Header.scopeIn Enclosure.ofLoop?
  cases headerLexical? h <;> rfl

theorem Header.own_eq_some {loop : Mark} {h : Header Mark} {i : ScopeId}
    (hi : ((headerLexical? h).map fun _ => loop.id) = some i) :
    ∃ f, Enclosure.ofLoop? loop h = some f ∧ i = loop.id := by
  obtain ⟨l, hl, rfl⟩ := Option.map_eq_some_iff.1 hi
  exact ⟨_, Option.map_eq_some_iff.2 ⟨l, hl, rfl⟩, rfl⟩

theorem Block.own?_eq_some {b : Block Mark} {i : ScopeId} (h : b.own? = some i) :
    ∃ f, Enclosure.ofBlock? b = some f ∧ i = b.mark.id := by
  unfold Block.own? at h
  split at h
  · cases h
  case isFalse hne => exact ⟨_, if_neg hne, (Option.some.inj h).symm⟩

/-- The scope of a block is opened when the block is resolved. -/
theorem Block.mem_opened (b : Block Mark) {sc : ScopeId} {inLoop : Bool} {f : Enclosure}
    (hf : Enclosure.ofBlock? b = some f) : f ∈ opened (b.acts sc inLoop) := by
  cases b
  rw [Block.acts, hf, opened_append]
  exact List.mem_append_left _ (List.mem_singleton.2 rfl)

/-- The scope of a loop is opened when its header is resolved. -/
theorem Header.mem_opened (h : Header Mark) {loop : Mark} {sc : ScopeId} {inLoop : Bool}
    {f : Enclosure} (hf : Enclosure.ofLoop? loop h = some f) :
    f ∈ opened (h.acts sc inLoop loop) := by
  have hopen : f ∈ opened (Act.opening (Enclosure.ofLoop? loop h) sc) := by
    rw [hf]
    exact List.mem_singleton.2 rfl
  match h with
  | .counting .. =>
    rw [Header.acts_counting _ _ _ _ _ _ _ rfl, opened_append]
    exact List.mem_append_left _ hopen
  | .forOf _ _ (some .letVar) _ | .forOf _ _ (some .const) _ =>
    simp only [Header.acts, opened_append]
    exact List.mem_append_right _ hopen
  | .whileTrue .. | .unknown .. | .forOf _ _ none _ | .forOf _ _ (some .var) _ => cases hf

mutual

/-- The acts of numbered code are in order. -/
theorem Expr.acts_fits {sc : ScopeId} {n m : Nat} : ∀ (e : Expr Mark), Consecutive n e.nodes m →
    Fits n m sc (e.acts sc)
  | .literal .., _ => .nil
  | .name .., _ => .refers
  | .unary _ _ e, h | .signalIs _ e _, h | .signalValue _ e, h => by
    obtain ⟨-, -, h⟩ := h.of_cons
    exact (e.acts_fits h).widen (Nat.le_succ n) (Nat.le_refl _)
  | .binary _ _ l r, h | .index _ l r, h => by
    obtain ⟨-, -, h⟩ := h.of_cons
    obtain ⟨k, hl, hr⟩ := h.of_append
    exact ((l.acts_fits hl).seq (r.acts_fits hr) hl.le hr.le).widen (Nat.le_succ n) (Nat.le_refl _)
  | .call _ f args, h => by
    obtain ⟨-, -, h⟩ := h.of_cons
    obtain ⟨k, hf, hargs⟩ := h.of_append
    exact ((f.acts_fits hf).seq (Expr.actsOfList_fits args hargs) hf.le hargs.le).widen
      (Nat.le_succ n)
      (Nat.le_refl _)
  | .array _ es, h => by
    obtain ⟨-, -, h⟩ := h.of_cons
    exact (Expr.actsOfList_fits es h).widen (Nat.le_succ n) (Nat.le_refl _)
  | .function k ps (.mk j ss), h => by
    obtain ⟨hk, hlt, h⟩ := h.of_cons
    obtain ⟨-, -, h⟩ := h.of_cons
    refine .enclosed (f := some (.ofFunction k ps (.mk j ss))) ?_ hlt rfl
      ((Stmt.actsOfList_fits ss h).widen (Nat.le_succ _) (Nat.le_refl _))
    rintro _ ⟨⟩
    exact hk.symm
  | .signal _ _ none, _ => .nil
  | .signal _ _ (some e), h => by
    obtain ⟨-, -, h⟩ := h.of_cons
    exact (e.acts_fits h).widen (Nat.le_succ n) (Nat.le_refl _)
  | .unknown .., _ => .rejects nofun

theorem Expr.actsOfList_fits {sc : ScopeId} {n m : Nat} : ∀ (es : List (Expr Mark)),
    Consecutive n (Expr.nodesOfList es) m → Fits n m sc (Expr.actsOfList sc es)
  | [], _ => .nil
  | e :: es, h => by
    obtain ⟨k, he, hes⟩ := h.of_append
    exact (e.acts_fits he).seq (Expr.actsOfList_fits es hes) he.le hes.le

theorem Block.acts_fits {sc : ScopeId} {inLoop : Bool} {n m : Nat} : ∀ (b : Block Mark),
    Consecutive n b.nodes m → Fits n m sc (b.acts sc inLoop)
  | .mk k ss, h => by
    obtain ⟨hk, hlt, h⟩ := h.of_cons
    exact .enclosed (fun g hg => (Enclosure.ofBlock?_id hg).1.trans hk.symm) hlt
      (Block.scopeIn_eq _ sc) (Stmt.actsOfList_fits ss h)

theorem Stmt.actsOfList_fits {sc : ScopeId} {inLoop : Bool} {n m : Nat} : ∀ (ss : List (Stmt Mark)),
    Consecutive n (Stmt.nodesOfList ss) m → Fits n m sc (Stmt.actsOfList sc inLoop ss)
  | [], _ => .nil
  | s :: ss, h => by
    obtain ⟨k, hs, hss⟩ := h.of_append
    exact (s.acts_fits hs).seq (Stmt.actsOfList_fits ss hss) hs.le hss.le

theorem Stmt.acts_fits {sc : ScopeId} {inLoop : Bool} {n m : Nat} : ∀ (s : Stmt Mark),
    Consecutive n s.nodes m → Fits n m sc (s.acts sc inLoop)
  | .declaration _ _ d none, _ => by
    cases d with
    | var => exact .checksPath
    | letVar => exact .nil
    | const => exact .rejects nofun
  | .declaration _ x d (some e), h => by
    obtain ⟨-, -, h⟩ := h.of_cons
    have he : Fits n m sc (e.acts sc) := (e.acts_fits h).widen (Nat.le_succ n) (Nat.le_refl _)
    cases d with
    | var => exact Fits.checksPath.seq he (Nat.le_refl _) (by have := h.le; omega)
    | letVar => exact he
    | const => exact he
  | .assignment k t v, h => by
    obtain ⟨-, -, h⟩ := h.of_cons
    obtain ⟨p, ht, hv⟩ := h.of_append
    have hF : Fits (n + 1) p sc (t.acts sc) := t.acts_fits ht
    have hV : Fits p m sc (v.acts sc) := v.acts_fits hv
    refine Fits.widen (n := n + 1) (m := m) ?_ (Nat.le_succ n) (Nat.le_refl _)
    cases t with
    | name => exact Fits.refers.seq hV ht.le hv.le
    | index => exact hF.seq hV ht.le hv.le
    | _ => exact ((Fits.rejects (by simp)).seq hF (Nat.le_refl _) ht.le).seq hV ht.le hv.le
  | .expression _ e, h => by
    obtain ⟨-, -, h⟩ := h.of_cons
    exact (e.acts_fits h).widen (Nat.le_succ n) (Nat.le_refl _)
  | .block b, h => b.acts_fits h
  | .branch _ c t none, h => by
    obtain ⟨-, -, h⟩ := h.of_cons
    obtain ⟨k, hc, ht⟩ := h.of_append
    rw [List.append_nil] at ht
    rw [Stmt.acts, List.append_nil]
    exact ((c.acts_fits hc).seq (t.acts_fits ht) hc.le ht.le).widen (Nat.le_succ n) (Nat.le_refl _)
  | .branch _ c t (some e), h => by
    obtain ⟨-, -, h⟩ := h.of_cons
    obtain ⟨k, hc, h⟩ := h.of_append
    obtain ⟨j, ht, he⟩ := h.of_append
    exact ((c.acts_fits hc).seq ((t.acts_fits ht).seq (e.acts_fits he) ht.le he.le) hc.le
      (ht.append he).le).widen (Nat.le_succ n) (Nat.le_refl _)
  | .loop k hd b, h => by
    obtain ⟨hk, -, h⟩ := h.of_cons
    obtain ⟨p, hh, hb⟩ := h.of_append
    obtain ⟨hp, hlt⟩ : p = b.mark.id ∧ p < m := by
      cases b
      exact ⟨hb.of_cons.1, hb.of_cons.2.1⟩
    change n = k.id at hk
    subst hk
    have hH : Fits k.id p sc (hd.acts sc inLoop k) := hd.acts_fits hh
    have hB : Fits p m (hd.scopeIn k.id sc) (b.acts (hd.scopeIn k.id sc) true) := b.acts_fits hb
    have hle := hh.le
    rw [Stmt.acts, ← List.append_assoc]
    refine (hH.both hB (Nat.le_refl _) hb.le (Nat.le_of_succ_le hle) (Nat.le_refl _)
      (.inl (Nat.le_refl _)) ?_).note (fun i hi => ?_) fun i hi => ?_
    · rw [Header.scopeIn_eq]
      cases hf : Enclosure.ofLoop? k hd with
      | none => exact .inl rfl
      | some f => exact .inr ⟨⟨f, hd.mem_opened hf, rfl⟩, Nat.le_refl _⟩
    · obtain ⟨f, hf, rfl⟩ := Header.own_eq_some hi
      exact ⟨rfl, f, by simp [hd.mem_opened hf], Enclosure.ofLoop?_id hf⟩
    · obtain ⟨f, hf, rfl⟩ := Block.own?_eq_some hi
      obtain ⟨hfi, hfk⟩ := Enclosure.ofBlock?_id hf
      refine ⟨⟨by omega, by omega⟩, ⟨f, by simp [b.mem_opened hf], hfi, hfk⟩, fun l hl hli => ?_⟩
      rw [noted_append, List.mem_append] at hl
      rcases hl with hl | hl
      · have := (hH.noted l hl _ hli).2
        omega
      · have := (hB.noted l hl _ hli).1
        omega
  | .ret _ none, _ => .nil
  | .ret _ (some e), h => by
    obtain ⟨-, -, h⟩ := h.of_cons
    exact (e.acts_fits h).widen (Nat.le_succ n) (Nat.le_refl _)
  | .brk _, _ | .cont _, _ => by
    cases inLoop with
    | true => exact .nil
    | false => exact .rejects nofun
  | .unknown .., _ => .rejects nofun

/-- The scope of a loop is opened with the number of the loop. -/
theorem Header.acts_fits {sc : ScopeId} {inLoop : Bool} {loop : Mark} {m : Nat} :
    ∀ (h : Header Mark), Consecutive (loop.id + 1) h.nodes m →
    Fits loop.id m sc (h.acts sc inLoop loop)
  | .whileTrue _ c, h => by
    obtain ⟨-, -, h⟩ := h.of_cons
    exact (c.acts_fits h).widen (Nat.le_add_right _ 2) (Nat.le_refl _)
  | .counting k i c u, h => by
    rw [Header.nodes_counting] at h
    obtain ⟨-, -, h⟩ := h.of_cons
    obtain ⟨p, hi, h⟩ := h.of_append
    obtain ⟨q, hc, hu⟩ := h.of_append
    generalize hin : (Header.counting k i c u).scopeIn loop.id sc = inner
    rw [Header.acts_counting _ _ _ _ _ _ _ hin]
    refine .enclosed (fun g hg => (Enclosure.ofLoop?_id hg).1) ?_
      (hin.symm.trans (Header.scopeIn_eq _ loop sc))
      ((Fits.seq (k := p) ?_ (Fits.seq (k := q) ?_ ?_ hc.le hu.le)
        hi.le h.le).widen (Nat.le_succ _) (Nat.le_refl _))
    · have := hi.le
      have := h.le
      omega
    · cases i with
      | none => exact .nil
      | some s => exact s.acts_fits hi
    · cases c with
      | none => exact .nil
      | some e => exact e.acts_fits hc
    · cases u with
      | none => exact .nil
      | some s => exact s.acts_fits hu
  | .forOf k x d e, h => by
    obtain ⟨-, -, h⟩ := h.of_cons
    have hE : Fits (loop.id + 1 + 1) m sc (e.acts sc) := e.acts_fits h
    have hle := h.le
    refine hE.both (p := loop.id) (q := loop.id + 1) ?_ (by omega) (Nat.le_refl _)
      (Nat.le_refl _) (by omega) (.inr (Nat.le_succ _)) (.inl rfl)
    match d with
    | none => exact .refers
    | some .var => exact Fits.checksPath.seq .refers (Nat.le_refl loop.id) (Nat.le_succ _)
    | some .letVar | some .const =>
      exact .opening (fun g hg => (Enclosure.ofLoop?_id hg).1) (Nat.lt_succ_self _)
  | .unknown .., _ => .rejects nofun

end

/-- The acts of a numbered function are in order. -/
theorem FunctionDef.acts_inOrder {fn : FunctionDef Mark} {m : Nat}
    (hn : Consecutive fn.mark.id fn.nodes m) : InOrder [] fn.acts := by
  obtain ⟨-, -, hbody⟩ := hn.of_cons
  obtain ⟨mark, name, ps, k, ss⟩ := fn
  obtain ⟨-, -, hss⟩ := hbody.of_cons
  refine ⟨⟨nofun, nofun⟩, (Stmt.actsOfList_fits ss hss).inOrder _
    (Nat.lt_succ_of_lt (Nat.lt_succ_self _))
    ⟨_, List.mem_singleton.2 rfl, rfl⟩ ⟨fun f hf hi => ?_, nofun⟩⟩
  obtain rfl := List.mem_singleton.1 hf
  exact Nat.not_succ_le_self _ (Nat.le_of_succ_le hi.1)

/-! ## What is recorded -/

/-- A scope is that of an enclosure. -/
structure Enclosure.Is (f : Enclosure) (parent : Option ScopeId) (s : Scope) : Prop where
  id : s.id = f.id
  kind : s.kind = f.kind
  parent : s.parent = parent
  names : ∀ n, n ∈ s.names.map (·.1) ↔ n ∈ f.names

/-- The act that records a reference. -/
def Reference.act (r : Reference) : Act := .refers r.scope r.name ⟨r.node, r.span⟩ r.isWrite

namespace Scoping

/-- Exactly what some acts say is recorded, and every reference means what its name means. -/
structure Records (a : Scoping) (globals : List Name) (past : List Act) : Prop where
  consistent : a.Consistent
  opened : ∀ f p, .opens f p ∈ past → ∃ s ∈ a.scopes, f.Is p s
  scopes : ∀ s ∈ a.scopes, ∃ f p, .opens f p ∈ past ∧ f.Is p s
  blocks : ∀ f p, .opens f p ∈ past → f.kind = .block → (f.id, f.id) ∈ a.blockScopes
  uses : ∀ sc n m w, .refers sc n m w ∈ past → ∃ r ∈ a.references, r.act = .refers sc n m w
  references : ∀ r ∈ a.references, r.act ∈ past
  loops : a.loops = noted past
  settled : ∀ r ∈ a.references, r.binding = (a.lookup? r.scope r.name).map (·.id) ∧
    (r.binding = none → r.name ∈ globals)
  globals : ∀ n, n ∈ a.globalsUsed ↔ ∃ r ∈ a.references, r.name = n ∧ r.binding = none

variable {a b : Scoping} {globals : List Name} {past L : List Act} {P : NodeId → Prop}

theorem records_empty (root : ScopeId) : (empty root).Records globals [] where
  consistent := consistent_empty root
  opened := nofun
  scopes := nofun
  blocks := nofun
  uses := nofun
  references := nofun
  loops := rfl
  settled := nofun
  globals n := by simp [empty]

/-- A name that means nothing in the function is noted once. -/
theorem mem_globalsUsed_addReference {r : Reference} {n : Name} :
    n ∈ (a.addReference r).globalsUsed ↔ n ∈ a.globalsUsed ∨ r.name = n ∧ r.binding = none := by
  dsimp only [addReference]
  split
  case isTrue h =>
    rw [Bool.and_eq_true] at h
    simp [Option.isNone_iff_eq_none.1 h.1, eq_comm]
  case isFalse h =>
    refine ⟨.inl, fun hn => hn.elim id ?_⟩
    rintro ⟨rfl, hnone⟩
    simpa [hnone] using h

namespace Records

theorem hasScope (h : a.Records globals past) {i : ScopeId} {k : ScopeKind}
    (hi : ∃ g ∈ Resolve.opened past, g.id = i ∧ g.kind = k) : a.HasScope i k := by
  obtain ⟨g, hg, rfl, rfl⟩ := hi
  obtain ⟨x, hx, hxg⟩ := List.mem_filterMap.1 hg
  cases x with
  | opens f p =>
    cases hxg
    obtain ⟨s, hs, hfs⟩ := h.opened _ _ hx
    exact ⟨s, hs, hfs.id, hfs.kind⟩
  | _ => cases hxg

theorem known (h : a.Records globals past) {i : ScopeId} (hi : IsOpen past i) :
    ∃ s ∈ a.scopes, s.id = i := by
  obtain ⟨g, hg, rfl⟩ := hi
  obtain ⟨s, hs, hsi, -⟩ := h.hasScope ⟨g, hg, rfl, rfl⟩
  exact ⟨s, hs, hsi⟩

theorem new (h : a.Records globals past) {i : ScopeId} (hi : ∀ g ∈ Resolve.opened past, g.id ≠ i) :
    ∀ s ∈ a.scopes, s.id ≠ i := by
  intro s hs he
  obtain ⟨f, p, hf, hfs⟩ := h.scopes s hs
  exact hi f (List.mem_filterMap.2 ⟨_, hf, rfl⟩) (hfs.id.symm.trans he)

/-- What a name means where it is used stays. -/
theorem lookup?_grows (h : a.Records globals past) (hab : Grows P a b) (hb : b.Consistent)
    {r : Reference} (hr : r ∈ a.references) :
    b.lookup? r.scope r.name = a.lookup? r.scope r.name := by
  obtain ⟨s, hs, hsr⟩ := (h.consistent.referred r hr).1
  exact hab.lookup? h.consistent hb (hsr ▸ h.consistent.scope?_of_mem hs) r.name

/-- Scopes `ss` and references `rs` are added, those that the act `x` says. -/
theorem extend {x : Act} (h : a.Records globals past) (ss : List Scope) (rs : List Reference)
    (hab : Grows P a b) (hb : b.Consistent) (hscopes : b.scopes = a.scopes ++ ss)
    (hopens : ∀ f p, x = .opens f p → ∃ s ∈ ss, f.Is p s)
    (hss : ∀ s ∈ ss, ∃ f p, x = .opens f p ∧ f.Is p s)
    (hblocks : ∀ f p, x = .opens f p → f.kind = .block → (f.id, f.id) ∈ b.blockScopes)
    (hrefs : b.references = a.references ++ rs)
    (hrefers : ∀ sc n m w, x = .refers sc n m w → ∃ r ∈ rs, r.act = x)
    (hrs : ∀ r ∈ rs, r.act = x ∧ r.binding = (b.lookup? r.scope r.name).map (·.id) ∧
      (r.binding = none → r.name ∈ globals))
    (hloops : b.loops = a.loops ++ x.noted?.toList)
    (hglobals : ∀ n, n ∈ b.globalsUsed ↔
      n ∈ a.globalsUsed ∨ ∃ r ∈ rs, r.name = n ∧ r.binding = none) :
    b.Records globals (past ++ [x]) where
  consistent := hb
  opened f p hf := by
    rw [hscopes]
    rcases List.mem_append.1 hf with hf | hf
    · obtain ⟨s, hs, hfs⟩ := h.opened f p hf
      exact ⟨s, List.mem_append_left _ hs, hfs⟩
    · obtain ⟨s, hs, hfs⟩ := hopens f p (List.mem_singleton.1 hf).symm
      exact ⟨s, List.mem_append_right _ hs, hfs⟩
  scopes s hs := by
    rw [hscopes] at hs
    rcases List.mem_append.1 hs with hs | hs
    · obtain ⟨f, p, hf, hfs⟩ := h.scopes s hs
      exact ⟨f, p, List.mem_append_left _ hf, hfs⟩
    · obtain ⟨f, p, rfl, hfs⟩ := hss s hs
      exact ⟨f, p, List.mem_append_right _ (List.mem_singleton.2 rfl), hfs⟩
  blocks f p hf hk := by
    rcases List.mem_append.1 hf with hf | hf
    · exact hab.blockScopes.subset (h.blocks f p hf hk)
    · exact hblocks f p (List.mem_singleton.1 hf).symm hk
  uses sc n m w hr := by
    rw [hrefs]
    rcases List.mem_append.1 hr with hr | hr
    · obtain ⟨r, hr, hact⟩ := h.uses sc n m w hr
      exact ⟨r, List.mem_append_left _ hr, hact⟩
    · obtain rfl := List.mem_singleton.1 hr
      obtain ⟨r, hr, hact⟩ := hrefers sc n m w rfl
      exact ⟨r, List.mem_append_right _ hr, hact⟩
  references r hr := by
    rw [hrefs] at hr
    rcases List.mem_append.1 hr with hr | hr
    · exact List.mem_append_left _ (h.references r hr)
    · exact List.mem_append_right _ (List.mem_singleton.2 (hrs r hr).1)
  loops := by
    rw [hloops, h.loops, noted_append]
    cases hx : x.noted? <;> simp [noted, hx]
  settled r hr := by
    rw [hrefs] at hr
    rcases List.mem_append.1 hr with hr | hr
    · rw [h.lookup?_grows hab hb hr]
      exact h.settled r hr
    · exact (hrs r hr).2
  globals n := by
    rw [hglobals, h.globals, hrefs]
    simp [or_and_right, exists_or]

end Records

end Scoping

namespace Resolve

variable {a b c : Scoping} {globals : List Name} {past L : List Act} {u : Unit}

/-- Declaring names adds them to the scope that was opened. -/
theorem declareAll_opening {id : ScopeId} {kind : ScopeKind} {parent : Option ScopeId}
    {keys : List Name} {items : List Item} (h : a.Opening id kind parent keys b)
    (hd : declareAll id items b = .ok (u, c)) : ∃ keys', a.Opening id kind parent keys' c ∧
      ∀ n, n ∈ keys' ↔ n ∈ keys ∨ n ∈ items.map (·.name) := by
  induction items generalizing b keys with
  | nil =>
    obtain ⟨-, rfl⟩ := pure_ok (x := ()) (by simpa [declareAll] using hd)
    exact ⟨keys, h, by simp⟩
  | cons i items ih =>
    obtain ⟨_, b₁, h₁, h₂⟩ := bind_ok (by simpa [declareAll] using hd)
    obtain ⟨d, -, -, -, -, -, hcase⟩ := declare_ok h h₁
    rcases hcase with ⟨hk, -, ho⟩ | ⟨-, -, ho⟩
    · obtain ⟨keys', ho', hkeys⟩ := ih ho h₂
      refine ⟨keys', ho', fun n => (hkeys n).trans ?_⟩
      rw [List.map_cons, List.mem_cons, ← or_assoc]
      exact or_congr_left ⟨.inl, fun h => h.elim (fun hn => hn) fun hn => hn ▸ hk⟩
    · obtain ⟨keys', ho', hkeys⟩ := ih ho h₂
      exact ⟨keys', ho', fun n => (hkeys n).trans (by simp [or_assoc])⟩

/-- The scope of an enclosure, with its names, is all that opening it adds. -/
theorem perform_opens {f : Enclosure} {parent : Option ScopeId} (ha : a.Consistent)
    (hnew : ∀ s ∈ a.scopes, s.id ≠ f.id)
    (hp : ∀ p, parent = some p → p < f.id ∧ ∃ t ∈ a.scopes, t.id = p)
    (h : (Act.opens f parent).perform globals a = .ok (u, b)) :
    Grows (fun _ => True) a b ∧ b.Consistent ∧ b.references = a.references ∧ b.loops = a.loops ∧
      b.globalsUsed = a.globalsUsed ∧ (f.kind = .block → (f.id, f.id) ∈ b.blockScopes) ∧
      ∃ s, b.scopes = a.scopes ++ [s] ∧ f.Is parent s := by
  obtain ⟨_, a₁, h₁, h⟩ := bind_ok h
  obtain ⟨_, a₂, h₂, h₃⟩ := bind_ok h
  have ho₁ : a.Opening f.id f.kind parent [] a₁ := by
    rw [← modify_ok h₁]
    exact opening_addScope ha hnew hp
  -- A block is also noted; whether that is known before its scope is opened makes no difference.
  obtain ⟨a₀, hgrow, hscopes, hrefs, hloops, hglobals, hblock, ho₂⟩ : ∃ a₀,
      Grows (fun _ => True) a a₀ ∧ a₀.scopes = a.scopes ∧ a₀.references = a.references ∧
      a₀.loops = a.loops ∧ a₀.globalsUsed = a.globalsUsed ∧
      (f.kind = .block → (f.id, f.id) ∈ a₀.blockScopes) ∧
      a₀.Opening f.id f.kind parent [] a₂ := by
    by_cases hk : f.kind = .block
    · rw [Act.noteBlock, if_pos hk] at h₂
      refine ⟨a.addBlockScope f.id, ⟨rfl, .refl _, .refl _, .refl _, .refl _, .one trivial, .refl _,
        .refl _⟩, rfl, rfl, rfl, rfl,
        fun _ => List.mem_append_right _ (List.mem_singleton.2 rfl), ?_⟩
      rw [← modify_ok h₂]
      rw [hk] at ho₁ ⊢
      exact ho₁.addBlockScope
    · rw [Act.noteBlock, if_neg hk] at h₂
      obtain ⟨-, rfl⟩ := pure_ok (x := ()) h₂
      exact ⟨a, .refl a, rfl, rfl, rfl, rfl, fun h => absurd h hk, ho₁⟩
  obtain ⟨keys, ho, hkeys⟩ := declareAll_opening ho₂ h₃
  obtain ⟨names, hnames, hs⟩ := ho.scopes
  refine ⟨hgrow.trans (ho.growing trivial (ho.declarations.mono fun _ _ => trivial)), ho.consistent,
    ho.references.trans hrefs, ho.loops.trans hloops, ho.globalsUsed.trans hglobals,
    fun hk => ho.blockScopes ▸ hblock hk,
    ⟨f.id, f.kind, parent, names⟩, hscopes ▸ hs, rfl, rfl, rfl, fun n => ?_⟩
  rw [hnames, hkeys]
  simp [Enclosure.names]

namespace Act

/-- An act that follows others records what it says. -/
theorem perform_records {x : Act} (h : a.Records globals past) (hx : x.Follows past)
    (hp : x.perform globals a = .ok (u, b)) :
    b.Records globals (past ++ [x]) ∧ Grows (fun _ => True) a b := by
  cases x with
  | opens f parent =>
    obtain ⟨hgrow, hb, hrefs, hloops, hglobals, hblock, s, hs, hfs⟩ :=
      perform_opens h.consistent (h.new hx.1)
      (fun p hp => (hx.2 p hp).imp_right h.known) hp
    refine ⟨h.extend [s] [] hgrow hb hs ?_ ?_ ?_ (by simp [hrefs]) (by simp) (by simp)
      (by simp [hloops, noted?]) (by simp [hglobals]), hgrow⟩
    · rintro _ _ ⟨⟩
      exact ⟨s, List.mem_singleton.2 rfl, hfs⟩
    · intro t ht
      exact ⟨f, parent, rfl, (List.mem_singleton.1 ht) ▸ hfs⟩
    · rintro _ _ ⟨⟩
      exact hblock
  | refers sc n m w =>
    obtain ⟨hb, hglob⟩ := reference_eq hp
    generalize hr : (⟨m.id, n, (a.lookup? sc n).map (·.id), sc, w, m.span⟩ : Reference) = r at hb
    obtain ⟨t, ht, htsc⟩ := h.known hx
    have hsc : a.scope? sc = some t := htsc ▸ h.consistent.scope?_of_mem ht
    have hbc : b.Consistent := by
      rw [hb, ← hr]
      refine h.consistent.addReference ⟨t, ht, htsc⟩ fun i hi => ?_
      obtain ⟨d, hd, rfl⟩ := Option.map_eq_some_iff.1 hi
      exact ⟨d, (h.consistent.of_lookup? hd).1, rfl⟩
    have hgrow : Grows (fun _ => True) a b := by
      rw [hb]
      refine ⟨rfl, .refl _, .refl _, .one trivial, .refl _, .refl _, .refl _, ?_⟩
      dsimp only [addReference]
      split
      · exact .one trivial
      · exact .refl _
    -- the reference that is added is read back as this act
    have hact : r.act = .refers sc n m w := by rw [← hr]; rfl
    refine ⟨h.extend [] [r] hgrow hbc (by simp [hb, addReference]) (by simp) (by simp)
      (by simp)
      (by simp [hb, addReference]) (fun _ _ _ _ _ => ⟨r, List.mem_singleton.2 rfl, hact⟩) ?_
      (by simp [hb, addReference, noted?]) fun k => ?_, hgrow⟩
    · intro r' hr'
      obtain rfl := List.mem_singleton.1 hr'
      refine ⟨hact, ?_⟩
      rw [← hr, hgrow.lookup? h.consistent hbc hsc]
      exact ⟨rfl, fun hnone => hglob (Option.map_eq_none_iff.1 hnone)⟩
    · rw [hb, mem_globalsUsed_addReference]
      simp
  | notes l =>
    obtain rfl := modify_ok hp
    -- only the list of loops grows
    have hgrow : Grows (fun _ => True) a (a.addLoop l) :=
      ⟨rfl, .refl _, .refl _, .refl _, .refl _, .refl _,
        .one ⟨trivial, fun _ _ => trivial⟩, .refl _⟩
    refine ⟨h.extend [] [] hgrow ?_ (by simp [addLoop]) (by simp) (by simp) (by simp)
      (by simp [addLoop]) (by simp) (by simp) rfl (by simp [addLoop]), hgrow⟩
    refine h.consistent.addLoop (fun i hi => (hx.1 i hi).imp_right h.hasScope) fun i hi => ?_
    obtain ⟨hbody, hnew⟩ := hx.2 i hi
    exact ⟨h.hasScope hbody, h.loops ▸ hnew⟩
  | checksPath sc n span =>
    obtain ⟨rfl, -⟩ := checkVarPath_ok hp
    exact ⟨h.extend [] [] (P := fun _ => True) (.refl a) h.consistent (by simp) (by simp) (by simp)
      (by simp) (by simp) (by simp) (by simp) (by simp [noted?]) (by simp), .refl a⟩
  | rejects cause span => exact absurd hp reject_ne

end Act

/-- Acts in order record what they say. -/
theorem performAll_records (h : a.Records globals past) (hL : InOrder past L)
    (hp : performAll globals L a = .ok (u, b)) :
    b.Records globals (past ++ L) ∧ Grows (fun _ => True) a b := by
  induction L generalizing a past with
  | nil =>
    obtain ⟨-, rfl⟩ := pure_ok (x := ()) hp
    exact ⟨by simpa using h, .refl a⟩
  | cons x L ih =>
    obtain ⟨_, c, hx, hrest⟩ := bind_ok hp
    obtain ⟨hc, hac⟩ := Act.perform_records h hL.1 hx
    obtain ⟨hb, hcb⟩ := ih hc hL.2 hrest
    exact ⟨by simpa using hb, hac.trans hcb⟩

end Resolve

/-- The resolution of a function records its acts. -/
theorem FunctionDef.resolve_records {fn : FunctionDef Mark} {globals : List Name} {a : Scoping}
    {m : Nat} (hn : Consecutive fn.mark.id fn.nodes m) (h : fn.resolve globals = .ok a) :
    a.Records globals fn.acts ∧ a.root = fn.mark.id := by
  obtain ⟨hrec, hgrow⟩ := performAll_records (records_empty fn.mark.id)
    (FunctionDef.acts_inOrder hn) (FunctionDef.resolve_performs h)
  exact ⟨by simpa using hrec, hgrow.root⟩

end FlatScope
