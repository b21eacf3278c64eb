import FlatScope.Proofs.Numbering
import FlatScope.Scope.Resolve
import FlatScope.Syntax.Declared

/-!
# The nodes of declarations

The marks of the declarations of a piece of code are marks of its nodes. In a numbered tree no two
of them have one number, also if the `var`s of a block and its own `let`s and `const`s are put
together (`Stmt.declared_nodup`).
-/

namespace FlatScope

open Node

/-! ## `var`s -/

/-- The numbers of the declarations of some `var`s. -/
def varIds (vs : List (Name × Mark)) : List NodeId := vs.map (·.2.id)

theorem mem_of_varIds {vs : List (Name × Mark)} {ids : List NodeId}
    (h : ∀ {v}, v ∈ vs → v.2.id ∈ ids) {i : NodeId} (hi : i ∈ varIds vs) : i ∈ ids := by
  obtain ⟨v, hv, rfl⟩ := List.mem_map.1 hi
  exact h hv

mutual

/-- A `var` that a statement declares is one of its nodes. -/
theorem Stmt.vars_mem : ∀ (s : Stmt Mark) {v : Name × Mark}, v ∈ s.vars → v.2.id ∈ Node.ids s.nodes
  | .declaration m n k e, v, hv => by
    cases k with
    | var =>
      obtain rfl : v = (n, m) := by simpa [Stmt.vars] using hv
      cases e <;> simp [Stmt.nodes, Node.mark, Stmt.mark]
    | letVar => simp [Stmt.vars] at hv
    | const => simp [Stmt.vars] at hv
  | .assignment .., v, hv => by simp [Stmt.vars] at hv
  | .expression .., v, hv => by simp [Stmt.vars] at hv
  | .block b, v, hv => b.vars_mem (by simpa [Stmt.vars] using hv)
  | .branch _ _ t none, v, hv => by
    have := t.vars_mem (v := v) (by simpa [Stmt.vars] using hv)
    simp [Stmt.nodes, this]
  | .branch _ _ t (some e), v, hv => by
    rcases List.mem_append.1 (by simpa [Stmt.vars] using hv) with hv | hv
    · have := t.vars_mem hv
      simp [Stmt.nodes, this]
    · have := e.vars_mem hv
      simp [Stmt.nodes, this]
  | .loop _ h b, v, hv => by
    rcases List.mem_append.1 (by simpa [Stmt.vars] using hv) with hv | hv
    · have := h.vars_mem hv
      simp [Stmt.nodes, this]
    · have := b.vars_mem hv
      simp [Stmt.nodes, this]
  | .ret .., v, hv => by simp [Stmt.vars] at hv
  | .brk _, v, hv => by simp [Stmt.vars] at hv
  | .cont _, v, hv => by simp [Stmt.vars] at hv
  | .unknown .., v, hv => by simp [Stmt.vars] at hv

theorem Stmt.varsOfList_mem : ∀ (ss : List (Stmt Mark)) {v : Name × Mark},
    v ∈ Stmt.varsOfList ss → v.2.id ∈ Node.ids (Stmt.nodesOfList ss)
  | [], v, hv => by simp [Stmt.varsOfList] at hv
  | s :: ss, v, hv => by
    rcases List.mem_append.1 (by simpa [Stmt.varsOfList] using hv) with hv | hv
    · have := s.vars_mem hv
      simp [Stmt.nodesOfList, this]
    · have := Stmt.varsOfList_mem ss hv
      simp [Stmt.nodesOfList, this]

/-- A `var` that a block declares is one of its nodes. -/
theorem Block.vars_mem : ∀ (b : Block Mark) {v : Name × Mark}, v ∈ b.vars →
    v.2.id ∈ Node.ids b.nodes
  | .mk _ ss, v, hv => by
    have := Stmt.varsOfList_mem ss (v := v) (by simpa [Block.vars] using hv)
    simp [Block.nodes, this]

/-- A `var` that a header declares is one of its nodes. -/
theorem Header.vars_mem : ∀ (h : Header Mark) {v : Name × Mark}, v ∈ h.vars →
    v.2.id ∈ Node.ids h.nodes
  | .whileTrue .., v, hv => by simp [Header.vars] at hv
  | .counting _ none _ _, v, hv => by simp [Header.vars] at hv
  | .counting _ (some i) _ _, v, hv => by
    have := i.vars_mem (v := v) (by simpa [Header.vars] using hv)
    rw [Header.nodes_counting, ids_cons, ids_append]
    exact List.mem_cons_of_mem _ (List.mem_append_left _ this)
  | .forOf m n none _, v, hv => by simp [Header.vars] at hv
  | .forOf m n (some .var) _, v, hv => by
    obtain rfl : v = (n, m) := by simpa [Header.vars] using hv
    simp [Header.nodes, Node.mark, Header.mark]
  | .forOf m n (some .letVar) _, v, hv => by simp [Header.vars] at hv
  | .forOf m n (some .const) _, v, hv => by simp [Header.vars] at hv
  | .unknown .., v, hv => by simp [Header.vars] at hv

end

/-! ## `let`s and `const`s -/

/-- The numbers of the declarations of some `let`s and `const`s. -/
def Lexical.ids (ls : List (Lexical Mark)) : List NodeId := ls.map (·.mark.id)

theorem Stmt.lexical?_mem {s : Stmt Mark} {l : Lexical Mark} (h : s.lexical? = some l) :
    l.mark.id ∈ Node.ids s.nodes := by
  cases s with
  | declaration m n k v =>
    rw [Stmt.lexical?] at h
    split at h <;> simp_all
    subst h
    cases v <;> simp [Stmt.nodes, Node.mark, Stmt.mark]
  | _ => simp [Stmt.lexical?] at h

/-- A lexical declaration of a list of statements is one of their nodes. -/
theorem Stmt.lexicals_mem {ss : List (Stmt Mark)} {l : Lexical Mark}
    (h : l ∈ ss.filterMap Stmt.lexical?) : l.mark.id ∈ Node.ids (Stmt.nodesOfList ss) := by
  induction ss with
  | nil => simp at h
  | cons s ss ih =>
    rw [Stmt.nodesOfList, ids_append, List.mem_append]
    rw [List.filterMap_cons] at h
    cases hs : s.lexical? with
    | none => exact .inr (ih (by simpa [hs] using h))
    | some k =>
      rw [hs] at h
      rcases List.mem_cons.1 h with rfl | h
      · exact .inl (Stmt.lexical?_mem hs)
      · exact .inr (ih h)

theorem Stmt.lexical?_kind {s : Stmt Mark} {l : Lexical Mark} (h : s.lexical? = some l) :
    l.kind.isBlockScoped = true := by
  cases s with
  | declaration m n k v =>
    rw [Stmt.lexical?] at h
    split at h <;> simp_all
    subst h
    assumption
  | _ => simp [Stmt.lexical?] at h

/-- The lexical declarations of a block are `let` or `const`. -/
theorem Block.lexicals_kind {b : Block Mark} {l : Lexical Mark} (h : l ∈ b.lexicals) :
    l.kind.isBlockScoped = true := by
  obtain ⟨s, -, hs⟩ := List.mem_filterMap.1 h
  exact Stmt.lexical?_kind hs

/-- A statement that is a `let` or `const` declares no `var`. -/
theorem Stmt.vars_of_lexical? {s : Stmt Mark} {l : Lexical Mark} (h : s.lexical? = some l) :
    s.vars = [] := by
  cases s with
  | declaration m n k v => cases k <;> simp_all [Stmt.lexical?, Stmt.vars, DeclKind.isBlockScoped]
  | _ => simp [Stmt.lexical?] at h

/-! ## Different declarations have different numbers -/

mutual

/-- In a numbered statement, no two of the declared `var`s are the same node. -/
theorem Stmt.vars_nodup : ∀ (s : Stmt Mark) {n m : Nat}, Consecutive n s.nodes m →
    (varIds s.vars).Nodup
  | .declaration _ _ k _, _, _, _ => by cases k <;> simp [Stmt.vars, varIds]
  | .assignment .., _, _, _ => by simp [Stmt.vars, varIds]
  | .expression .., _, _, _ => by simp [Stmt.vars, varIds]
  | .block b, _, _, h => by simpa [Stmt.vars] using b.vars_nodup h
  | .branch _ _ t none, _, _, h => by
    obtain ⟨-, -, h⟩ := h.of_cons
    obtain ⟨k, -, h⟩ := h.of_append
    simpa [Stmt.vars] using t.vars_nodup (by simpa using h)
  | .branch _ _ t (some e), _, _, h => by
    obtain ⟨-, -, h⟩ := h.of_cons
    obtain ⟨k, -, h⟩ := h.of_append
    obtain ⟨j, ht, he⟩ := h.of_append
    rw [Stmt.vars, varIds, List.map_append, List.nodup_append]
    exact ⟨t.vars_nodup ht, e.vars_nodup he, fun i hi j hj =>
      ht.ne he (mem_of_varIds t.vars_mem hi) (mem_of_varIds e.vars_mem hj)⟩
  | .loop _ hd b, _, _, h => by
    obtain ⟨-, -, h⟩ := h.of_cons
    obtain ⟨k, hh, hb⟩ := h.of_append
    rw [Stmt.vars, varIds, List.map_append, List.nodup_append]
    exact ⟨hd.vars_nodup hh, b.vars_nodup hb, fun i hi j hj =>
      hh.ne hb (mem_of_varIds hd.vars_mem hi) (mem_of_varIds b.vars_mem hj)⟩
  | .ret .., _, _, _ => by simp [Stmt.vars, varIds]
  | .brk _, _, _, _ => by simp [Stmt.vars, varIds]
  | .cont _, _, _, _ => by simp [Stmt.vars, varIds]
  | .unknown .., _, _, _ => by simp [Stmt.vars, varIds]

theorem Stmt.varsOfList_nodup : ∀ (ss : List (Stmt Mark)) {n m : Nat},
    Consecutive n (Stmt.nodesOfList ss) m → (varIds (Stmt.varsOfList ss)).Nodup
  | [], _, _, _ => by simp [Stmt.varsOfList, varIds]
  | s :: ss, _, _, h => by
    obtain ⟨k, hs, hss⟩ := h.of_append
    rw [Stmt.varsOfList, varIds, List.map_append, List.nodup_append]
    exact ⟨s.vars_nodup hs, Stmt.varsOfList_nodup ss hss, fun i hi j hj =>
      hs.ne hss (mem_of_varIds s.vars_mem hi) (mem_of_varIds (Stmt.varsOfList_mem ss) hj)⟩

/-- In a numbered block, no two of the declared `var`s are the same node. -/
theorem Block.vars_nodup : ∀ (b : Block Mark) {n m : Nat}, Consecutive n b.nodes m →
    (varIds b.vars).Nodup
  | .mk _ ss, _, _, h => by
    obtain ⟨-, -, h⟩ := h.of_cons
    simpa [Block.vars] using Stmt.varsOfList_nodup ss h

/-- In a numbered header, no two of the declared `var`s are the same node. -/
theorem Header.vars_nodup : ∀ (hd : Header Mark) {n m : Nat}, Consecutive n hd.nodes m →
    (varIds hd.vars).Nodup
  | .whileTrue .., _, _, _ => by simp [Header.vars, varIds]
  | .counting _ none _ _, _, _, _ => by simp [Header.vars, varIds]
  | .counting _ (some i) _ _, _, _, h => by
    rw [Header.nodes_counting] at h
    obtain ⟨-, -, h⟩ := h.of_cons
    obtain ⟨k, hi, -⟩ := h.of_append
    simpa [Header.vars] using i.vars_nodup hi
  | .forOf _ _ none _, _, _, _ => by simp [Header.vars, varIds]
  | .forOf _ _ (some k) _, _, _, _ => by cases k <;> simp [Header.vars, varIds]
  | .unknown .., _, _, _ => by simp [Header.vars, varIds]

end

/-- In numbered statements, no two of the lexical declarations are the same node. -/
theorem Stmt.lexicals_nodup {ss : List (Stmt Mark)} {n m : Nat}
    (h : Consecutive n (Stmt.nodesOfList ss) m) :
    (Lexical.ids (ss.filterMap Stmt.lexical?)).Nodup := by
  induction ss generalizing n with
  | nil => simp [Lexical.ids]
  | cons s ss ih =>
    obtain ⟨k, hs, hss⟩ := h.of_append
    rw [List.filterMap_cons]
    cases hl : s.lexical? with
    | none => exact ih hss
    | some l =>
      rw [Lexical.ids, List.map_cons, List.nodup_cons]
      refine ⟨fun hmem => ?_, ih hss⟩
      obtain ⟨l', hl', he⟩ := List.mem_map.1 hmem
      exact hs.ne hss (Stmt.lexical?_mem hl) (Stmt.lexicals_mem hl') he.symm

/-- The `var`s of statements and their own `let`s and `const`s are different nodes. -/
theorem Stmt.vars_ne_lexicals {ss : List (Stmt Mark)} {n m : Nat}
    (h : Consecutive n (Stmt.nodesOfList ss) m) {v : Name × Mark} (hv : v ∈ Stmt.varsOfList ss)
    {l : Lexical Mark} (hl : l ∈ ss.filterMap Stmt.lexical?) : v.2.id ≠ l.mark.id := by
  induction ss generalizing n with
  | nil => simp at hl
  | cons s ss ih =>
    obtain ⟨k, hs, hss⟩ := h.of_append
    have hl' : s.lexical? = some l ∨ l ∈ ss.filterMap Stmt.lexical? := by
      rw [List.filterMap_cons] at hl
      cases hs : s.lexical? with
      | none =>
        rw [hs] at hl
        exact .inr hl
      | some k =>
        rw [hs] at hl
        exact (List.mem_cons.1 hl).imp_left fun he => congrArg some he.symm
    intro he
    rcases List.mem_append.1 (by simpa [Stmt.varsOfList] using hv) with hv | hv <;>
      rcases hl' with hl | hl
    · rw [Stmt.vars_of_lexical? hl] at hv
      cases hv
    · exact hs.ne hss (s.vars_mem hv) (Stmt.lexicals_mem hl) he
    · exact hs.ne hss (Stmt.lexical?_mem hl) (Stmt.varsOfList_mem ss hv) he.symm
    · exact ih hss hv hl he

end FlatScope
