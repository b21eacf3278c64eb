import FlatScope.Proofs.Scope.WellScoped

/-!
# Trees by what they are without their marks

A tree whose marks were changed is of the form that it had before. So what a tree is made of can be
read off what becomes of it (`Expr.of_map_unary` and its companions).
-/

namespace FlatScope

variable {α β : Type} {f : α → β}

namespace Expr

variable {e : Expr α} {b : β} {x y : Expr β}

/-- What became a literal was one. -/
theorem of_map_literal {v : Literal} (h : e.map f = .literal b v) : ∃ a, e = .literal a v := by
  cases e with
  | literal a w =>
    cases h
    exact ⟨a, rfl⟩
  | signal _ _ v => cases v <;> cases h
  | _ => cases h

/-- What became a name was the same name. -/
theorem of_map_name {n : Name} (h : e.map f = .name b n) : ∃ a, e = .name a n := by
  cases e with
  | name a m =>
    cases h
    exact ⟨a, rfl⟩
  | signal _ _ v => cases v <;> cases h
  | _ => cases h

/-- What became a unary operation was one, with the same operator. -/
theorem of_map_unary {op : UnaryOp} (h : e.map f = .unary b op x) :
    ∃ a e', e = .unary a op e' ∧ e'.map f = x := by
  cases e with
  | unary a _ e' =>
    cases h
    exact ⟨a, e', rfl, rfl⟩
  | signal _ _ v => cases v <;> cases h
  | _ => cases h

/-- What became a binary operation was one, with the same operator. -/
theorem of_map_binary {op : BinaryOp} (h : e.map f = .binary b op x y) :
    ∃ a l r, e = .binary a op l r ∧ l.map f = x ∧ r.map f = y := by
  cases e with
  | binary a _ l r =>
    cases h
    exact ⟨a, l, r, rfl, rfl, rfl⟩
  | signal _ _ v => cases v <;> cases h
  | _ => cases h

/-- What became a call was one, and the function and the arguments became their parts. -/
theorem of_map_call {xs : List (Expr β)} (h : e.map f = .call b x xs) :
    ∃ a g args, e = .call a g args ∧ g.map f = x ∧ mapList f args = xs := by
  cases e with
  | call a g args =>
    cases h
    exact ⟨a, g, args, rfl, rfl, rfl⟩
  | signal _ _ v => cases v <;> cases h
  | _ => cases h

/-- What became an array was one. -/
theorem of_map_array {xs : List (Expr β)} (h : e.map f = .array b xs) :
    ∃ a es, e = .array a es ∧ mapList f es = xs := by
  cases e with
  | array a es =>
    cases h
    exact ⟨a, es, rfl, rfl⟩
  | signal _ _ v => cases v <;> cases h
  | _ => cases h

/-- What became an element of a sequence was one. -/
theorem of_map_index (h : e.map f = .index b x y) :
    ∃ a l r, e = .index a l r ∧ l.map f = x ∧ r.map f = y := by
  cases e with
  | index a l r =>
    cases h
    exact ⟨a, l, r, rfl, rfl, rfl⟩
  | signal _ _ v => cases v <;> cases h
  | _ => cases h

/-- What became a function was one, with the same parameters. -/
theorem of_map_function {ps : List Name} {c : β} {xs : List (Stmt β)}
    (h : e.map f = .function b ps (.mk c xs)) :
    ∃ a k ss, e = .function a ps (.mk k ss) ∧ Stmt.mapList f ss = xs := by
  cases e with
  | function a _ body =>
    obtain ⟨k, ss⟩ := body
    cases h
    exact ⟨a, k, ss, rfl, rfl⟩
  | signal _ _ v => cases v <;> cases h
  | _ => cases h

/-- What became a signal with a value was one, of the same kind. -/
theorem of_map_signal {k : SignalKind} (h : e.map f = .signal b k (some x)) :
    ∃ a e', e = .signal a k (some e') ∧ e'.map f = x := by
  cases e with
  | signal a _ v =>
    cases v with
    | none => cases h
    | some e' =>
      cases h
      exact ⟨a, e', rfl, rfl⟩
  | _ => cases h

/-- What became a test for a signal was one, for the same kind. -/
theorem of_map_signalIs {k : SignalKind} (h : e.map f = .signalIs b x k) :
    ∃ a e', e = .signalIs a e' k ∧ e'.map f = x := by
  cases e with
  | signalIs a e' _ =>
    cases h
    exact ⟨a, e', rfl, rfl⟩
  | signal _ _ v => cases v <;> cases h
  | _ => cases h

/-- What became the value of a signal was one. -/
theorem of_map_signalValue (h : e.map f = .signalValue b x) :
    ∃ a e', e = .signalValue a e' ∧ e'.map f = x := by
  cases e with
  | signalValue a e' =>
    cases h
    exact ⟨a, e', rfl, rfl⟩
  | signal _ _ v => cases v <;> cases h
  | _ => cases h

/-- An unknown expression was unknown before. -/
theorem of_map_unknown {n : Text} (h : e.map f = .unknown b n) : ∃ a, e = .unknown a n := by
  cases e with
  | unknown a _ =>
    cases h
    exact ⟨a, rfl⟩
  | signal _ _ v => cases v <;> cases h
  | _ => cases h

/-- Nothing comes of no expressions only. -/
theorem of_mapList_nil {es : List (Expr α)} (h : mapList f es = []) : es = [] := by
  cases es with
  | nil => rfl
  | cons => cases h

/-- A list with a first expression had one before. -/
theorem of_mapList_cons {es : List (Expr α)} {xs : List (Expr β)} (h : mapList f es = x :: xs) :
    ∃ e es', es = e :: es' ∧ e.map f = x ∧ mapList f es' = xs := by
  cases es with
  | nil => cases h
  | cons e es =>
    cases h
    exact ⟨e, es, rfl, rfl, rfl⟩

end Expr

/-- The statements of a block were those of the block before. -/
theorem Block.of_map {b : Block α} {m : β} {xs : List (Stmt β)} (h : b.map f = .mk m xs) :
    ∃ k ss, b = .mk k ss ∧ Stmt.mapList f ss = xs := by
  obtain ⟨k, ss⟩ := b
  cases h
  exact ⟨k, ss, rfl, rfl⟩

namespace Stmt

variable {s : Stmt α} {b : β} {x y : Expr β} {c d : Block β}

/-- What became a declaration was one, of the same variable and kind. -/
theorem of_map_declaration {n : Name} {k : DeclKind} {v : Option (Expr β)}
    (h : s.map f = .declaration b n k v) :
    ∃ a w, s = .declaration a n k w ∧ w.map (Expr.map f) = v := by
  cases s with
  | declaration a _ _ w =>
    cases w <;> cases h
    · exact ⟨a, none, rfl, rfl⟩
    · exact ⟨a, some _, rfl, rfl⟩
  | branch _ _ _ o => cases o <;> cases h
  | ret _ v => cases v <;> cases h
  | _ => cases h

/-- What became an assignment was one. -/
theorem of_map_assignment (h : s.map f = .assignment b x y) :
    ∃ a t v, s = .assignment a t v ∧ t.map f = x ∧ v.map f = y := by
  cases s with
  | assignment a t v =>
    cases h
    exact ⟨a, t, v, rfl, rfl, rfl⟩
  | declaration _ _ _ v => cases v <;> cases h
  | branch _ _ _ o => cases o <;> cases h
  | ret _ v => cases v <;> cases h
  | _ => cases h

/-- What became an expression statement was one. -/
theorem of_map_expression (h : s.map f = .expression b x) :
    ∃ a e, s = .expression a e ∧ e.map f = x := by
  cases s with
  | expression a e =>
    cases h
    exact ⟨a, e, rfl, rfl⟩
  | declaration _ _ _ v => cases v <;> cases h
  | branch _ _ _ o => cases o <;> cases h
  | ret _ v => cases v <;> cases h
  | _ => cases h

/-- What became a block was one. -/
theorem of_map_block (h : s.map f = .block c) : ∃ k, s = .block k ∧ k.map f = c := by
  cases s with
  | block k =>
    cases h
    exact ⟨k, rfl, rfl⟩
  | declaration _ _ _ v => cases v <;> cases h
  | branch _ _ _ o => cases o <;> cases h
  | ret _ v => cases v <;> cases h
  | _ => cases h

/-- What became an `if` was one, with an `else` if it has one now. -/
theorem of_map_branch {o : Option (Block β)} (h : s.map f = .branch b x c o) :
    ∃ a e t r, s = .branch a e t r ∧ e.map f = x ∧ t.map f = c ∧ r.map (Block.map f) = o := by
  cases s with
  | branch a e t r =>
    cases r <;> cases h
    · exact ⟨a, e, t, none, rfl, rfl, rfl, rfl⟩
    · exact ⟨a, e, t, some _, rfl, rfl, rfl, rfl⟩
  | declaration _ _ _ v => cases v <;> cases h
  | ret _ v => cases v <;> cases h
  | _ => cases h

/-- What became a loop was one. -/
theorem of_map_loop {z : Header β} (h : s.map f = .loop b z c) :
    ∃ a g k, s = .loop a g k ∧ g.map f = z ∧ k.map f = c := by
  cases s with
  | loop a g k =>
    cases h
    exact ⟨a, g, k, rfl, rfl, rfl⟩
  | declaration _ _ _ v => cases v <;> cases h
  | branch _ _ _ o => cases o <;> cases h
  | ret _ v => cases v <;> cases h
  | _ => cases h

/-- What became a `return` of a value was one. -/
theorem of_map_ret (h : s.map f = .ret b (some x)) : ∃ a e, s = .ret a (some e) ∧ e.map f = x := by
  cases s with
  | ret a v =>
    cases v with
    | none => cases h
    | some e =>
      cases h
      exact ⟨a, e, rfl, rfl⟩
  | declaration _ _ _ v => cases v <;> cases h
  | branch _ _ _ o => cases o <;> cases h
  | _ => cases h

/-- What became a `break` was one. -/
theorem of_map_brk (h : s.map f = .brk b) : ∃ a, s = .brk a := by
  cases s with
  | brk a =>
    cases h
    exact ⟨a, rfl⟩
  | declaration _ _ _ v => cases v <;> cases h
  | branch _ _ _ o => cases o <;> cases h
  | ret _ v => cases v <;> cases h
  | _ => cases h

/-- What became a `continue` was one. -/
theorem of_map_cont (h : s.map f = .cont b) : ∃ a, s = .cont a := by
  cases s with
  | cont a =>
    cases h
    exact ⟨a, rfl⟩
  | declaration _ _ _ v => cases v <;> cases h
  | branch _ _ _ o => cases o <;> cases h
  | ret _ v => cases v <;> cases h
  | _ => cases h

/-- An unknown statement was unknown before. -/
theorem of_map_unknown {n : Text} (h : s.map f = .unknown b n) : ∃ a, s = .unknown a n := by
  cases s with
  | unknown a _ =>
    cases h
    exact ⟨a, rfl⟩
  | declaration _ _ _ v => cases v <;> cases h
  | branch _ _ _ o => cases o <;> cases h
  | ret _ v => cases v <;> cases h
  | _ => cases h

variable {ss : List (Stmt α)} {xs ys : List (Stmt β)}

/-- Nothing comes of no statements only. -/
theorem of_mapList_nil (h : mapList f ss = []) : ss = [] := by
  cases ss with
  | nil => rfl
  | cons => cases h

/-- A list with a first statement had one before. -/
theorem of_mapList_cons {z : Stmt β} (h : mapList f ss = z :: xs) :
    ∃ s ss', ss = s :: ss' ∧ s.map f = z ∧ mapList f ss' = xs := by
  cases ss with
  | nil => cases h
  | cons s ss =>
    cases h
    exact ⟨s, ss, rfl, rfl, rfl⟩

/-- A single statement was single before. -/
theorem of_mapList_one {z : Stmt β} (h : mapList f ss = [z]) : ∃ s, ss = [s] ∧ s.map f = z := by
  obtain ⟨s, ss', rfl, hs, h⟩ := of_mapList_cons h
  obtain rfl := of_mapList_nil h
  exact ⟨s, rfl, hs⟩

/-- Where a list of statements is cut now, it could be cut before. -/
theorem of_mapList_append (h : mapList f ss = xs ++ ys) :
    ∃ ss₁ ss₂, ss = ss₁ ++ ss₂ ∧ mapList f ss₁ = xs ∧ mapList f ss₂ = ys := by
  simp only [mapList_eq] at h ⊢
  exact List.map_eq_append_iff.1 h

end Stmt

namespace Header

variable {h : Header α} {b : β} {x : Expr β}

/-- What became the header of a `while` was one. -/
theorem of_map_whileTrue (hx : h.map f = .whileTrue b x) :
    ∃ a c, h = .whileTrue a c ∧ c.map f = x := by
  cases h with
  | whileTrue a c =>
    cases hx
    exact ⟨a, c, rfl, rfl⟩
  | counting _ i c u => cases i <;> cases c <;> cases u <;> cases hx
  | _ => cases hx

/-- What became the header of a `for` was one, with the clauses that it has now. -/
theorem of_map_counting {i u : Option (Stmt β)} {c : Option (Expr β)}
    (hx : h.map f = .counting b i c u) : ∃ a i' c' u', h = .counting a i' c' u' ∧
      i'.map (Stmt.map f) = i ∧ c'.map (Expr.map f) = c ∧ u'.map (Stmt.map f) = u := by
  cases h with
  | counting a i' c' u' =>
    cases i' <;> cases c' <;> cases u' <;> cases hx <;> exact ⟨a, _, _, _, rfl, rfl, rfl, rfl⟩
  | _ => cases hx

/-- What became the header of a loop over a sequence was one, of the same variable and kind. -/
theorem of_map_forOf {n : Name} {k : Option DeclKind} (hx : h.map f = .forOf b n k x) :
    ∃ a e, h = .forOf a n k e ∧ e.map f = x := by
  cases h with
  | forOf a _ _ e =>
    cases hx
    exact ⟨a, e, rfl, rfl⟩
  | counting _ i c u => cases i <;> cases c <;> cases u <;> cases hx
  | _ => cases hx

/-- An unknown header was unknown before. -/
theorem of_map_unknown {n : Text} (hx : h.map f = .unknown b n) : ∃ a, h = .unknown a n := by
  cases h with
  | unknown a _ =>
    cases hx
    exact ⟨a, rfl⟩
  | counting _ i c u => cases i <;> cases c <;> cases u <;> cases hx
  | _ => cases hx

end Header

end FlatScope
