import FlatScope.Span

/-!
# The text at a place

A position says how many line feeds a source holds before it, and how many code points after the
last of these (`Position.after_origin`). Positions grow along a source, so two of them cut a piece
out of it: what stands between the position after `t` and the one after `t ++ u` is `u`
(`Text.piece_after`).
-/

namespace FlatScope

open Text (code)

/-! ## Counting -/

/-- The line of the code point after a text. -/
def Text.line (t : Text) : Nat := t.count (code '\n') + 1

/-- The column of the code point after a text. -/
def Text.column (t : Text) : Nat := (t.reverse.takeWhile (· ≠ code '\n')).length + 1

theorem Position.after_append (p : Position) (t u : Text) :
    p.after (t ++ u) = (p.after t).after u := List.foldl_append

@[simp] theorem Position.after_nil (p : Position) : p.after [] = p := rfl

theorem Position.after_cons (p : Position) (c : CodePoint) (t : Text) :
    p.after (c :: t) = (p.next c).after t := rfl

theorem Position.after_origin (t : Text) : Position.origin.after t = ⟨t.line, t.column⟩ := by
  -- the last code point comes last to the position and first to the column
  have hrev (u : Text) :
      Position.origin.after u.reverse = ⟨Text.line u.reverse, Text.column u.reverse⟩ := by
    induction u with
    | nil => rfl
    | cons c u ih =>
      rw [List.reverse_cons, after_append, ih]
      simp only [after_cons, after_nil, next, Text.line, Text.column, List.count_append,
        List.count_singleton, List.reverse_append, List.reverse_reverse, List.reverse_singleton,
        List.singleton_append]
      by_cases hc : c = code '\n'
      · simp [hc]
      · simp [hc]
  simpa using hrev t.reverse

/-! ## The order of positions -/

/-- A position that comes before another in every source. -/
def Position.Before (p q : Position) : Prop :=
  p.line < q.line ∨ p.line = q.line ∧ p.column < q.column

instance (p q : Position) : Decidable (p.Before q) := inferInstanceAs (Decidable (_ ∨ _))

namespace Position.Before

variable {p q r : Position}

theorem irrefl (p : Position) : ¬ p.Before p := by simp [Position.Before]

theorem trans (h : p.Before q) (h' : q.Before r) : p.Before r := by
  unfold Position.Before at *
  omega

theorem trans_not (h : p.Before q) (h' : ¬ r.Before q) : p.Before r := by
  unfold Position.Before at *
  omega

theorem next (p : Position) (c : CodePoint) : p.Before (p.next c) := by
  unfold Position.next
  split
  · exact .inl (Nat.lt_succ_self _)
  · exact .inr ⟨rfl, Nat.lt_succ_self _⟩

end Position.Before

/-- Positions grow along a text. -/
theorem Position.not_after_before (p : Position) (t : Text) : ¬ (p.after t).Before p := by
  induction t generalizing p with
  | nil => exact Before.irrefl p
  | cons c t ih => exact fun h => ih (p.next c) (h.trans (Before.next p c))

/-! ## Pieces of a source -/

/-- A position from the start of an extent up to its stop. -/
def Extent.Holds (e : Extent) (p : Position) : Prop := ¬ p.Before e.start ∧ p.Before e.stop

instance (e : Extent) (p : Position) : Decidable (e.Holds p) :=
  inferInstanceAs (Decidable (_ ∧ _))

/-- The code points of a text that starts at `p`, each with its position. -/
def Text.placed (p : Position) : Text → List (Position × CodePoint)
  | [] => []
  | c :: t => (p, c) :: placed (p.next c) t

/-- What a source holds from a position on. -/
def Text.startingAt (source : Text) (p : Position) : Text :=
  ((source.placed .origin).filter (¬ ·.1.Before p)).map (·.2)

/-- The piece of a source from the start of an extent up to its stop. -/
def Text.piece (source : Text) (e : Extent) : Text :=
  ((source.placed .origin).filter (e.Holds ·.1)).map (·.2)

namespace Text

theorem placed_append (p : Position) (t u : Text) :
    placed p (t ++ u) = placed p t ++ placed (p.after t) u := by
  induction t generalizing p with
  | nil => rfl
  | cons c t ih => rw [List.cons_append, placed, placed, ih, List.cons_append, Position.after_cons]

@[simp] theorem map_placed (p : Position) (t : Text) : (placed p t).map (·.2) = t := by
  induction t generalizing p with
  | nil => rfl
  | cons c t ih => rw [placed, List.map_cons, ih]

/-- The code points of a text stand before its end, and not before its start. -/
theorem mem_placed {p : Position} {t : Text} {x : Position × CodePoint} (h : x ∈ placed p t) :
    (⟨p, p.after t⟩ : Extent).Holds x.1 := by
  induction t generalizing p with
  | nil => exact nomatch h
  | cons c t ih =>
    rw [Position.after_cons]
    rcases List.mem_cons.mp h with rfl | h
    · refine ⟨Position.Before.irrefl p, ?_⟩
      exact (Position.Before.next p c).trans_not ((p.next c).not_after_before t)
    · obtain ⟨hstart, hstop⟩ := ih h
      exact ⟨fun hx => hstart (hx.trans (Position.Before.next p c)), hstop⟩

/-- What a source holds from the position after the text that it begins with. -/
theorem startingAt_after (t u : Text) : (t ++ u).startingAt (Position.origin.after t) = u := by
  have hbefore : (placed .origin t).filter (¬ ·.1.Before (Position.origin.after t)) = [] := by
    simpa using fun p c h => (mem_placed h).2
  have hfrom : (placed (Position.origin.after t) u).filter
      (¬ ·.1.Before (Position.origin.after t)) = placed (Position.origin.after t) u := by
    simpa using fun p c h => (mem_placed h).1
  rw [startingAt, placed_append, List.filter_append, hbefore, hfrom, List.nil_append, map_placed]

/-- The piece of a source between the positions after two texts that it begins with. -/
theorem piece_after (t u v : Text) :
    (t ++ u ++ v).piece ⟨Position.origin.after t, Position.origin.after (t ++ u)⟩ = u := by
  let e : Extent := ⟨Position.origin.after t, Position.origin.after (t ++ u)⟩
  have hbefore : ∀ x ∈ placed .origin t, ¬ e.Holds x.1 := fun x hx h => h.1 (mem_placed hx).2
  have hpiece : ∀ x ∈ placed (Position.origin.after t) u, e.Holds x.1 := by
    intro x hx
    simpa only [e, Position.after_append] using mem_placed hx
  have hbehind : ∀ x ∈ placed (Position.origin.after (t ++ u)) v, ¬ e.Holds x.1 :=
    fun x hx h => (mem_placed hx).1 h.2
  change ((placed .origin (t ++ u ++ v)).filter (e.Holds ·.1)).map (·.2) = u
  rw [placed_append, placed_append, List.filter_append, List.filter_append,
    List.filter_eq_nil_iff.mpr (by simpa using hbefore),
    List.filter_eq_self.mpr (by simpa using hpiece),
    List.filter_eq_nil_iff.mpr (by simpa using hbehind), List.nil_append, List.append_nil,
    map_placed]

end Text

end FlatScope
