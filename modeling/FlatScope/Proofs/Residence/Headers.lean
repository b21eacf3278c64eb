import FlatScope.Proofs.Lowering.WriteBack

/-!
# What functions in headers use

A loop that counts has one variable for all iterations in the header of the transformed loop, but a
new one for every iteration in the program. Nobody can tell the difference if no function in the
header uses the binding of the header (`Program.ClosedHeaders`), which can be tested.
-/

namespace FlatScope

/-- The node of a name that is read. -/
def Node.read? {α : Type} : Node α → Option α
  | .expr (.name m _) => some m
  | _ => none

/-- The body of a function. -/
def Node.body? {α : Type} : Node α → Option (Block α)
  | .expr (.function _ _ b) => some b
  | _ => none

/-- A loop that counts, and its header. -/
def Node.counting? {α : Type} : Node α → Option (α × Header α)
  | .stmt (.loop m (.counting k i c u) _) => some (m, .counting k i c u)
  | _ => none

namespace Scoping

variable (a : Scoping) (b : BindingId) (ns : List (Node Mark))

instance : Decidable (a.WrittenIn b ns) :=
  inferInstanceAs (Decidable (∃ y ∈ ns, ∃ m ∈ y.target?, _))

instance : Decidable (a.UsedIn b ns) :=
  decidable_of_iff (a.WrittenIn b ns ∨
    ∃ y ∈ ns, ∃ m ∈ y.read?, (a.referenceAt? m.id).bind (·.binding) = some b) <| by
    refine or_congr_right ⟨?_, ?_⟩
    · rintro ⟨y, hy, m, hm, h⟩
      rw [Node.read?.eq_def] at hm
      split at hm
      next k n =>
        cases hm
        exact ⟨m, n, hy, h⟩
      next => cases hm
    · rintro ⟨m, n, hy, h⟩
      exact ⟨_, hy, m, rfl, h⟩

instance : Decidable (a.ClosesOver ns b) :=
  decidable_of_iff (∃ y ∈ ns, ∃ c ∈ y.body?, a.UsedIn b c.nodes) <| by
    refine ⟨?_, ?_⟩
    · rintro ⟨y, hy, c, hc, h⟩
      rw [Node.body?.eq_def] at hc
      split at hc
      next m ps b =>
        cases hc
        exact ⟨m, ps, c, hy, h⟩
      next => cases hc
    · rintro ⟨m, ps, c, hy, h⟩
      exact ⟨_, hy, c, rfl, h⟩

end Scoping

/-- No function in the header of a `for` that counts uses the binding of the header. -/
def FunctionDef.ClosedHeaders (fn : FunctionDef Mark) (a : Scoping) : Prop :=
  ∀ y ∈ fn.nodes, ∀ l ∈ y.counting?, ∀ d ∈ a.bindings, d.scope = l.1.id →
    ¬ a.ClosesOver l.2.nodes d.id

instance (fn : FunctionDef Mark) (a : Scoping) : Decidable (fn.ClosedHeaders a) :=
  inferInstanceAs (Decidable (∀ y ∈ fn.nodes, ∀ l ∈ y.counting?, ∀ d ∈ a.bindings,
    d.scope = l.1.id → ¬ a.ClosesOver l.2.nodes d.id))

/-- In no function of the program and not in its statements does a function in the header of a `for`
    that counts use the binding of the header. -/
def Program.ClosedHeaders (p : Program Span) (globals : List Name) : Prop :=
  ∀ fn ∈ p.main .unknown :: p.functions, ∀ a ∈ (fn.number.resolve globals).toOption,
    fn.number.ClosedHeaders a

instance (p : Program Span) (globals : List Name) : Decidable (p.ClosedHeaders globals) :=
  inferInstanceAs (Decidable (∀ fn ∈ p.main .unknown :: p.functions,
    ∀ a ∈ (fn.number.resolve globals).toOption, fn.number.ClosedHeaders a))

end FlatScope
