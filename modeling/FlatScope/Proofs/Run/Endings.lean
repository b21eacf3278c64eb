import FlatScope.Eval.Session
import FlatScope.Proofs.Run.Steps

/-!
# How programs end

The end of a program as it is seen from outside: the lines that were printed, and what stopped the
program if it did not come to its end. A program has at most one end (`Program.EndsWith.unique`),
however many steps it is given.
-/

namespace FlatScope

/-- What is seen of a program that has ended. -/
structure Ending where
  lines : List Text
  /-- What stopped the program, unless it came to its end. -/
  stop : Option Interrupt
  deriving DecidableEq, Repr

namespace Outcome

/-- What is seen of a finished program, given what is printed in a state. -/
def ending? {σ α : Type} (lines : σ → List Text) : Outcome σ α → Option Ending
  | .done _ s => some ⟨lines s, none⟩
  | .interrupted w s => some ⟨lines s, some w⟩
  | .outOfFuel => none

theorem ending?_ended {σ α : Type} {lines : σ → List Text} {r : Except Interrupt α} {s : σ} :
    (ended r s).ending? lines = some ⟨lines s, match r with
      | .ok _ => none
      | .error w => some w⟩ := by
  cases r <;> rfl

theorem ended_of_ending? {σ α : Type} {lines : σ → List Text} {o : Outcome σ α} {e : Ending}
    (h : o.ending? lines = some e) : ∃ r s, o = ended r s := by
  rcases o.cases_ended with rfl | ho
  · cases h
  · exact ho

end Outcome

/-- Runs a program within the given number of steps. A program that cannot be loaded has printed
    nothing. -/
def Program.run (p : Program Span) (fuel : Nat) : Option Ending :=
  match Eval.initialStore p with
  | .error e => some ⟨[], some (.failed e)⟩
  | .ok s => (Eval.main fuel p s).ending? Store.lines

/-- A program ends, and that is seen of it. -/
def Program.EndsWith (p : Program Span) (e : Ending) : Prop := ∃ fuel, p.run fuel = some e

/-- A program that has ended ends in the same way within more steps. -/
theorem Program.run_mono {p : Program Span} {m n : Nat} {e : Ending} (h : p.run m = some e)
    (hmn : m ≤ n) : p.run n = some e := by
  have hgrows : Process.Grows fun n => Eval.main n p := fun n => (Eval.more n).callClosure _ _
  rw [run] at h ⊢
  cases hs : Eval.initialStore p with
  | error e => rwa [hs] at h
  | ok s =>
    rw [hs] at h
    dsimp only at h ⊢
    have hbefore : (Eval.main m p s).Before (Eval.main n p s) := hgrows.before hmn s
    rcases hbefore with ho | ho
    · rw [ho] at h
      cases h
    · rwa [← ho]

/-- A program has at most one end. -/
theorem Program.EndsWith.unique {p : Program Span} {e e' : Ending} (h : p.EndsWith e)
    (h' : p.EndsWith e') : e = e' := by
  obtain ⟨m, hm⟩ := h
  obtain ⟨n, hn⟩ := h'
  have hmn := (run_mono hm (Nat.le_max_left m n)).symm.trans (run_mono hn (Nat.le_max_right m n))
  exact Option.some.inj hmn

end FlatScope
