import FlatScope.Syntax

/-!
# Fresh names

A `NameSupply` makes names that nobody else uses: a stem and a number, which goes up with every
name made from any stem, so far as to pass by the names that are taken. A fresh name is taken from
then on.
-/

namespace FlatScope

/-- The number last used and the names that are taken. -/
structure NameSupply where
  count : Nat
  taken : List Name
  deriving DecidableEq, Repr

namespace NameSupply

/-- A supply that has not made any name yet. -/
def ofTaken (taken : List Name) : NameSupply := ⟨0, taken⟩

/-- The name of the given number. -/
def numbered (stem : Name) (n : Nat) : Name := stem ++ Text.ofNat n

/-- The first number above the last one whose name is not taken. One of as many numbers as there
    are taken names, and one more, is free. -/
def nextNumber (s : NameSupply) (stem : Name) : Nat :=
  ((List.range' (s.count + 1) (s.taken.length + 1)).find? fun n =>
    !s.taken.contains (numbered stem n)).getD (s.count + 1)

/-- A name with the given stem that is not taken, and the supply without it. -/
def fresh (s : NameSupply) (stem : Name) : Name × NameSupply :=
  let n := s.nextNumber stem
  (numbered stem n, ⟨n, numbered stem n :: s.taken⟩)

end NameSupply

end FlatScope
