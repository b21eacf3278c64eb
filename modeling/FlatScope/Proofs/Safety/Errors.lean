import FlatScope.Eval

/-!
# Where errors come from

An error has its cause in the values that a program computes with (`RunError.OfValues`), or in its
names and its code. Whatever is computed from values alone stops by errors of the first kind only
(`Throws`): showing and comparing them, operators of the language, elements of sequences, and the
functions that every program can call.
-/

namespace FlatScope

/-- An error that has its cause in values. -/
def RunError.OfValues : RunError → Prop
  | .notCallable _ | .notIterable _ | .notIndexable _ | .notNegatable _ | .operands ..
  | .elementTarget
  | .argumentCount .. | .pushTarget _ | .lenArgument _ | .noInteger _ | .integerText _
  | .integerTooLong _ | .number _ | .cyclic => True
  | _ => False

/-- All errors that a computation may stop by are of a kind. -/
def Throws {α : Type} (P : RunError → Prop) (x : Except RunError α) : Prop :=
  ∀ e, x = .error e → P e

namespace Throws

variable {α β : Type} {P Q : RunError → Prop} {x : Except RunError α} {f : α → Except RunError β}

/-- A result is no error. -/
theorem ok (a : α) : Throws P (.ok a) := nofun

/-- An error of the kind. -/
theorem error {e : RunError} (h : P e) : Throws P (.error e : Except RunError α) := by
  rintro _ ⟨⟩
  exact h

/-- Errors of one kind are of any kind that includes it. -/
theorem mono (h : ∀ e, P e → Q e) (hx : Throws P x) : Throws Q x := fun e he => h e (hx e he)

/-- One computation after the other. -/
theorem bind (hx : Throws P x) (hf : ∀ a, Throws P (f a)) : Throws P (x >>= f) := by
  cases x with
  | error e => exact error (hx e rfl)
  | ok a => exact hf a

/-- A function of a result. -/
theorem map {g : α → β} (hx : Throws P x) : Throws P (g <$> x) := by
  cases x with
  | error e => exact error (hx e rfl)
  | ok a => exact ok _

/-- The same computation for each element of a list. -/
theorem mapM {xs : List α} (hf : ∀ a, Throws P (f a)) : Throws P (xs.mapM f) := by
  induction xs with
  | nil => exact ok _
  | cons x xs ih =>
    rw [List.mapM_cons]
    exact (hf x).bind fun _ => ih.bind fun _ => ok _

end Throws

namespace Value

variable {s : Store}

/-! ## Texts -/

/-- Showing a number fails by its size only. -/
theorem numberText_throws (x : Except Number.Fault Text) :
    Throws RunError.OfValues (numberText x) := by
  cases x with
  | ok t => exact .ok _
  | error f => exact .error trivial

/-- Showing a value fails by values if showing arrays does. -/
theorem explicitText_throws {arrayText : Nat → Except RunError Text}
    (h : ∀ i, Throws RunError.OfValues (arrayText i)) (v : Value) :
    Throws RunError.OfValues (explicitText s arrayText v) := by
  induction v with
  | number n =>
    cases n with
    | int n => exact numberText_throws _
    | double d => exact .ok _
  | array i => exact h i
  | signal k v ih =>
    cases k with
    | ret => exact ih.bind fun _ => .ok _
    | brk | cont => exact .ok _
  | _ => exact .ok _

/-- Showing an array fails by values, at any depth. -/
theorem explicitArray_throws (fuel : Nat) (around : List Nat) (i : Nat) :
    Throws RunError.OfValues (explicitArray s fuel around i) := by
  induction fuel generalizing around i with
  | zero => exact .ok _
  | succ n ih =>
    rw [explicitArray]
    split
    · exact .ok _
    · exact (Throws.mapM fun v => explicitText_throws (fun i => ih _ i) v).bind fun _ => .ok _

/-- Showing a value as a part of a text fails by values. -/
theorem textFrom_throws (fuel : Nat) (v : Value) :
    Throws RunError.OfValues (textFrom s fuel v) := by
  induction fuel generalizing v with
  | zero => exact .error trivial
  | succ n ih =>
    cases v with
    | number m => exact numberText_throws _
    | array i => exact (Throws.mapM ih).bind fun _ => .ok _
    | noSignal | signal => exact explicitText_throws (explicitArray_throws _ _) _
    | _ => exact .ok _

/-- A value cannot be shown because of what it is. -/
theorem render_throws (v : Value) : Throws RunError.OfValues (v.render s) := textFrom_throws _ v

/-! ## Comparisons -/

/-- Comparing two values fails by values if comparing arrays does. -/
theorem alikeWith_throws {arrays : Nat → Nat → Except RunError Bool}
    (h : ∀ i j, Throws RunError.OfValues (arrays i j)) (v w : Value) :
    Throws RunError.OfValues (alikeWith s arrays v w) := by
  fun_induction alikeWith s arrays v w with
  | case2 a b hne => exact h a b
  | case4 k v w ih => exact ih
  | _ => exact .ok _

/-- Comparing lists in pairs fails by values if comparing a pair does. -/
theorem allPairs_throws {p : Value → Value → Except RunError Bool}
    (h : ∀ v w, Throws RunError.OfValues (p v w)) (vs ws : List Value) :
    Throws RunError.OfValues (allPairs p vs ws) := by
  fun_induction allPairs p vs ws with
  | case2 v vs w ws ih =>
    refine (h v w).bind fun b => ?_
    split
    · exact ih
    · exact .ok _
  | _ => exact .ok _

/-- Comparing arrays fails by values, at any depth. -/
theorem arraysAlike_throws (fuel i j : Nat) :
    Throws RunError.OfValues (arraysAlike s fuel i j) := by
  induction fuel generalizing i j with
  | zero => exact .error trivial
  | succ n ih =>
    rw [arraysAlike]
    split
    · exact allPairs_throws (alikeWith_throws ih) _ _
    · exact .ok _

/-- Comparing two values fails by values. -/
theorem equal_throws (v w : Value) : Throws RunError.OfValues (v.equal s w) := by
  rw [equal.eq_def]
  split
  · exact .ok _
  · split
    · exact alikeWith_throws (arraysAlike_throws _) _ _
    · exact .ok _
  · exact .ok _

/-! ## Operators -/

/-- An operator is refused if it is none of the language. -/
theorem unary_throws (op : UnaryOp) (v : Value) :
    Throws (fun e => e.OfValues ∨ ∃ t, op = .other t ∧ e = .unknownUnary op) (v.unary s op) := by
  cases op with
  | not => exact .ok _
  | neg =>
    cases v with
    | number n => exact .ok _
    | _ =>
      exact .mono (fun _ => .inl)
        ((render_throws _).bind fun _ => .error (P := RunError.OfValues) trivial)
  | other t => exact .error (.inr ⟨t, rfl, rfl⟩)

/-- Arithmetic fails by its numbers. -/
theorem ofNumber_throws (x : Except Number.Fault Number) :
    Throws RunError.OfValues (ofNumber x) := by
  cases x with
  | ok n => exact .ok _
  | error f => exact .error trivial

/-- Operands that an operator refuses are an error of values. -/
theorem refuse_throws (op : BinaryOp) (v w : Value) : Throws RunError.OfValues (refuse s op v w) :=
  (render_throws v).bind fun _ => (render_throws w).bind fun _ => .error trivial

/-- An operator on numbers fails by values. -/
theorem onNumbers_throws {op : BinaryOp}
    (hop : op ∈ [.add, .sub, .mul, .div, .mod, .lt, .le, .gt, .ge]) (m n : Number) :
    Throws RunError.OfValues (onNumbers op m n) := by
  cases op with
  | add | sub | mul | div | mod => exact ofNumber_throws _
  | lt | le | gt | ge => exact .ok _
  | _ => simp at hop

/-- An operator that evaluates both of its operands is refused if it is none of the language. -/
theorem binary_throws {op : BinaryOp} (hop : op ≠ .and ∧ op ≠ .or) (v w : Value) :
    Throws (fun e => e.OfValues ∨ ∃ t, op = .other t ∧ e = .unknownBinary op)
    (v.binary s op w) := by
  have hof : ∀ {x : Except RunError Value}, Throws RunError.OfValues x →
      Throws (fun e => e.OfValues ∨ ∃ t, op = .other t ∧ e = .unknownBinary op) x :=
    fun h => .mono (fun _ => .inl) h
  rw [binary.eq_def]
  split
  · exact hof (equal_throws v w).map
  · exact hof (equal_throws v w).map
  · exact hof ((render_throws w).bind fun _ => .ok _)
  · exact hof ((render_throws v).bind fun _ => .ok _)
  next m n heq hne =>
    cases op with
    | and => exact absurd rfl hop.1
    | or => exact absurd rfl hop.2
    | other t => exact .error (.inr ⟨t, rfl, rfl⟩)
    | eq => exact absurd rfl heq
    | ne => exact absurd rfl hne
    | _ => exact hof (onNumbers_throws (by simp) m n)
  · split
    all_goals first | exact .ok _ | exact hof (refuse_throws _ _ _)
  · exact hof (refuse_throws _ _ _)

/-- Reading an element fails by values. -/
theorem element_throws (base position : Value) :
    Throws RunError.OfValues (base.element s position) := by
  cases base with
  | array | text => exact .ok _
  | _ => exact (render_throws _).bind fun _ => .error trivial

/-- Finding an element to write to fails by values. -/
theorem elementTarget_throws (base position : Value) :
    Throws RunError.OfValues (base.elementTarget position) := by
  unfold elementTarget
  split
  · exact .ok _
  · exact .error trivial

/-- Reading an integer fails by values. -/
theorem toInteger_throws (v : Value) : Throws RunError.OfValues v.toInteger := by
  cases v with
  | number n =>
    rw [toInteger]
    split
    · exact .ok _
    · exact .error trivial
  | text t =>
    rw [toInteger]
    split
    · exact .ok _
    all_goals exact .error trivial
  | bool => exact .ok _
  | _ => exact .error trivial

end Value

namespace Builtin

open Value

variable {s : Store}

/-- A range fails by its bounds. -/
theorem makeRange_throws {lo hi : Except RunError Int} (hlo : Throws RunError.OfValues lo)
    (hhi : Throws RunError.OfValues hi) : Throws RunError.OfValues (makeRange s lo hi).1 := by
  cases lo with
  | error e => exact .error (hlo e rfl)
  | ok i => cases hi with
    | error e => exact .error (hhi e rfl)
    | ok j => exact .ok _

/-- An argument that a function of the language refuses is an error of values. -/
theorem refuse_throws {f : Text → RunError} (h : ∀ t, (f t).OfValues) (v : Value) :
    Throws RunError.OfValues (refuse s f v) := by
  rw [refuse]
  split
  · exact .error (h _)
  · exact .error (render_throws v _ ‹_›)

/-- A function that every program can call fails by values. -/
theorem apply_throws (b : Builtin) (args : List Value) :
    Throws RunError.OfValues (b.apply s args).1 := by
  rw [apply.eq_def]
  split
  · split
    · exact .ok _
    · exact .error (Throws.mapM (fun v => render_throws v) _ ‹_›)
  · exact .ok _
  · exact refuse_throws (f := .pushTarget) (fun _ => trivial) _
  · exact .ok _
  · exact .ok _
  · exact refuse_throws (f := .lenArgument) (fun _ => trivial) _
  · exact makeRange_throws (.ok _) (toInteger_throws _)
  · exact makeRange_throws (toInteger_throws _) (toInteger_throws _)
  · exact (render_throws _).map
  · exact .ok _

/-- So it does with the number of its arguments checked. -/
theorem call_throws (b : Builtin) (args : List Value) :
    Throws RunError.OfValues (b.call s args).1 := by
  rw [call]
  split
  · exact apply_throws b args
  · exact .error trivial

end Builtin

end FlatScope
