import Mathlib.Tactic.Ring
import FlatScope.Token.Value

/-!
# Decimal numerals

What a sequence of decimal digits denotes (`Text.value`), and that the digits that a number is
written with denote it.
-/

namespace FlatScope.Text

/-- A sequence of ASCII digits. -/
def IsDigits (t : Text) : Prop := ∀ c ∈ t, code '0' ≤ c ∧ c ≤ code '9'

/-- The number that a sequence of decimal digits denotes. -/
def value (t : Text) : Nat := ofDigits 10 (Token.digitsOf t)

/-- The digits of ASCII stand for their distance from `0`. -/
theorem decimalDigit?_ascii {c : Nat} (h : 0x30 ≤ c ∧ c ≤ 0x39) :
    decimalDigit? c = some (c - 0x30) := by
  unfold decimalDigit? zeros
  rw [List.find?_cons_of_pos (by simp only [Bool.and_eq_true, decide_eq_true_eq, CodePoint]; omega)]
  rfl

/-- Two runs of digits make one. -/
theorem IsDigits.append {t u : Text} (ht : IsDigits t) (hu : IsDigits u) : IsDigits (t ++ u) :=
  fun c hc => (List.mem_append.mp hc).elim (ht c) (hu c)

/-- Zeros are digits. -/
theorem IsDigits.replicate (n : Nat) : IsDigits (List.replicate n (code '0')) := by
  intro c hc
  obtain rfl := List.eq_of_mem_replicate hc
  exact ⟨Nat.le_refl _, by decide⟩

/-- Digits of ASCII are decimal digits. -/
theorem IsDigits.decimal {t : Text} (h : IsDigits t) : ∀ c ∈ t, isDecimalDigit c := by
  intro c hc
  simp only [isDecimalDigit, decimalDigit?_ascii (h c hc), Option.isSome_some]

/-- The digits of a text by their distance from `0`. -/
theorem digitsOf_eq {t : Text} (h : IsDigits t) : Token.digitsOf t = t.map (· - 0x30) := by
  induction t with
  | nil => rfl
  | cons c t ih =>
    rw [Token.digitsOf, List.filterMap_cons, decimalDigit?_ascii (h c List.mem_cons_self)]
    exact congrArg (_ :: ·) (ih fun d hd => h d (List.mem_cons_of_mem c hd))

/-- To read digits from left to right is to evaluate them after what was read before. -/
theorem foldl_digits (b : Nat) (ds : List Nat) (n : Nat) :
    ds.foldl (fun n d => n * b + d) n = n * b ^ ds.length + ofDigits b ds := by
  induction ds generalizing n with
  | nil => simp [ofDigits]
  | cons d ds ih =>
    simp only [ofDigits, List.foldl_cons, List.length_cons] at ih ⊢
    rw [ih, ih (0 * b + d)]
    ring

/-- The number of a numeral in two parts: the first is shifted by the length of the second. -/
theorem ofDigits_append (b : Nat) (ds es : List Nat) :
    ofDigits b (ds ++ es) = ofDigits b ds * b ^ es.length + ofDigits b es := by
  rw [ofDigits, List.foldl_append, foldl_digits]
  rfl

/-- A numeral of some digits is less than the power with one digit more. -/
theorem ofDigits_lt {ds : List Nat} (h : ∀ d ∈ ds, d < 10) : ofDigits 10 ds < 10 ^ ds.length := by
  induction ds with
  | nil => exact Nat.one_pos
  | cons d ds ih =>
    have hd := h d List.mem_cons_self
    have hds := ih fun e he => h e (List.mem_cons_of_mem d he)
    rw [ofDigits, List.foldl_cons, foldl_digits, List.length_cons]
    calc (0 * 10 + d) * 10 ^ ds.length + ofDigits 10 ds
      _ < d * 10 ^ ds.length + 10 ^ ds.length := by
        rw [Nat.zero_mul, Nat.zero_add]
        exact Nat.add_lt_add_left hds _
      _ = (d + 1) * 10 ^ ds.length := by ring
      _ ≤ 10 * 10 ^ ds.length := Nat.mul_le_mul_right _ hd
      _ = 10 ^ (ds.length + 1) := by ring

/-- A decimal digit is less than ten. -/
theorem decimalDigit?_lt {c d : Nat} (h : decimalDigit? c = some d) : d < 10 := by
  obtain ⟨z, hz, rfl⟩ := Option.map_eq_some_iff.mp h
  have hfound := List.find?_some hz
  simp only [Bool.and_eq_true, decide_eq_true_eq, CodePoint] at hfound
  omega

/-- A numeral of some digits is less than the power with one digit more. -/
theorem value_lt (t : Text) : value t < 10 ^ t.length := by
  have hdigits : ∀ d ∈ Token.digitsOf t, d < 10 := by
    intro d hd
    obtain ⟨c, -, hc⟩ := List.mem_filterMap.mp hd
    exact decimalDigit?_lt hc
  exact Nat.lt_of_lt_of_le (ofDigits_lt hdigits)
    (Nat.pow_le_pow_right (by decide) (List.length_filterMap_le _ _))

/-- The value of a numeral in two parts: the first is shifted by the length of the second. -/
theorem value_append {t u : Text} (hu : IsDigits u) :
    value (t ++ u) = value t * 10 ^ u.length + value u := by
  unfold value
  rw [Token.digitsOf, List.filterMap_append, ofDigits_append]
  have hlength : (u.filterMap decimalDigit?).length = u.length := by
    rw [← Token.digitsOf, digitsOf_eq hu, List.length_map]
  rw [hlength]
  rfl

/-- Zeros have no value. -/
theorem value_zeros (n : Nat) : value (List.replicate n (code '0')) = 0 := by
  induction n with
  | zero => rfl
  | succ n ih =>
    have hone : value [code '0'] = 0 := by decide
    rw [List.replicate_succ', value_append (u := [code '0']) (IsDigits.replicate 1), ih, hone,
      Nat.zero_mul]

/-! ## The digits of a number -/

/-- The numeral of a number is of digits. -/
theorem isDigits_ofNat (n : Nat) : IsDigits (ofNat n) := by
  intro c hc
  obtain ⟨d, hd, rfl⟩ := List.mem_map.mp hc
  have hdigit := Nat.isDigit_of_mem_toDigits (by decide) (by decide) hd
  simp only [Char.isDigit, Bool.and_eq_true, decide_eq_true_eq] at hdigit
  exact ⟨UInt32.le_iff_toNat_le.mp hdigit.1, UInt32.le_iff_toNat_le.mp hdigit.2⟩

/-- Every number has a digit. -/
theorem ofNat_ne_nil (n : Nat) : ofNat n ≠ [] := by
  simp [ofNat, Nat.toDigits_ne_nil]

/-- A number has at most `k` digits if it is less than the power with `k` zeros. -/
theorem length_ofNat_le {n k : Nat} (hk : 0 < k) : (ofNat n).length ≤ k ↔ n < 10 ^ k := by
  rw [ofNat, List.length_map]
  exact Nat.length_toDigits_le_iff (by decide) hk

/-- The numeral of a number has the number as its value. -/
theorem value_ofNat (n : Nat) : value (ofNat n) = n := by
  rw [value, digitsOf_eq (isDigits_ofNat n), ofNat, List.map_map, ofDigits, List.foldl_map]
  have h := Nat.ofDigitChars_ten_toDigits (n := n)
  rw [Nat.ofDigitChars] at h
  simp only [Nat.mul_comm 10] at h
  exact h

end FlatScope.Text
