import Mathlib.Tactic.Ring
import Mathlib.Tactic.Linarith
import FlatScope.Number.Double

/-!
# Rounding to doubles

The quotient of two natural numbers is rounded to the nearest number of units that a double can
have (`Double.roundUnits`). It depends on the ratio alone, and a ratio that is near enough to such a
number is rounded to it (`Double.roundUnits_eq`).
-/

namespace FlatScope.Double

/-! ## The nearest integer -/

/-- The nearest integer is less than half a unit away. -/
theorem nearestEven_eq {num den m : Nat} (hlo : 2 * (m * den) < 2 * num + den)
    (hhi : 2 * num < 2 * (m * den) + den) : nearestEven num den = m := by
  have hpos : 0 < den := by omega
  have hsplit := Nat.div_add_mod num den
  rcases Nat.lt_or_ge num (m * den) with h | h
  · obtain ⟨k, rfl⟩ : ∃ k, m = k + 1 := Nat.exists_eq_succ_of_ne_zero (by rintro rfl; omega)
    rw [Nat.add_mul, Nat.one_mul] at hlo hhi h
    have hq : num / den = k := by
      refine Nat.div_eq_of_lt_le (by omega) ?_
      rw [Nat.add_mul, Nat.one_mul]
      omega
    rw [hq, Nat.mul_comm] at hsplit
    simp only [nearestEven, hq]
    rw [if_neg (by omega), if_pos (by omega)]
  · have hq : num / den = m := by
      refine Nat.div_eq_of_lt_le h ?_
      rw [Nat.add_mul, Nat.one_mul]
      omega
    rw [hq, Nat.mul_comm] at hsplit
    simp only [nearestEven, hq]
    rw [if_pos (by omega)]

/-- The nearest integer is at most half a unit away. -/
theorem nearestEven_near (num : Nat) {den : Nat} (hpos : 0 < den) :
    2 * (nearestEven num den * den) ≤ 2 * num + den ∧
      2 * num ≤ 2 * (nearestEven num den * den) + den := by
  have hsplit := Nat.div_add_mod num den
  have hlt := Nat.mod_lt num hpos
  rw [Nat.mul_comm] at hsplit
  unfold nearestEven
  dsimp only
  split
  case isTrue => omega
  case isFalse =>
    split
    case isTrue => rw [Nat.add_mul, Nat.one_mul]; omega
    case isFalse =>
      have heq : 2 * (num % den) = den := by omega
      rcases Nat.mod_two_eq_zero_or_one (num / den) with h | h <;> rw [h, Nat.add_mul]
      · omega
      · omega

theorem nearestEven_scale (num den : Nat) {c : Nat} (hc : 0 < c) :
    nearestEven (num * c) (den * c) = nearestEven num den := by
  unfold nearestEven
  rw [Nat.mul_div_mul_right _ _ hc, Nat.mul_mod_mul_right]
  dsimp only
  rw [← Nat.mul_assoc]
  simp only [Nat.mul_lt_mul_right hc]

/-! ## The nearest double -/

theorem roundUnits_scale (num den : Nat) {c : Nat} (hc : 0 < c) :
    roundUnits (num * c) (den * c) = roundUnits num den := by
  unfold roundUnits
  dsimp only
  rw [Nat.mul_div_mul_right _ _ hc, Nat.shiftLeft_eq (den * c), Nat.mul_right_comm,
    nearestEven_scale _ _ hc, ← Nat.shiftLeft_eq]

/-- The nearest double depends on the ratio alone. -/
theorem ofRatio_scale (s : Bool) (num den : Nat) {c : Nat} (hc : 0 < c) :
    ofRatio s (num * c) (den * c) = ofRatio s num den := by
  rw [ofRatio, ofRatio, roundUnits_scale _ _ hc]

theorem log2_eq {n k : Nat} (hlo : 2 ^ k ≤ n) (hhi : n < 2 ^ (k + 1)) : n.log2 = k :=
  (Nat.log2_eq_iff (Nat.ne_of_gt (Nat.lt_of_lt_of_le (Nat.two_pow_pos k) hlo))).mpr ⟨hlo, hhi⟩

/-- A ratio between two powers of two is rounded to the nearest multiple of the unit in the last
    place, which is one for the smallest ratios. -/
theorem roundUnits_eq {num den k m : Nat} (hpos : 0 < den)
    (hlo : 2 ^ 52 * (den * 2 ^ k) ≤ num ∨ k = 0) (hhi : num < 2 ^ 53 * (den * 2 ^ k))
    (hm : 2 * (m * (den * 2 ^ k)) < 2 * num + den * 2 ^ k)
    (hm' : 2 * num < 2 * (m * (den * 2 ^ k)) + den * 2 ^ k) :
    roundUnits num den = m * 2 ^ k := by
  have hupper : num / den < 2 ^ (52 + k + 1) := by
    rw [Nat.div_lt_iff_lt_mul hpos]
    calc num < 2 ^ 53 * (den * 2 ^ k) := hhi
      _ = 2 ^ (52 + k + 1) * den := by ring
  have hlog : (num / den).log2 - 52 = k := by
    rcases hlo with hlo | rfl
    · have hlower : 2 ^ (52 + k) ≤ num / den := by
        rw [Nat.le_div_iff_mul_le hpos]
        calc 2 ^ (52 + k) * den = 2 ^ 52 * (den * 2 ^ k) := by ring
          _ ≤ num := hlo
      rw [log2_eq hlower hupper, Nat.add_sub_cancel_left]
    · by_cases h : num / den = 0
      · rw [h, Nat.log2_zero]
      · have := (Nat.log2_lt h).mpr hupper
        omega
  unfold roundUnits
  rw [hlog, Nat.shiftLeft_eq, Nat.shiftLeft_eq, nearestEven_eq hm hm']

/-- A number of units that a double can have: a number of 53 bits, and zeros. -/
def IsDouble (u : Nat) : Prop := ∃ m k, u = m * 2 ^ k ∧ m < 2 ^ 53 ∧ (2 ^ 52 ≤ m ∨ k = 0)

/-- What is rounded to a double is the number of units of one. -/
theorem isDouble_roundUnits (num : Nat) {den : Nat} (hpos : 0 < den) :
    IsDouble (roundUnits num den) := by
  unfold roundUnits
  dsimp only
  rw [Nat.shiftLeft_eq, Nat.shiftLeft_eq]
  generalize hk : (num / den).log2 - 52 = k
  have hden : 0 < den * 2 ^ k := Nat.mul_pos hpos (Nat.two_pow_pos k)
  obtain ⟨hlow, hhigh⟩ := nearestEven_near num hden
  generalize nearestEven num (den * 2 ^ k) = m at *
  have hlt : num / den < 2 ^ (52 + k + 1) :=
    Nat.lt_of_lt_of_le Nat.lt_log2_self (Nat.pow_le_pow_right (by decide) (by omega))
  rw [Nat.div_lt_iff_lt_mul hpos] at hlt
  have hupper : num < 2 ^ 53 * (den * 2 ^ k) := by
    calc num < 2 ^ (52 + k + 1) * den := hlt
      _ = 2 ^ 53 * (den * 2 ^ k) := by ring
  have hm : m ≤ 2 ^ 53 := by
    by_contra h
    have := Nat.mul_le_mul_right (den * 2 ^ k) (Nat.lt_of_not_le h)
    rw [Nat.succ_mul] at this
    omega
  have hlower : 2 ^ 52 ≤ m ∨ k = 0 := by
    by_cases hk0 : k = 0
    · exact .inr hk0
    · left
      -- the quotient has all of the 53 bits
      have hlog : 2 ^ (52 + k) ≤ num / den := by
        have hne : num / den ≠ 0 := by
          intro h0
          rw [h0] at hk
          exact hk0 (hk ▸ rfl)
        rw [← Nat.le_log2 hne]
        omega
      rw [Nat.le_div_iff_mul_le hpos] at hlog
      have hnum : 2 ^ 52 * (den * 2 ^ k) ≤ num := by
        calc 2 ^ 52 * (den * 2 ^ k) = 2 ^ (52 + k) * den := by ring
          _ ≤ num := hlog
      by_contra h
      have := Nat.mul_le_mul_right (den * 2 ^ k) (Nat.lt_of_not_le h)
      rw [Nat.succ_mul] at this
      omega
  rcases Nat.lt_or_eq_of_le hm with hm | rfl
  · exact ⟨m, k, rfl, hm, hlower⟩
  · exact ⟨2 ^ 52, k + 1, by ring, by decide, .inl (Nat.le_refl _)⟩

end FlatScope.Double
