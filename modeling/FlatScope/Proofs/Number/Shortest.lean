import FlatScope.Number.Shortest
import FlatScope.Proofs.Number.Digits
import FlatScope.Proofs.Number.Rounding

/-!
# The shortest decimal reads back

Whatever the search for the shortest decimal of a double finds is read as the same double
(`Double.ofDecimal_shortest`). The search stops at a decimal that does, except if none of up to 16
digits does; then it gives the nearest decimal with 17 digits, and that one always does, since
decimals with 17 digits are closer to each other than doubles of 53 bits (`Double.roundUnits_near`).
-/

namespace FlatScope.Double

/-! ## Seventeen digits suffice -/

/-- A multiple of `den` that is nearest to `G` times a double, which is large enough for the
    multiples to be closer to each other than the doubles, is rounded to that double. -/
theorem roundUnits_near {u G den : Nat} (hu : IsDouble u) (hG : 0 < G) (hden : 0 < den)
    (hlarge : 10 ^ 16 * den ≤ u * G) :
    roundUnits (nearestEven (u * G) den * den) G = u := by
  obtain ⟨hlow, hhigh⟩ := nearestEven_near (u * G) hden
  generalize nearestEven (u * G) den * den = a at *
  obtain ⟨m, k, rfl, hm, hnormal⟩ := hu
  have hsplit : m * 2 ^ k * G = m * (G * 2 ^ k) := by ring
  rw [hsplit] at hlow hhigh hlarge
  have hupper := Nat.mul_le_mul_right (G * 2 ^ k) (Nat.succ_le_of_lt hm)
  rw [Nat.succ_eq_add_one, Nat.add_mul, Nat.one_mul] at hupper
  by_cases hbelow : m = 2 ^ 52 ∧ k ≠ 0 ∧ a < m * (G * 2 ^ k)
  · -- below a power of two the doubles are twice as close
    obtain ⟨rfl, hk, hlt⟩ := hbelow
    obtain ⟨k, rfl⟩ := Nat.exists_eq_add_one_of_ne_zero hk
    have hhalf : G * 2 ^ (k + 1) = 2 * (G * 2 ^ k) := by ring
    rw [hhalf] at hlow hhigh hlarge hlt
    rw [roundUnits_eq (m := 2 ^ 53) (k := k) hG (.inl (by omega)) (by omega) (by omega) (by omega)]
    ring
  · refine roundUnits_eq hG ?_ (by omega) (by omega) (by omega)
    by_cases hk : k = 0
    · exact .inr hk
    · left
      have hm' : 2 ^ 52 ≤ m := hnormal.resolve_right hk
      rcases Nat.lt_or_eq_of_le hm' with hlt | rfl
      · have := Nat.mul_le_mul_right (G * 2 ^ k) (Nat.succ_le_of_lt hlt)
        rw [Nat.succ_eq_add_one, Nat.add_mul, Nat.one_mul] at this
        omega
      · omega

theorem one_pos : 0 < one := by
  rw [one, Nat.shiftLeft_eq]
  exact Nat.mul_pos Nat.one_pos (Nat.two_pow_pos _)

theorem one_eq : one = 2 ^ unitBits := by
  rw [one, Nat.shiftLeft_eq, Nat.one_mul]

theorem one_lt : one < 10 ^ 324 := by decide +kernel

/-- The exponent of the first digit bounds a number from below. -/
theorem le_of_leadingExponent {u : Nat} (hu : 0 < u) :
    ∃ n : Nat, leadingExponent u = n - 324 ∧ one * 10 ^ n ≤ u * 10 ^ 324 := by
  unfold leadingExponent
  simp only [Nat.pow_eq, -Nat.reducePow]
  generalize hq : (u * 10 ^ 324) >>> unitBits = q
  have hone : one ≤ u * 10 ^ 324 :=
    Nat.le_trans (Nat.le_of_lt one_lt) (Nat.le_mul_of_pos_left _ hu)
  have hq' : u * 10 ^ 324 / one = q := by
    rw [← hq, Nat.shiftRight_eq_div_pow, ← one_eq]
  have hpos : 0 < q := hq' ▸ Nat.div_pos hone one_pos
  generalize hl : (Nat.toDigits 10 q).length = l
  have hlength : 0 < l := hl ▸ Nat.length_toDigits_pos
  refine ⟨l - 1, by omega, ?_⟩
  rw [Nat.mul_comm, ← Nat.le_div_iff_mul_le one_pos, hq']
  by_cases h1 : l = 1
  · subst h1; exact hpos
  · have := (Nat.length_toDigits_le_iff (n := q) (k := l - 1) (b := 10) (by decide) (by omega)).not
    omega

/-- A decimal reads back as the double that it stands for. -/
def ReadsBack (u : Nat) (decimal : Nat × Int) : Prop :=
  ofDecimal false decimal.1 decimal.2 = .finite false u

theorem neighbours_fst (u : Nat) (grid : Int) :
    (neighbours u grid).1 = match grid with
      | .ofNat g => nearestEven u (one * 10 ^ g)
      | .negSucc g => nearestEven (u * 10 ^ (g + 1)) one := by
  have hnear : ∀ num den, (if nearestEven num den = num / den then (num / den, num / den + 1)
      else (num / den + 1, num / den)).1 = nearestEven num den := by
    intro num den
    split
    case isTrue h => exact h.symm
    case isFalse h =>
      revert h
      unfold nearestEven
      dsimp only
      split
      · exact fun h => absurd rfl h
      · split
        · exact fun _ => rfl
        · intro h
          rcases Nat.mod_two_eq_zero_or_one (num / den) with h' | h' <;> rw [h'] at h ⊢
          exact absurd rfl h
  cases grid <;> exact hnear _ _

/-- Seventeen digits of a double suffice to tell it from the others. -/
theorem readsBack_near {u : Nat} (hpos : 0 < u) (hu : IsDouble u) (hbound : u < bound) :
    ReadsBack u ((neighbours u (leadingExponent u - 16)).1, leadingExponent u - 16) := by
  obtain ⟨n, hlead, hn⟩ := le_of_leadingExponent hpos
  have hfinite : ∀ {num den}, roundUnits num den = u → ofRatio false num den = .finite false u := by
    intro num den h
    rw [ofRatio, h]
    exact if_pos hbound
  rw [hlead, ReadsBack, neighbours_fst]
  generalize hgrid : (n : Int) - 324 - 16 = grid
  obtain ⟨e, he⟩ : ∃ e, e = 324 := ⟨_, rfl⟩
  rw [← he] at hn
  have hscale : ∀ k, 0 < 10 ^ k := fun k => Nat.pow_pos (by decide)
  cases grid with
  | ofNat g =>
    obtain rfl : n = 16 + g + e := by
      rw [Int.ofNat_eq_natCast] at hgrid
      omega
    have hlarge : 10 ^ 16 * (one * 10 ^ g) ≤ u := by
      refine Nat.le_of_mul_le_mul_right ?_ (hscale e)
      calc 10 ^ 16 * (one * 10 ^ g) * 10 ^ e = one * 10 ^ (16 + g + e) := by ring
        _ ≤ u * 10 ^ e := hn
    have h := roundUnits_near hu Nat.one_pos (Nat.mul_pos one_pos (hscale g)) (by rwa [Nat.mul_one])
    rw [Nat.mul_one] at h
    refine hfinite ?_
    rw [Nat.shiftLeft_eq, ← one_eq, Nat.pow_eq, Nat.mul_assoc, Nat.mul_comm (10 ^ g)]
    exact h
  | negSucc g =>
    have hlarge : 10 ^ 16 * one ≤ u * 10 ^ (g + 1) := by
      have hsum : g + 1 + n = 16 + e := by
        rw [Int.negSucc_eq] at hgrid
        omega
      refine Nat.le_of_mul_le_mul_right ?_ (hscale n)
      calc 10 ^ 16 * one * 10 ^ n = 10 ^ 16 * (one * 10 ^ n) := by ring
        _ ≤ 10 ^ 16 * (u * 10 ^ e) := Nat.mul_le_mul_left _ hn
        _ = u * 10 ^ (16 + e) := by ring
        _ = u * 10 ^ (g + 1) * 10 ^ n := by rw [← hsum]; ring
    refine hfinite ?_
    rw [Nat.shiftLeft_eq, ← one_eq]
    exact roundUnits_near hu (hscale _) one_pos hlarge

/-- The search for the shortest decimal ends with one that reads back, or with the nearest one of
    the most digits. -/
theorem shortestFrom_readsBack (u : Nat) (lead : Int) (fuel n : Nat)
    (hlast : ReadsBack u ((neighbours u (lead - (n + fuel : Nat) + 1)).1,
      lead - (n + fuel : Nat) + 1)) :
    ReadsBack u (shortestFrom u lead fuel n) := by
  induction fuel generalizing n with
  | zero => exact hlast
  | succ fuel ih =>
    unfold shortestFrom
    dsimp only
    split
    case isTrue h => exact h
    case isFalse =>
      split
      case isTrue h => exact h
      case isFalse =>
        refine ih (n + 1) ?_
        rwa [show n + 1 + fuel = n + (fuel + 1) by omega]

/-- The shortest decimal of a double reads back. -/
theorem ofDecimal_shortest {u : Nat} (hpos : 0 < u) (hu : IsDouble u) (hbound : u < bound) :
    ofDecimal false (shortest u).1 (shortest u).2 = .finite false u := by
  refine shortestFrom_readsBack u _ 16 1 ?_
  rw [show leadingExponent u - (1 + 16 : Nat) + 1 = leadingExponent u - 16 by omega]
  exact readsBack_near hpos hu hbound

end FlatScope.Double
