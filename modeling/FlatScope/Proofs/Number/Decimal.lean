import FlatScope.Proofs.Number.Shortest
import FlatScope.Proofs.Grammar.Literals

/-!
# Numbers written in decimal

A number that a literal denotes is read back from what it is written as: an integer always
(`numberValue_ofNat`), a double if it is written without an exponent (`numberValue_text`).
-/

namespace FlatScope

open Text (code)

/-- Decimal digits, a point and decimal digits. -/
def IsPlainDecimal (t : Text) : Prop :=
  ∃ w f, w ≠ [] ∧ f ≠ [] ∧ (∀ c ∈ w ++ f, code '0' ≤ c ∧ c ≤ code '9') ∧ t = w ++ code '.' :: f

theorem IsPlainDecimal.mem {t : Text} (h : IsPlainDecimal t) {c : CodePoint} (hc : c ∈ t) :
    c ≤ code '9' := by
  obtain ⟨w, f, -, -, hdigits, rfl⟩ := h
  have hc' : c ∈ w ++ f ∨ c = code '.' := by
    simp only [List.mem_append, List.mem_cons] at hc ⊢
    tauto
  rcases hc' with hc | rfl
  · exact (hdigits c hc).2
  · decide

/-! ## Integers -/

theorem not_mem_point {t : Text} (h : t.IsDigits) : code '.' ∉ t :=
  fun hmem => absurd (h _ hmem).1 (by decide)

/-- An integer that a literal denotes is not negative and has no more digits than can be read. -/
theorem numberValue_int {t : Text} {i : Int} (h : Token.numberValue t = .ok (.int i)) :
    ∃ n : Nat, i = n ∧ (Text.ofNat n).length ≤ digitLimit := by
  unfold Token.numberValue at h
  dsimp only at h
  split at h
  case h_1 =>
    split at h
    case isTrue => cases h
    case isFalse hlimit =>
      cases h
      refine ⟨_, rfl, (Text.length_ofNat_le (by decide)).mpr ?_⟩
      exact Nat.lt_of_lt_of_le (Text.value_lt _)
        (Nat.pow_le_pow_right (by decide) (Nat.le_of_not_lt hlimit))
  case h_2 => cases h

theorem numberValue_ofNat {n : Nat} (h : (Text.ofNat n).length ≤ digitLimit) :
    Token.numberValue (Text.ofNat n) = .ok (.int n) := by
  rw [numberValue_integer (not_mem_point (Text.isDigits_ofNat n)), if_neg (Nat.not_lt_of_le h)]
  exact congrArg (fun k : Nat => Except.ok (Number.int k)) (Text.value_ofNat n)

/-! ## Decimals -/

namespace Double

/-- A decimal with the exponent `a - b` as a ratio. -/
theorem ofDecimal_sub (s : Bool) (n a b : Nat) :
    ofDecimal s n (a - b) = ofRatio s (n * 10 ^ a * one) (10 ^ b) := by
  have hscale : ∀ k, 0 < 10 ^ k := fun k => Nat.pow_pos (by decide)
  generalize he : (a : Int) - b = e
  cases e with
  | ofNat e =>
    obtain rfl : a = e + b := by
      rw [Int.ofNat_eq_natCast] at he
      omega
    have hnum : n * 10 ^ (e + b) * one = n * 10 ^ e * one * 10 ^ b := by ring
    rw [ofDecimal, Nat.shiftLeft_eq, ← one_eq, Nat.pow_eq, ← ofRatio_scale s _ 1 (hscale b), hnum,
      Nat.one_mul]
  | negSucc e =>
    obtain rfl : b = e + 1 + a := by
      rw [Int.negSucc_eq] at he
      omega
    have hnum : n * 10 ^ a * one = n * one * 10 ^ a := by ring
    rw [ofDecimal, Nat.shiftLeft_eq, ← one_eq, Nat.pow_eq, ← ofRatio_scale s _ _ (hscale a), hnum,
      ← Nat.pow_add]

/-- Zeros at the end of a decimal move into its exponent. -/
theorem ofDecimal_zeros (s : Bool) (n k : Nat) (e : Int) :
    ofDecimal s (n * 10 ^ k) e = ofDecimal s n (e + k) := by
  obtain ⟨a, b, rfl⟩ : ∃ a b : Nat, e = a - b := ⟨e.toNat, (-e).toNat, by omega⟩
  have hnum : n * 10 ^ k * 10 ^ a * one = n * 10 ^ (a + k) * one := by ring
  rw [show (a : Int) - b + k = (a + k : Nat) - b by omega, ofDecimal_sub, ofDecimal_sub, hnum]

theorem ofDecimal_zero (s : Bool) (e : Int) : ofDecimal s 0 e = .finite s 0 := by
  obtain ⟨a, b, rfl⟩ : ∃ a b : Nat, e = a - b := ⟨e.toNat, (-e).toNat, by omega⟩
  have hden : 0 < 10 ^ b := Nat.pow_pos (by decide)
  have hzero : roundUnits 0 (10 ^ b) = 0 * 2 ^ 0 :=
    roundUnits_eq hden (.inr rfl) (by omega) (by omega) (by omega)
  rw [ofDecimal_sub, Nat.zero_mul, Nat.zero_mul, ofRatio, hzero]
  exact if_pos (Nat.zero_lt_of_ne_zero (by decide +kernel))

/-- The nearest double is infinite or has as many bits as a double. -/
theorem ofDecimal_cases (s : Bool) (n : Nat) (e : Int) :
    ofDecimal s n e = .infinite s ∨ ∃ u, ofDecimal s n e = .finite s u ∧ IsDouble u ∧
    u < bound := by
  obtain ⟨a, b, rfl⟩ : ∃ a b : Nat, e = a - b := ⟨e.toNat, (-e).toNat, by omega⟩
  rw [ofDecimal_sub]
  unfold ofRatio
  dsimp only
  split
  case isTrue h => exact .inr ⟨_, rfl, isDouble_roundUnits _ (Nat.pow_pos (by decide)), h⟩
  case isFalse => exact .inl rfl

theorem scaled_cases (s : Bool) (ds : List Nat) (e : Int) :
    Text.scaled s ds e = .infinite s ∨
      ∃ u, Text.scaled s ds e = .finite s u ∧ IsDouble u ∧ u < bound := by
  have hzero : IsDouble 0 ∧ 0 < bound :=
    ⟨⟨0, 0, rfl, by decide, .inr rfl⟩, Nat.zero_lt_of_ne_zero (by decide +kernel)⟩
  unfold Text.scaled
  dsimp only
  split
  case isTrue => exact .inr ⟨0, rfl, hzero⟩
  case isFalse =>
    split
    case isTrue => exact .inl rfl
    case isFalse =>
      split
      case isTrue => exact .inr ⟨0, rfl, hzero⟩
      case isFalse => exact ofDecimal_cases _ _ _

end Double

theorem Text.IsDigits.length_digitsOf {t : Text} (h : t.IsDigits) :
    (Token.digitsOf t).length = t.length := by
  rw [Text.digitsOf_eq h, List.length_map]

/-- A number with a fraction denotes the nearest double. -/
theorem numberValue_decimal {w f : Text} (hw : w.IsDigits) (hf : f.IsDigits) :
    Token.numberValue (w ++ code '.' :: f) = .ok (.double
      (if (w ++ f).value = 0 then .finite false 0
      else .ofDecimal false (w ++ f).value (-f.length))) := by
  have htake : (w ++ code '.' :: f).takeWhile (· ≠ code '.') = w := by
    rw [List.takeWhile_append_of_pos, List.takeWhile_cons_of_neg (by simp), List.append_nil]
    intro c hc
    rw [decide_eq_true_eq]
    rintro rfl
    exact not_mem_point hw hc
  unfold Token.numberValue
  rw [htake]
  simp only [List.drop_left]
  unfold Text.scaled
  have happend : Token.digitsOf w ++ Token.digitsOf f = Token.digitsOf (w ++ f) :=
    List.filterMap_append.symm
  rw [happend]
  have hlength := (hw.append hf).length_digitsOf
  rw [List.length_append] at hlength
  dsimp only
  rw [if_neg (show ¬(400 < (-f.length : Int)) by omega),
    if_neg (show ¬((-f.length : Int) + (Token.digitsOf (w ++ f)).length < -400) by omega)]
  rfl

/-! ## Layout -/

namespace Double

/-- The digits that are kept of a decimal, and the exponent of the last one of them. -/
theorem significant_spec {n : Nat} (hn : 0 < n) (g : Int) :
    ∃ (kept : Text) (z : Nat), significant (n, g) = (kept, g + z + kept.length - 1) ∧
      kept.IsDigits ∧ 0 < kept.value ∧ n = kept.value * 10 ^ z := by
  have hdigits := Text.isDigits_ofNat n
  have hvalue := Text.value_ofNat n
  unfold significant
  dsimp only
  generalize Text.ofNat n = t at *
  -- what is dropped are the zeros at the end
  generalize hrest : t.reverse.dropWhile (· == code '0') = rest
  generalize hzeros : t.reverse.takeWhile (· == code '0') = zeros
  have hsplit : t = rest.reverse ++ zeros.reverse := by
    rw [← List.reverse_append, ← hrest, ← hzeros, List.takeWhile_append_dropWhile,
      List.reverse_reverse]
  have hall : zeros.reverse = List.replicate zeros.length (code '0') := by
    rw [List.eq_replicate_iff]
    refine ⟨List.length_reverse, fun c hc => ?_⟩
    rw [List.mem_reverse, ← hzeros] at hc
    exact eq_of_beq (mem_takeWhile (p := (· == code '0')) hc)
  have hkept : Text.IsDigits rest.reverse := by
    intro c hc
    refine hdigits c ?_
    rw [hsplit]
    exact List.mem_append_left _ hc
  rw [hall] at hsplit
  have hn' : n = Text.value rest.reverse * 10 ^ zeros.length := by
    rw [← hvalue, hsplit, Text.value_append (.replicate _), Text.value_zeros, List.length_replicate,
      Nat.add_zero]
  refine ⟨rest.reverse, zeros.length, ?_, hkept, ?_, hn'⟩
  · rw [hsplit, List.length_append, List.length_replicate]
    exact congrArg (Prod.mk _) (by omega)
  · refine Nat.pos_of_ne_zero fun h => ?_
    rw [h, Nat.zero_mul] at hn'
    omega

/-- A decimal that is laid out without an exponent is read as the double that it stands for. -/
theorem numberValue_layout {kept : Text} {e : Int} (hkept : kept.IsDigits)
    (hpos : 0 < kept.value) (he : -4 ≤ e ∧ e < 16) :
    Token.numberValue (layout kept e) =
      .ok (.double (ofDecimal false kept.value (e - kept.length + 1))) := by
  unfold layout
  rw [if_pos he]
  split
  case h_1 e =>
    split
    case isTrue hle =>
      have hzero : Text.IsDigits [code '0'] := .replicate 1
      have hvalue : Text.value [code '0'] = 0 := by decide
      generalize hz : e + 1 - kept.length = z
      have h := numberValue_decimal (hkept.append (.replicate z)) hzero
      rw [Text.value_append hzero, Text.value_append (.replicate z), Text.value_zeros, hvalue,
        List.length_replicate, List.length_singleton, Nat.add_zero, Nat.add_zero, Nat.mul_assoc,
        ← Nat.pow_add, if_neg (Nat.ne_of_gt (Nat.mul_pos hpos (Nat.pow_pos (by decide)))),
        ofDecimal_zeros] at h
      rw [show ((Int.ofNat e : Int) - kept.length + 1) = -(1 : Nat) + (z + 1 : Nat) by
        rw [Int.ofNat_eq_natCast]; omega]
      exact h
    case isFalse hgt =>
      have hsplit := List.take_append_drop (e + 1) kept
      have h := numberValue_decimal (w := kept.take (e + 1)) (f := kept.drop (e + 1))
        (fun c hc => hkept c (List.mem_of_mem_take hc))
        (fun c hc => hkept c (List.mem_of_mem_drop hc))
      rw [hsplit, if_neg (Nat.ne_of_gt hpos), List.length_drop] at h
      rw [show ((Int.ofNat e : Int) - kept.length + 1) = -((kept.length - (e + 1) : Nat) : Int) by
        rw [Int.ofNat_eq_natCast]; omega]
      rw [List.append_assoc]
      exact h
  case h_2 e =>
    have hzero : Text.IsDigits [code '0'] := .replicate 1
    have h := numberValue_decimal hzero ((Text.IsDigits.replicate e).append hkept)
    have hvalue :
        Text.value ([code '0'] ++ (List.replicate e (code '0') ++ kept)) = kept.value := by
      have := Text.value_zeros (e + 1)
      rw [List.replicate_succ] at this
      rw [← List.append_assoc, Text.value_append hkept, List.singleton_append, this, Nat.zero_mul,
        Nat.zero_add]
    rw [hvalue, if_neg (Nat.ne_of_gt hpos), List.length_append, List.length_replicate] at h
    rw [show ((Int.negSucc e : Int) - kept.length + 1) = -((e + kept.length : Nat) : Int) by
      rw [Int.negSucc_eq]; omega]
    rw [List.append_assoc]
    exact h

/-- Digits with an exponent are no plain decimal. -/
theorem not_isPlainDecimal_layout {kept : Text} {e : Int} (he : ¬(-4 ≤ e ∧ e < 16)) :
    ¬IsPlainDecimal (layout kept e) := by
  intro h
  refine absurd (h.mem (c := code 'e') ?_) (by decide)
  unfold layout
  rw [if_neg he]
  simp only [List.mem_append]
  exact .inl (.inr (List.mem_singleton.mpr rfl))

theorem text_finite {u : Nat} (hpos : 0 < u) {kept : Text} {e : Int}
    (h : significant (shortest u) = (kept, e)) : text (.finite false u) = layout kept e := by
  cases u with
  | zero => exact absurd hpos (Nat.lt_irrefl 0)
  | succ u =>
    rw [text, h]
    · rfl
    · exact Nat.succ_ne_zero u

theorem numberValue_text_finite {u : Nat} (hpos : 0 < u) (hu : IsDouble u) (hbound : u < bound)
    (hplain : IsPlainDecimal (text (.finite false u))) :
    Token.numberValue (text (.finite false u)) = .ok (.double (.finite false u)) := by
  have hread := ofDecimal_shortest hpos hu hbound
  rcases hdecimal : shortest u with ⟨n, g⟩
  rw [hdecimal] at hread
  have hn : 0 < n := by
    refine Nat.pos_of_ne_zero ?_
    rintro rfl
    rw [ofDecimal_zero, Double.finite.injEq] at hread
    exact Nat.ne_of_lt hpos hread.2
  obtain ⟨kept, z, hkept, hdigits, hvalue, rfl⟩ := significant_spec hn g
  rw [text_finite hpos (hdecimal ▸ hkept)] at hplain ⊢
  by_cases he : -4 ≤ g + z + kept.length - 1 ∧ g + z + kept.length - 1 < 16
  · rw [ofDecimal_zeros] at hread
    rw [numberValue_layout hdigits hvalue he,
      show g + z + kept.length - 1 - kept.length + 1 = g + z by ring, hread]
  · exact absurd hplain (not_isPlainDecimal_layout he)

end Double

/-- A double that a literal denotes is read back from what it is written as, if that has no
    exponent. -/
theorem numberValue_text {t : Text} {d : Double} (hd : Token.numberValue t = .ok (.double d))
    (hplain : IsPlainDecimal d.text) : Token.numberValue d.text = .ok (.double d) := by
  have hcases : d = .infinite false ∨
      ∃ u, d = .finite false u ∧ Double.IsDouble u ∧ u < Double.bound := by
    unfold Token.numberValue at hd
    dsimp only at hd
    split at hd
    case h_1 =>
      split at hd <;> cases hd
    case h_2 =>
      cases hd
      exact Double.scaled_cases false _ _
  rcases hcases with rfl | ⟨u, rfl, hu, hbound⟩
  · exact absurd (hplain.mem (c := code 'i') (by decide)) (by decide)
  · rcases Nat.eq_zero_or_pos u with rfl | hpos
    · rfl
    · exact Double.numberValue_text_finite hpos hu hbound hplain

end FlatScope
