import FlatScope.Token.Value
import FlatScope.Proofs.Grammar.Splitting

/-!
# What literals stand for

Which literal tokens have a value, and which: a string literal whose escapes are well formed and
name code points stands for what it spells (`Spells`), and every number with a fraction and every
integer of not too many digits for the number that it is the numeral of (`numeral`).
-/

namespace FlatScope

open Text (code)

/-! ## Escapes -/

/-- A sequence of hexadecimal digits. -/
def IsHex (ds : Text) : Prop := ∀ c ∈ ds, (Text.hexDigit? c).isSome

/-- The number that hexadecimal digits denote. -/
def hexValue (ds : Text) : Nat := Text.ofDigits 16 (ds.filterMap Text.hexDigit?)

/-- The code points after a backslash that stand for a control character, and the control
    characters. -/
def controls : List (CodePoint × CodePoint) :=
  [(code 'n', 0xA), (code 't', 0x9), (code 'r', 0xD), (code 'b', 0x8), (code 'f', 0xC),
    (code 'v', 0xB), (code '0', 0x0)]

/-- A text of well-formed escapes, whose code points exist, and what it spells. -/
inductive Spells : Text → Text → Prop
  | nil : Spells [] []
  | plain {c : CodePoint} {t v : Text} : c ≠ code '\\' → Spells t v → Spells (c :: t) (c :: v)
  | control {c d : CodePoint} {t v : Text} : (c, d) ∈ controls → Spells t v →
      Spells (code '\\' :: c :: t) (d :: v)
  | itself {c : CodePoint} {t v : Text} : c ≠ code 'u' → c ≠ code 'x' →
      (∀ d, (c, d) ∉ controls) → Spells t v → Spells (code '\\' :: c :: t) (c :: v)
  | two {ds t v : Text} : ds.length = 2 → IsHex ds → Spells t v →
      Spells (code '\\' :: code 'x' :: (ds ++ t)) (hexValue ds :: v)
  | four {ds t v : Text} : ds.length = 4 → IsHex ds → Spells t v →
      Spells (code '\\' :: code 'u' :: (ds ++ t)) (hexValue ds :: v)
  | braced {ds t v : Text} : ds ≠ [] → IsHex ds → hexValue ds ≤ 0x10FFFF → Spells t v →
      Spells (code '\\' :: code 'u' :: 0x7B :: (ds ++ 0x7D :: t)) (hexValue ds :: v)

theorem mapM_hex {ds : Text} (h : IsHex ds) :
    ds.mapM Text.hexDigit? = some (ds.filterMap Text.hexDigit?) := by
  induction ds with
  | nil => rfl
  | cons c ds ih =>
    obtain ⟨n, hn⟩ := Option.isSome_iff_exists.mp (h c List.mem_cons_self)
    rw [List.mapM_cons, ih fun d hd => h d (List.mem_cons_of_mem c hd)]
    simp [hn]

theorem isHex_of_mapM {ds : Text} {ns : List Nat} (h : ds.mapM Text.hexDigit? = some ns) :
    IsHex ds := by
  induction ds generalizing ns with
  | nil => exact fun c hc => nomatch hc
  | cons c ds ih =>
    rw [List.mapM_cons] at h
    obtain ⟨n, hn, h⟩ := Option.bind_eq_some_iff.mp h
    obtain ⟨ns', hns, _⟩ := Option.bind_eq_some_iff.mp h
    intro d hd
    rcases List.mem_cons.mp hd with rfl | hd
    · rw [hn]; rfl
    · exact ih hns d hd

theorem hexPrefix?_append {n : Nat} {ds t : Text} (hlen : ds.length = n) (h : IsHex ds) :
    Token.hexPrefix? n (ds ++ t) = some (hexValue ds) := by
  subst hlen
  simp [Token.hexPrefix?, Token.ofHex?, mapM_hex h, hexValue]

theorem hexPrefix?_eq_some {n v : Nat} {r : Text} (h : Token.hexPrefix? n r = some v) :
    ∃ ds t, r = ds ++ t ∧ ds.length = n ∧ IsHex ds ∧ v = hexValue ds := by
  unfold Token.hexPrefix? at h
  split at h
  case isTrue hle =>
    obtain ⟨ns, hns, rfl⟩ := Option.map_eq_some_iff.mp h
    have hhex := isHex_of_mapM hns
    refine ⟨r.take n, r.drop n, (List.take_append_drop n r).symm,
      by rw [List.length_take, Nat.min_eq_left hle], hhex, ?_⟩
    rw [hexValue, ← Option.some.inj ((mapM_hex hhex).symm.trans hns)]
  case isFalse => cases h

theorem bracedDigits?_append {ds t : Text} (hne : ds ≠ []) (h : IsHex ds) :
    Token.bracedDigits? (0x7B :: (ds ++ 0x7D :: t)) = some ds := by
  have htake : (ds ++ 0x7D :: t).takeWhile (fun c => (Text.hexDigit? c).isSome) = ds := by
    rw [List.takeWhile_append_of_pos h, List.takeWhile_cons_of_neg (by decide), List.append_nil]
  simp [Token.bracedDigits?, htake, hne]

theorem bracedDigits?_eq_some {r ds : Text} (h : Token.bracedDigits? r = some ds) :
    ∃ t, r = 0x7B :: (ds ++ 0x7D :: t) ∧ ds ≠ [] ∧ IsHex ds := by
  unfold Token.bracedDigits? at h
  split at h
  case h_1 => cases h
  case h_2 c r =>
    dsimp only at h
    split at h
    case isFalse => cases h
    case isTrue hc =>
      cases h
      obtain ⟨rfl, hne, hhead⟩ := hc
      obtain ⟨t, ht⟩ := List.head?_eq_some_iff.mp hhead
      refine ⟨t, ?_, hne, fun c => mem_takeWhile⟩
      rw [← ht]
      have hsplit := List.take_append_drop
        (r.takeWhile fun c => (Text.hexDigit? c).isSome).length r
      rw [take_takeWhile] at hsplit
      rw [hsplit]

/-- A control character by the letter of its escape. -/
theorem simpleEscape_control {c d : CodePoint} (h : (c, d) ∈ controls) :
    c ≠ code 'u' ∧ c ≠ code 'x' ∧ Token.simpleEscape c = d := by
  have hall : ∀ p ∈ controls, p.1 ≠ code 'u' ∧ p.1 ≠ code 'x' ∧ Token.simpleEscape p.1 = p.2 := by
    decide
  exact hall _ h

theorem simpleEscape_itself {c : CodePoint} (h : ∀ d, (c, d) ∉ controls) :
    Token.simpleEscape c = c := by
  simp only [controls, List.mem_cons, Prod.mk.injEq, List.not_mem_nil, or_false, not_or] at h
  simp only [Token.simpleEscape]
  grind

/-- An escape of one letter spells a control character, or itself. -/
theorem Spells.simple {c : CodePoint} {t v : Text} (hu : c ≠ code 'u') (hx : c ≠ code 'x')
    (h : Spells t v) : Spells (code '\\' :: c :: t) (Token.simpleEscape c :: v) := by
  by_cases hc : ∃ d, (c, d) ∈ controls
  · obtain ⟨d, hd⟩ := hc
    rw [(simpleEscape_control hd).2.2]
    exact .control hd h
  · have hc := not_exists.mp hc
    rw [simpleEscape_itself hc]
    exact .itself hu hx hc h

/-- The escapes that stand for a code point, and how many code points follow their letter. -/
theorem escape_eq_ok {c v : CodePoint} {r : Text} {n : Nat}
    (h : Token.escape c r = .ok (v, n)) :
    (c ≠ code 'u' ∧ c ≠ code 'x' ∧ v = Token.simpleEscape c ∧ n = 0) ∨
    (c = code 'x' ∧ ∃ ds t, r = ds ++ t ∧ ds.length = 2 ∧ IsHex ds ∧ v = hexValue ds ∧ n = 2) ∨
    (c = code 'u' ∧ ∃ ds t, r = ds ++ t ∧ ds.length = 4 ∧ IsHex ds ∧ v = hexValue ds ∧ n = 4) ∨
    (c = code 'u' ∧ ∃ ds t, r = 0x7B :: (ds ++ 0x7D :: t) ∧ ds ≠ [] ∧ IsHex ds ∧
      hexValue ds ≤ 0x10FFFF ∧ v = hexValue ds ∧ n = ds.length + 2) := by
  unfold Token.escape at h
  split at h
  case isTrue hu =>
    subst hu
    split at h
    case h_1 ds hds =>
      obtain ⟨t, rfl, hne, hhex⟩ := bracedDigits?_eq_some hds
      dsimp only at h
      split at h
      case isTrue hle =>
        cases h
        exact .inr (.inr (.inr ⟨rfl, ds, t, rfl, hne, hhex, hle, rfl, rfl⟩))
      case isFalse => cases h
    case h_2 =>
      split at h
      case h_1 m hm =>
        cases h
        obtain ⟨ds, t, rfl, hlen, hhex, hv⟩ := hexPrefix?_eq_some hm
        exact .inr (.inr (.inl ⟨rfl, ds, t, rfl, hlen, hhex, hv, rfl⟩))
      case h_2 => cases h
  case isFalse hu =>
    split at h
    case isTrue hx =>
      subst hx
      split at h
      case h_1 m hm =>
        cases h
        obtain ⟨ds, t, rfl, hlen, hhex, hv⟩ := hexPrefix?_eq_some hm
        exact .inr (.inl ⟨rfl, ds, t, rfl, hlen, hhex, hv, rfl⟩)
      case h_2 => cases h
    case isFalse hx =>
      cases h
      exact .inl ⟨hu, hx, rfl, rfl⟩

theorem escape_simple {c : CodePoint} (hu : c ≠ code 'u') (hx : c ≠ code 'x') (r : Text) :
    Token.escape c r = .ok (Token.simpleEscape c, 0) := by
  simp [Token.escape, hu, hx]

theorem escape_two {ds : Text} (hlen : ds.length = 2) (h : IsHex ds) (t : Text) :
    Token.escape (code 'x') (ds ++ t) = .ok (hexValue ds, 2) := by
  have hne : code 'x' ≠ code 'u' := by decide
  simp [Token.escape, hne, hexPrefix?_append hlen h]

theorem escape_four {ds : Text} (hlen : ds.length = 4) (h : IsHex ds) (t : Text) :
    Token.escape (code 'u') (ds ++ t) = .ok (hexValue ds, 4) := by
  have hbr : Token.bracedDigits? (ds ++ t) = none := by
    cases ds with
    | nil => cases hlen
    | cons c ds =>
      have hc : c ≠ 0x7B := by
        rintro rfl
        exact nomatch h _ List.mem_cons_self
      simp [Token.bracedDigits?, hc]
  simp [Token.escape, hbr, hexPrefix?_append hlen h]

theorem escape_braced {ds : Text} (hne : ds ≠ []) (h : IsHex ds) (hle : hexValue ds ≤ 0x10FFFF)
    (t : Text) :
    Token.escape (code 'u') (0x7B :: (ds ++ 0x7D :: t)) = .ok (hexValue ds, ds.length + 2) := by
  have hle' : Text.ofDigits 16 (ds.filterMap Text.hexDigit?) ≤ Token.lastCodePoint := hle
  simp [Token.escape, bracedDigits?_append hne h, hle', hexValue]

theorem drop_braced (ds t : Text) : (0x7B :: (ds ++ 0x7D :: t)).drop (ds.length + 2) = t := by
  rw [← List.singleton_append (l := t), ← List.append_assoc, List.drop_succ_cons,
    List.drop_left' (by simp)]

/-! ## Strings -/

/-- What an escape stands for comes before what the rest spells. -/
theorem unescapeFrom_escape {fuel n : Nat} {c d : CodePoint} {r t v : Text}
    (hescape : Token.escape c r = .ok (d, n)) (hdrop : r.drop n = t)
    (ht : Token.unescapeFrom fuel t = .ok v) :
    Token.unescapeFrom (fuel + 1) (code '\\' :: c :: r) = .ok (d :: v) := by
  simp [Token.unescapeFrom, hescape, hdrop, ht, pure, Except.pure, bind, Except.bind]

theorem unescapeFrom_plain {fuel : Nat} {c : CodePoint} {t v : Text} (hc : c ≠ code '\\')
    (ht : Token.unescapeFrom fuel t = .ok v) :
    Token.unescapeFrom (fuel + 1) (c :: t) = .ok (c :: v) := by
  cases t with
  | nil =>
    obtain rfl : v = [] := by cases fuel <;> exact (Except.ok.inj ht).symm
    rfl
  | cons d t =>
    simp [Token.unescapeFrom, hc, ht, pure, Except.pure, bind, Except.bind]

/-- The escapes of a text are replaced by what it spells, if as many code points may be made as the
    text has. -/
theorem Spells.unescapeFrom {t v : Text} (h : Spells t v) :
    ∀ fuel, t.length ≤ fuel → Token.unescapeFrom fuel t = .ok v := by
  induction h with
  | nil =>
    intro fuel _
    cases fuel <;> rfl
  | plain hc _ ih =>
    rintro (_ | fuel) hfuel
    · simp at hfuel
    · exact unescapeFrom_plain hc (ih fuel (by simp only [List.length_cons] at hfuel; omega))
  | @control c d t v hcd _ ih =>
    rintro (_ | fuel) hfuel
    · simp at hfuel
    obtain ⟨hu, hx, rfl⟩ := simpleEscape_control hcd
    exact unescapeFrom_escape (escape_simple hu hx t) rfl
      (ih fuel (by simp only [List.length_cons] at hfuel; omega))
  | @itself c t v hu hx hc _ ih =>
    rintro (_ | fuel) hfuel
    · simp at hfuel
    have hescape := escape_simple hu hx t
    rw [simpleEscape_itself hc] at hescape
    exact unescapeFrom_escape hescape rfl
      (ih fuel (by simp only [List.length_cons] at hfuel; omega))
  | @two ds t v hlen hhex _ ih =>
    rintro (_ | fuel) hfuel
    · simp at hfuel
    · exact unescapeFrom_escape (escape_two hlen hhex t) (List.drop_left' hlen)
        (ih fuel (by simp only [List.length_cons, List.length_append] at hfuel; omega))
  | @four ds t v hlen hhex _ ih =>
    rintro (_ | fuel) hfuel
    · simp at hfuel
    · exact unescapeFrom_escape (escape_four hlen hhex t) (List.drop_left' hlen)
        (ih fuel (by simp only [List.length_cons, List.length_append] at hfuel; omega))
  | @braced ds t v hne hhex hle _ ih =>
    rintro (_ | fuel) hfuel
    · simp at hfuel
    · exact unescapeFrom_escape (escape_braced hne hhex hle t) (drop_braced ds t)
        (ih fuel (by simp only [List.length_cons, List.length_append] at hfuel; omega))

theorem StringBody.of_escape {quote c : CodePoint} {t : Text}
    (h : StringBody quote (code '\\' :: c :: t)) : StringBody quote t := by
  generalize hw : code '\\' :: c :: t = w at h
  cases h with
  | nil => cases hw
  | escape _ h => cases hw; exact h
  | plain _ hne => cases hw; exact absurd rfl hne

theorem StringBody.of_plain {quote c : CodePoint} {t : Text} (h : StringBody quote (c :: t))
    (hc : c ≠ code '\\') : StringBody quote t := by
  generalize hw : c :: t = w at h
  cases h with
  | nil => cases hw
  | escape => cases hw; exact absurd rfl hc
  | plain _ _ h => cases hw; exact h

theorem StringBody.of_hex {quote : CodePoint} {ds t : Text} (h : StringBody quote (ds ++ t))
    (hhex : IsHex ds) : StringBody quote t := by
  induction ds with
  | nil => exact h
  | cons c ds ih =>
    have hc : c ≠ code '\\' := by
      rintro rfl
      exact nomatch hhex _ List.mem_cons_self
    exact ih (h.of_plain hc) fun d hd => hhex d (List.mem_cons_of_mem c hd)

/-- If the escapes of a string literal can be replaced, the literal spells what comes of it. -/
theorem spells_of_unescapeFrom {quote : CodePoint} {fuel : Nat} {t v : Text}
    (hfuel : t.length ≤ fuel) (hbody : StringBody quote t)
    (h : Token.unescapeFrom fuel t = .ok v) : Spells t v := by
  induction fuel generalizing t v with
  | zero =>
    obtain rfl := List.length_eq_zero_iff.mp (Nat.le_zero.mp hfuel)
    obtain rfl : [] = v := Except.ok.inj h
    exact .nil
  | succ fuel ih =>
    match t with
    | [] =>
      obtain rfl : [] = v := Except.ok.inj h
      exact .nil
    | [c] =>
      obtain rfl : [c] = v := Except.ok.inj h
      refine .plain ?_ .nil
      rintro rfl
      generalize hw : [code '\\'] = w at hbody
      cases hbody with
      | nil => cases hw
      | escape => cases hw
      | plain _ hne => cases hw; exact hne rfl
    | c :: d :: r =>
      rw [Token.unescapeFrom] at h
      simp only [List.length_cons] at hfuel
      split at h
      case isFalse hc =>
        cases hrest : Token.unescapeFrom fuel (d :: r) with
        | error => rw [hrest] at h; cases h
        | ok u =>
          rw [hrest] at h
          obtain rfl : c :: u = v := Except.ok.inj h
          exact .plain hc (ih (by simp only [List.length_cons]; omega) (hbody.of_plain hc) hrest)
      case isTrue hc =>
        subst hc
        cases hesc : Token.escape d r with
        | error => rw [hesc] at h; cases h
        | ok x =>
          obtain ⟨e, n⟩ := x
          rw [hesc] at h
          cases hrest : Token.unescapeFrom fuel (r.drop n) with
          | error => simp [hrest, bind, Except.bind] at h
          | ok u =>
            obtain rfl : e :: u = v := by
              simpa [hrest, bind, Except.bind, pure, Except.pure] using h
            have hr := hbody.of_escape
            rcases escape_eq_ok hesc with ⟨hu, hx, rfl, rfl⟩ |
              ⟨rfl, ds, t, rfl, hlen, hhex, rfl, rfl⟩ |
              ⟨rfl, ds, t, rfl, hlen, hhex, rfl, rfl⟩ |
              ⟨rfl, ds, t, rfl, hne, hhex, hle, rfl, rfl⟩
            · exact .simple hu hx (ih (by omega) hr hrest)
            · rw [List.drop_left' hlen] at hrest
              exact .two hlen hhex (ih (by simp at hfuel; omega) (hr.of_hex hhex) hrest)
            · rw [List.drop_left' hlen] at hrest
              exact .four hlen hhex (ih (by simp at hfuel; omega) (hr.of_hex hhex) hrest)
            · rw [drop_braced] at hrest
              have hr' := ((hr.of_plain (by decide)).of_hex hhex).of_plain (by decide)
              exact .braced hne hhex hle (ih (by simp at hfuel; omega) hr' hrest)

/-- What a string literal holds between its quotes. -/
theorem Matches.stringBody {t : Text} (ht : Matches (some .string) t) :
    ∃ quote, StringBody quote ((t.drop 1).dropLast) := by
  cases ht with
  | keyword h | symbol h => cases h
  | @string quote u _ h => exact ⟨quote, by simpa using h⟩

/-- The value of a string literal is what it spells, with surrogate pairs joined. -/
theorem stringValue_eq_ok_iff {t u : Text} (ht : Matches (some .string) t) :
    Token.stringValue t = .ok u ↔
      ∃ v, Spells ((t.drop 1).dropLast) v ∧ u = Text.joinSurrogates v := by
  obtain ⟨quote, hbody⟩ := ht.stringBody
  unfold Token.stringValue Token.unescape
  generalize (t.drop 1).dropLast = w at hbody
  constructor
  · intro h
    cases hw : Token.unescapeFrom w.length w with
    | error => rw [hw] at h; cases h
    | ok v =>
      rw [hw] at h
      exact ⟨v, spells_of_unescapeFrom (Nat.le_refl _) hbody hw, (Except.ok.inj h).symm⟩
  · rintro ⟨v, hv, rfl⟩
    rw [hv.unescapeFrom w.length (Nat.le_refl _)]
    rfl

/-- What is wrong with an escape is not that it is too long. -/
theorem escape_ne_tooLong (c : CodePoint) (r : Text) (n : Nat) :
    Token.escape c r ≠ .error (.tooLong n) := by
  unfold Token.escape
  split
  case isTrue =>
    split
    case h_1 => dsimp only; split <;> exact nofun
    case h_2 => split <;> exact nofun
  case isFalse =>
    split
    case isTrue => split <;> exact nofun
    case isFalse => exact nofun

theorem stringValue_ne_tooLong (t : Text) (n : Nat) :
    Token.stringValue t ≠ .error (.tooLong n) := by
  have hunescape : ∀ fuel u, Token.unescapeFrom fuel u ≠ .error (.tooLong n) := by
    intro fuel u
    fun_induction Token.unescapeFrom fuel u with
    | case1 | case2 | case3 => exact nofun
    | case4 fuel d r ih =>
      cases hesc : Token.escape d r with
      | error fault =>
        rintro ⟨⟩
        exact escape_ne_tooLong d r n hesc
      | ok x =>
        have hrest := ih x.2
        simp only [bind, Except.bind, ne_eq]
        split
        case h_1 fault h => rintro ⟨⟩; exact hrest h
        case h_2 => exact nofun
    | case5 fuel c d r _ ih =>
      simp only [bind, Except.bind, ne_eq]
      split
      case h_1 fault h => rintro ⟨⟩; exact ih h
      case h_2 => exact nofun
  unfold Token.stringValue Token.unescape
  have h := hunescape ((t.drop 1).dropLast).length ((t.drop 1).dropLast)
  generalize Token.unescapeFrom _ _ = o at h
  cases o with
  | error fault => rintro ⟨⟩; exact h rfl
  | ok => exact nofun

/-! ## Numbers -/

/-- The number that a numeral stands for: without a point the integer of its digits, else the double
    nearest to the fraction. -/
def numeral (t : Text) : Number :=
  let digits := t.filterMap Text.decimalDigit?
  let fraction := (t.dropWhile (· ≠ code '.')).drop 1
  if code '.' ∈ t then .double (Text.scaled false digits (-fraction.length))
  else .int (Text.ofDigits 10 digits)

/-- A number that is too long has more digits than can be read. -/
theorem digitLimit_lt_of_tooLong {t : Text} {n : Nat}
    (h : Token.numberValue t = .error (.tooLong n)) : digitLimit < n := by
  unfold Token.numberValue at h
  dsimp only at h
  split at h
  case h_1 =>
    split at h
    case isTrue hlt => cases h; exact hlt
    case isFalse => cases h
  case h_2 => cases h

/-- Without a point all of a number literal is its whole part. -/
theorem numberValue_integer {t : Text} (h : code '.' ∉ t) :
    Token.numberValue t =
      if digitLimit < t.length then .error (.tooLong t.length)
      else .ok (.int (Text.ofDigits 10 (Token.digitsOf t))) := by
  have htake : t.takeWhile (· ≠ code '.') = t := by
    have hall : ∀ c ∈ t, decide (c ≠ code '.') := by
      intro c hc
      rw [decide_eq_true_eq]
      rintro rfl
      exact h hc
    have h : (t ++ []).takeWhile (· ≠ code '.') = _ := List.takeWhile_append_of_pos hall
    rwa [List.append_nil, List.takeWhile_nil, List.append_nil] at h
  unfold Token.numberValue
  rw [htake]
  simp only [List.drop_length]

/-- The value of a number literal is what its text is the numeral of. -/
theorem numeral_of_numberValue {t : Text} {v : Number} (h : Token.numberValue t = .ok v) :
    v = numeral t := by
  by_cases hpoint : code '.' ∈ t
  · have hdrop : t.drop (t.takeWhile (· ≠ code '.')).length = t.dropWhile (· ≠ code '.') := by
      have hleft : (t.takeWhile (· ≠ code '.') ++ t.dropWhile (· ≠ code '.')).drop _ = _ :=
        List.drop_left
      rwa [List.takeWhile_append_dropWhile] at hleft
    have hsplit := List.takeWhile_append_dropWhile (p := (· ≠ code '.')) (l := t)
    cases hrest : t.dropWhile (· ≠ code '.') with
    | nil =>
      -- the point is left of what is dropped
      rw [hrest, List.append_nil] at hsplit
      have hall := mem_takeWhile (hsplit.symm ▸ hpoint)
      simp at hall
    | cons c fraction =>
      have hc : c = code '.' := by
        have hhead := List.head?_dropWhile_not (· ≠ code '.') t
        rw [hrest] at hhead
        simpa using hhead
      have hdigits : t.filterMap Text.decimalDigit? =
          Token.digitsOf (t.takeWhile (· ≠ code '.')) ++ Token.digitsOf fraction := by
        have hpoint : Text.decimalDigit? (code '.') = none := by decide
        rw [hrest, hc] at hsplit
        calc t.filterMap Text.decimalDigit?
            = (t.takeWhile (· ≠ code '.') ++ code '.' :: fraction).filterMap
                Text.decimalDigit? := by
              rw [hsplit]
          _ = _ := by
              rw [List.filterMap_append, List.filterMap_cons_none hpoint]
              rfl
      unfold Token.numberValue at h
      simp only [hdrop, hrest] at h
      obtain rfl := Except.ok.inj h
      simp only [numeral, hpoint, if_true, hdigits, hrest, List.drop_succ_cons, List.drop_zero]
  · rw [numberValue_integer hpoint] at h
    split at h
    case isTrue => cases h
    case isFalse =>
      obtain rfl := Except.ok.inj h
      simp [numeral, hpoint, Token.digitsOf]

/-- An integer has a value if it is not too long; a number with a fraction always has one. -/
theorem numberValue_isOk_iff {t : Text} :
    (∃ v, Token.numberValue t = .ok v) ↔ (code '.' ∉ t → t.length ≤ digitLimit) := by
  by_cases hpoint : code '.' ∈ t
  · refine ⟨fun _ h => absurd hpoint h, fun _ => ?_⟩
    unfold Token.numberValue
    dsimp only
    split
    case h_2 => exact ⟨_, rfl⟩
    case h_1 hdrop =>
      -- the whole part ends before the point
      have hall : t.takeWhile (· ≠ code '.') = t := by
        rw [← take_takeWhile, List.take_of_length_le (List.drop_eq_nil_iff.mp hdrop)]
      rw [← hall] at hpoint
      simpa using mem_takeWhile hpoint
  · rw [numberValue_integer hpoint]
    split
    case isTrue h => exact ⟨nofun, fun hle => absurd h (Nat.not_lt_of_le (hle hpoint))⟩
    case isFalse h => exact ⟨fun _ _ => Nat.le_of_not_lt h, fun _ => ⟨_, rfl⟩⟩

end FlatScope
