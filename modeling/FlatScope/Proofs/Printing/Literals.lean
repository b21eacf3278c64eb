import FlatScope.Proofs.Number.Decimal
import FlatScope.Proofs.Printing.Derivable

/-!
# Printed literals

The literal that a constant is printed as denotes that constant again, if it was read from one.
-/

namespace FlatScope

open Text (code)
open Grammar

/-! ## Strings -/

namespace Text

/-- What a surrogate pair stands for is no half of a pair. -/
theorem ofSurrogates_isSurrogate (c d : CodePoint) :
    isHighSurrogate (ofSurrogates c d) = false ∧ isLowSurrogate (ofSurrogates c d) = false := by
  have hlt : 0xFFFF < ofSurrogates c d :=
    Nat.le_trans (Nat.le_add_right _ _) (Nat.le_add_right _ _)
  have hhigh : ¬ofSurrogates c d ≤ 0xDBFF :=
    Nat.not_le_of_lt (Nat.lt_trans (show 0xDBFF < 0xFFFF by decide) hlt)
  have hlow : ¬ofSurrogates c d ≤ 0xDFFF :=
    Nat.not_le_of_lt (Nat.lt_trans (show 0xDFFF < 0xFFFF by decide) hlt)
  exact ⟨by rw [isHighSurrogate, decide_eq_false hhigh, Bool.and_false],
    by rw [isLowSurrogate, decide_eq_false hlow, Bool.and_false]⟩

/-- What stands first after surrogate pairs are joined is no second half of a pair if there was
    none. -/
theorem isLowSurrogate_joined {d : CodePoint} (hd : isLowSurrogate d = false) (t : Text) :
    ∃ e r, joinSurrogates (d :: t) = e :: r ∧ isLowSurrogate e = false := by
  unfold joinSurrogates
  split
  case h_1 h => cases h
  case h_2 h => exact ⟨_, _, rfl, by cases h; exact hd⟩
  case h_3 h =>
    cases h
    split
    case isTrue => exact ⟨_, _, rfl, (ofSurrogates_isSurrogate _ _).2⟩
    case isFalse => exact ⟨_, _, rfl, hd⟩

/-- Joining surrogate pairs leaves none. -/
theorem joinSurrogates_idem (t : Text) :
    joinSurrogates (joinSurrogates t) = joinSurrogates t := by
  fun_induction joinSurrogates t with
  | case1 => rfl
  | case2 c => rfl
  | case3 c d r h ih =>
    generalize joinSurrogates r = u at ih
    cases u with
    | nil => rfl
    | cons e u =>
      rw [joinSurrogates, (ofSurrogates_isSurrogate c d).1, Bool.false_and,
        if_neg Bool.false_ne_true, ih]
  | case4 c d r h ih =>
    by_cases hc : isHighSurrogate c
    · have hd : isLowSurrogate d = false := by simpa [hc] using h
      obtain ⟨e, u, he, hlow⟩ := isLowSurrogate_joined hd r
      rw [he] at ih ⊢
      rw [joinSurrogates, hlow, Bool.and_false, if_neg Bool.false_ne_true, ih]
    · obtain ⟨e, u, he⟩ : ∃ e u, joinSurrogates (d :: r) = e :: u := by
        unfold joinSurrogates
        split
        case h_1 h => cases h
        case h_2 => exact ⟨_, _, rfl⟩
        case h_3 => split <;> exact ⟨_, _, rfl⟩
      rw [he] at ih ⊢
      rw [joinSurrogates, Bool.eq_false_of_not_eq_true hc, Bool.false_and,
        if_neg Bool.false_ne_true, ih]

end Text

namespace Literal

/-- A code point is written as an escape that stands for it, or as itself. -/
theorem escapeCode_cases (c : CodePoint) :
    (∃ x, escapeCode c = [code '\\', x] ∧ x ≠ code 'u' ∧ x ≠ code 'x' ∧ x ≠ code '\n' ∧
      Token.simpleEscape x = c) ∨
    (escapeCode c = [c] ∧ c ≠ code '\\' ∧ c ≠ code '"') := by
  by_cases hc : c ∈ ("\\\"\n\t\r" : Text)
  · left
    have hall : ∀ c ∈ ("\\\"\n\t\r" : Text), ∃ x ∈ ("\\\"ntr" : Text), escapeCode
      c = [code '\\', x] ∧
        Token.simpleEscape x = c := by decide
    have hletter : ∀ x ∈ ("\\\"ntr" : Text), x ≠ code 'u' ∧ x ≠ code 'x' ∧
      x ≠ code '\n' := by decide
    obtain ⟨x, hx, h, hsimple⟩ := hall c hc
    exact ⟨x, h, (hletter x hx).1, (hletter x hx).2.1, (hletter x hx).2.2, hsimple⟩
  · right
    have hne : ∀ d ∈ ("\\\"\n\t\r" : Text), c ≠ d := fun d hd h => hc (h ▸ hd)
    have hquote := hne (code '"') (by decide)
    have hslash := hne (code '\\') (by decide)
    refine ⟨?_, hslash, hquote⟩
    simp [escapeCode, hslash, hquote, hne (code '\n') (by decide), hne (code '\t') (by decide),
      hne (code '\r') (by decide)]

theorem stringBody_escaped (u : Text) : StringBody (code '"') (u.flatMap escapeCode) := by
  induction u with
  | nil => exact .nil
  | cons c u ih =>
    rw [List.flatMap_cons]
    rcases escapeCode_cases c with ⟨x, h, -, -, hx, -⟩ | ⟨h, hslash, hquote⟩ <;> rw [h]
    · exact .escape hx ih
    · exact .plain hquote hslash ih

/-- The escapes of a text stand for it. -/
theorem unescapeFrom_escaped (u : Text) (fuel : Nat)
    (hfuel : (u.flatMap escapeCode).length ≤ fuel) :
    Token.unescapeFrom fuel (u.flatMap escapeCode) = .ok u := by
  induction u generalizing fuel with
  | nil => cases fuel <;> rfl
  | cons c u ih =>
    rw [List.flatMap_cons] at hfuel ⊢
    rcases escapeCode_cases c with ⟨x, h, hu, hx, -, hc⟩ | ⟨h, hslash, -⟩ <;> rw [h] at hfuel ⊢
    · obtain ⟨fuel, rfl⟩ : ∃ k, fuel = k + 1 :=
        Nat.exists_eq_add_one_of_ne_zero (by rintro rfl; cases hfuel)
      have hrest := ih fuel (by simp only [List.length_append, List.length_cons] at hfuel; omega)
      simp [Token.unescapeFrom, escape_simple hu hx, hrest, hc, pure, Except.pure,
        bind, Except.bind]
    · obtain ⟨fuel, rfl⟩ : ∃ k, fuel = k + 1 :=
        Nat.exists_eq_add_one_of_ne_zero (by rintro rfl; cases hfuel)
      have hrest := ih fuel (by simp only [List.length_append, List.length_cons] at hfuel; omega)
      generalize u.flatMap escapeCode = t at hrest
      cases t with
      | nil =>
        have hu : u = [] := by cases fuel <;> exact (Except.ok.inj hrest).symm
        rw [hu]
        rfl
      | cons d t =>
        simp [Token.unescapeFrom, hslash, hrest, pure, Except.pure, bind, Except.bind]

/-- A text without surrogate pairs is denoted by its literal. -/
theorem stringValue_quote {u : Text} (h : Text.joinSurrogates u = u) :
    Token.stringValue (quote u) = .ok u := by
  have hbody : ((quote u).drop 1).dropLast = u.flatMap escapeCode := by simp [quote]
  rw [Token.stringValue, hbody, Token.unescape, unescapeFrom_escaped u _ (Nat.le_refl _)]
  exact congrArg Except.ok h

theorem joined_of_stringValue {t u : Text} (h : Token.stringValue t = .ok u) :
    Text.joinSurrogates u = u := by
  unfold Token.stringValue at h
  generalize Token.unescape _ = v at h
  cases v with
  | error => cases h
  | ok v =>
    cases h
    exact Text.joinSurrogates_idem v

end Literal

/-! ## Literals -/

/-- The literal of a node, if it is a double, is printed without an exponent. -/
def Node.IsPlain {α : Type} (n : Node α) : Prop :=
  ∀ a d, n = .expr (.literal a (.number (.double d))) → IsPlainDecimal d.text

/-- A node that was read and whose text can be read again. -/
def Node.Printable (n : Node Extent) : Prop := n.Legible ∧ n.IsPlain

/-- A constant that its token denotes. -/
theorem Reads.constant {a : Extent} {v : Literal} {w : Text} {A : Text → Prop} {k : Terminal}
    (make : Leaf k → Constant) (h : Reads w A (Single k w))
    (hv : ∀ t : Leaf k, t.1.text = w →
      (make t).token = t.1 ∧ literalFaults t.1 = [] ∧ (make t).value = v) :
    Reads w A (DerivesPostfix (.literal a v)) := by
  refine h.mono ?_
  rintro _ ⟨t, ht, rfl⟩
  obtain ⟨htoken, hf, rfl⟩ := hv t ht
  have h := DerivesPostfix.atom (e := .literal a (make t).value) (.constant (make t))
    (by rw [AtomTree.faults, AtomTree.collect, htoken, hf]) rfl
  rwa [AtomTree.tokens, AtomTree.collect, htoken] at h

theorem Reads.numberLiteral {a : Extent} {t : Text} {n : Number} (ht : Matches (some .number) t)
    (hn : Token.numberValue t = .ok n) :
    Reads t Ended (DerivesPostfix (.literal a (.number n))) := by
  refine .constant Constant.number (.number ht) ?_
  rintro ⟨t, hk⟩ rfl
  refine ⟨rfl, ?_, ?_⟩
  · simp [literalFaults, hn, hk]
  · rw [Constant.value, hn]
    rfl

theorem Literal.reads {a : Extent} {v : Literal} (h : (Node.expr (.literal a v)).Printable) :
    Reads v.format Ended (DerivesPostfix (.literal a v)) := by
  obtain ⟨hlegible, hplain⟩ := h
  cases v with
  | undefined =>
    exact .constant Constant.undefined (.keyword (by decide)) fun t _ =>
        ⟨rfl, t.no_faults (by simp), rfl⟩
  | bool b =>
    cases b with
    | false =>
      exact .constant Constant.false (.keyword (by decide)) fun t _ =>
        ⟨rfl, t.no_faults (by simp), rfl⟩
    | true =>
      exact .constant Constant.true (.keyword (by decide)) fun t _ =>
        ⟨rfl, t.no_faults (by simp), rfl⟩
  | text u =>
    obtain ⟨t, -, hu⟩ := hlegible
    have hvalue := Literal.stringValue_quote (Literal.joined_of_stringValue hu)
    have hread := Reads.string (q := code '"') rfl (Literal.stringBody_escaped u)
    refine Reads.ended (.constant Constant.string hread ?_)
    rintro ⟨t, hk⟩ ht
    change t.text = Literal.quote u at ht
    refine ⟨rfl, ?_, ?_⟩
    · simp [literalFaults, ht, hvalue, hk]
    · rw [Constant.value, ht, hvalue]
      rfl
  | number n =>
    obtain ⟨t, ht, hn⟩ := hlegible
    cases n with
    | int i =>
      obtain ⟨n, rfl, hlength⟩ := numberValue_int hn
      exact .numberLiteral (.integer (Text.ofNat_ne_nil n) (Text.isDigits_ofNat n).decimal)
        (numberValue_ofNat hlength)
    | double d =>
      have hd := hplain a d rfl
      refine .numberLiteral ?_ (numberValue_text hn hd)
      obtain ⟨w, f, hw, hf, hdigits, htext⟩ := hd
      rw [Literal.format, Number.literalText, htext]
      exact .decimal hw hf (Text.IsDigits.decimal hdigits)

end FlatScope
