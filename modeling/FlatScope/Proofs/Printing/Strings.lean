import FlatScope.Proofs.Printing.Literals

/-!
# String literals

A text without surrogate pairs can be written as a string literal and read back: the literal is one
token, whatever follows it, and its value is the text. What a string literal denotes is always such
a text, since the joining of pairs leaves none (`Literal.quote_reads_back`).
-/

namespace FlatScope

/-- No first half of a surrogate pair stands directly before a second half. -/
def Text.Joined (t : Text) : Prop :=
  t.IsChain fun c d => ¬ (Text.isHighSurrogate c ∧ Text.isLowSurrogate d)

namespace Text

instance (t : Text) : Decidable t.Joined :=
  inferInstanceAs (Decidable (t.IsChain fun c d => ¬ (isHighSurrogate c ∧ isLowSurrogate d)))

theorem joined_cons {c d : CodePoint} {t : Text} :
    Joined (c :: d :: t) ↔ ¬ (isHighSurrogate c ∧ isLowSurrogate d) ∧ Joined (d :: t) :=
  List.isChain_cons_cons

/-- In a text without surrogate pairs there is nothing to join. -/
theorem Joined.joinSurrogates_eq {t : Text} (h : t.Joined) : joinSurrogates t = t := by
  fun_induction joinSurrogates t with
  | case1 => rfl
  | case2 c => rfl
  | case3 c d r hpair => exact absurd (by simpa using hpair) (joined_cons.mp h).1
  | case4 c d r _ ih => rw [ih (joined_cons.mp h).2]

/-- In front of what is joined a half may be put that makes no pair with what was there before. -/
theorem joined_cons_joinSurrogates {c : CodePoint} {t : Text} (h : (joinSurrogates t).Joined)
    (hc : ∀ d ∈ t.head?, ¬ (isHighSurrogate c ∧ isLowSurrogate d)) :
    Joined (c :: joinSurrogates t) := by
  cases t with
  | nil => exact .singleton c
  | cons d t =>
    have hd := hc d rfl
    by_cases hlow : isLowSurrogate d
    · have hhigh : isHighSurrogate c = false := by simpa [hlow] using hd
      generalize joinSurrogates (d :: t) = u at h
      cases u with
      | nil => exact .singleton c
      | cons e u => exact joined_cons.mpr ⟨by simp [hhigh], h⟩
    · -- what `d` becomes is no second half either
      obtain ⟨e, u, he, hlow⟩ := isLowSurrogate_joined (Bool.eq_false_of_not_eq_true hlow) t
      rw [he] at h ⊢
      exact joined_cons.mpr ⟨by simp [hlow], h⟩

/-- Joining surrogate pairs leaves none, whatever the run of halves. -/
theorem joined_joinSurrogates (t : Text) : (joinSurrogates t).Joined := by
  fun_induction joinSurrogates t with
  | case1 => exact .nil
  | case2 c => exact .singleton c
  | case3 c d r _ ih =>
    exact joined_cons_joinSurrogates ih fun e _ => by simp [(ofSurrogates_isSurrogate c d).1]
  | case4 c d r hpair ih =>
    refine joined_cons_joinSurrogates ih fun e he => ?_
    obtain rfl : d = e := Option.some.inj he
    simpa using hpair

end Text

/-- A text without surrogate pairs is written as one token of a string literal, which ends with its
    closing quote whatever follows, and whose value is that text; and the value of every string
    literal, in either kind of quotes, is such a text. -/
theorem Literal.quote_reads_back :
    (∀ u : Text, u.Joined →
      (∀ rest p fuel, Token.scanFrom (fuel + 1) p (Literal.quote u ++ rest) =
        (⟨.string, Literal.quote u, ⟨p, p.after (Literal.quote u)⟩⟩ ::
          (Token.scanFrom fuel (p.after (Literal.quote u)) rest).1,
          (Token.scanFrom fuel (p.after (Literal.quote u)) rest).2)) ∧
      Token.stringValue (Literal.quote u) = .ok u) ∧
    ∀ literal u, Matches (some .string) literal → Token.stringValue literal = .ok u → u.Joined := by
  refine ⟨fun u hu => ⟨fun rest p fuel => ?_, Literal.stringValue_quote hu.joinSurrogates_eq⟩,
    fun literal u _ hvalue => ?_⟩
  · have hlongest : Longest (some .string) (Literal.quote u) rest :=
      longest_string (q := Text.code '"') rfl (Literal.stringBody_escaped u) rest
    exact hlongest.scanFrom_token p fuel
  · have hjoined := Text.joined_joinSurrogates u
    rwa [Literal.joined_of_stringValue hvalue] at hjoined

/-- The theorem for a text with lone halves, a backslash, a quote and a line feed, and for a literal
    that spells the two halves of a pair. -/
theorem Literal.quote_reads_back_halves :
    Token.stringValue (Literal.quote [0xDC00, 0xD800, 0x5C, 0x75, 0x22, 0xA, 0xD800]) =
      .ok [0xDC00, 0xD800, 0x5C, 0x75, 0x22, 0xA, 0xD800] ∧
    Token.stringValue (Text.ofString "'\\uD83D\\uDE00'") = .ok [0x1F600] ∧
    Text.Joined [0x1F600] := by
  have hlength :
      Token.stringLength? (Text.code '\'') (Text.ofString "\\uD83D\\uDE00'") = some 13 := by
    decide
  have hvalue : Token.stringValue (Text.ofString "'\\uD83D\\uDE00'") = .ok [0x1F600] := by decide
  have hmatches : Matches (some .string) (Text.ofString "'\\uD83D\\uDE00'") :=
    (lexeme_string rfl hlength).holds
  exact ⟨(Literal.quote_reads_back.1 _ (by decide)).2, hvalue,
    Literal.quote_reads_back.2 _ _ hmatches hvalue⟩

end FlatScope
