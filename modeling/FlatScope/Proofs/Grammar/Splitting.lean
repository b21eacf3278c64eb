import FlatScope.Token.Lexer
import FlatScope.Proofs.Position

/-!
# How a source splits into tokens

The terminals of the grammar as a relation between terminals and texts (`Matches`), and the
splitting of a source by the longest match (`Splits`): at each place the longest text that matches
a terminal, or white space or a comment, is taken. No text matches two terminals, since words that
are reserved are no names. The tokens that are scanned are those of the splitting
(`splits_iff_scan`); where scanning stops early, the source begins with the tokens that were scanned
(`Begins`), and nothing matches there (`begins_of_scan`).
-/

namespace FlatScope

open Text (code)

/-- The text of a terminal that is a reserved word. -/
def Terminal.word? : Terminal → Option Text
  | .kwVar => some "var"
  | .kwLet => some "let"
  | .kwConst => some "const"
  | .kwReturn => some "return"
  | .kwBreak => some "break"
  | .kwContinue => some "continue"
  | .kwTrue => some "true"
  | .kwFalse => some "false"
  | .kwUndefined => some "undefined"
  | .kwFunction => some "function"
  | .kwIf => some "if"
  | .kwElse => some "else"
  | .kwWhile => some "while"
  | .kwFor => some "for"
  | .kwOf => some "of"
  | _ => none

/-- The text of a terminal that is an operator or a punctuation mark. -/
def Terminal.mark? : Terminal → Option Text
  | .operator .or => some "||"
  | .operator .and => some "&&"
  | .operator .eq => some "=="
  | .operator .ne => some "!="
  | .operator .le => some "<="
  | .operator .ge => some ">="
  | .operator .lt => some "<"
  | .operator .gt => some ">"
  | .operator .add => some "+"
  | .operator .sub => some "-"
  | .operator .mul => some "*"
  | .operator .div => some "/"
  | .operator .mod => some "%"
  | .bang => some "!"
  | .leftParen => some "("
  | .rightParen => some ")"
  | .leftBrace => some (Text.ofString "\x7b")
  | .rightBrace => some (Text.ofString "\x7d")
  | .leftBracket => some "["
  | .rightBracket => some "]"
  | .comma => some ","
  | .semicolon => some ";"
  | .equals => some "="
  | _ => none

/-- What may stand between the quotes of a string literal: a backslash with any code point but a
    line feed, and anything else but the quote. -/
inductive StringBody (quote : CodePoint) : Text → Prop
  | nil : StringBody quote []
  | escape {c : CodePoint} {t : Text} : c ≠ code '\n' → StringBody quote t →
      StringBody quote (code '\\' :: c :: t)
  | plain {c : CodePoint} {t : Text} : c ≠ quote → c ≠ code '\\' → StringBody quote t →
      StringBody quote (c :: t)

/-- The texts of a terminal; those of none are white space and comments. -/
inductive Matches : Option Terminal → Text → Prop
  | blank {t : Text} : t ≠ [] → (∀ c ∈ t, Token.isSpace c) → Matches none t
  | comment {t : Text} : (∀ c ∈ t, c ≠ code '\n') → Matches none (code '/' :: code '/' :: t)
  | keyword {t : Text} {k : Terminal} : k.word? = some t → Matches (some k) t
  | name {c : CodePoint} {t : Text} : Text.isNameStart c → (∀ d ∈ t, Text.isNamePart d) →
      (∀ k : Terminal, k.word? ≠ some (c :: t)) → Matches (some .name) (c :: t)
  | integer {t : Text} : t ≠ [] → (∀ c ∈ t, Text.isDecimalDigit c) → Matches (some .number) t
  | decimal {t u : Text} : t ≠ [] → u ≠ [] → (∀ c ∈ t ++ u, Text.isDecimalDigit c) →
      Matches (some .number) (t ++ code '.' :: u)
  | string {quote : CodePoint} {t : Text} : (quote = code '"' ∨ quote = code '\'') →
      StringBody quote t → Matches (some .string) (quote :: (t ++ [quote]))
  | symbol {t : Text} {k : Terminal} : k.mark? = some t → Matches (some k) t

/-- The longest text at the start of a source that matches anything is `t`, and it matches `k`. -/
structure Longest (k : Option Terminal) (t rest : Text) : Prop where
  holds : Matches k t
  longest : ∀ k' t', Matches k' t' → t' <+: t ++ rest → t'.length ≤ t.length

/-- The splitting of the source `s`, which starts at `p`, into tokens. -/
inductive Splits : Position → Text → List Token → Prop
  | nil {p : Position} : Splits p [] []
  | skip {p : Position} {t rest : Text} {ts : List Token} : Longest none t rest →
      Splits (p.after t) rest ts → Splits p (t ++ rest) ts
  | token {p : Position} {k : Terminal} {t rest : Text} {ts : List Token} :
      Longest (some k) t rest → Splits (p.after t) rest ts →
      Splits p (t ++ rest) (⟨k, t, ⟨p, p.after t⟩⟩ :: ts)

/-- The source `s`, which starts at `p`, begins with the tokens `ts`, and its rest `r` starts at
    `q`. -/
inductive Begins : Position → Text → List Token → Position → Text → Prop
  | nil {p : Position} {s : Text} : Begins p s [] p s
  | skip {p q : Position} {t rest r : Text} {ts : List Token} : Longest none t rest →
      Begins (p.after t) rest ts q r → Begins p (t ++ rest) ts q r
  | token {p q : Position} {k : Terminal} {t rest r : Text} {ts : List Token} :
      Longest (some k) t rest → Begins (p.after t) rest ts q r →
      Begins p (t ++ rest) (⟨k, t, ⟨p, p.after t⟩⟩ :: ts) q r

/-! ## Classes of code points -/

/-- No digit of any script is an ASCII character but the ASCII digits. -/
theorem Text.isDecimalDigit_bounds {c : Nat} (h : Text.isDecimalDigit c) :
    (0x30 ≤ c ∧ c ≤ 0x39) ∨ 0x660 ≤ c := by
  unfold Text.isDecimalDigit Text.decimalDigit? at h
  rw [Option.isSome_map, List.find?_isSome] at h
  obtain ⟨z, hz, hc⟩ := h
  have hall : ∀ z ∈ Text.zeros, z = 0x30 ∨ 0x660 ≤ z := by decide
  have hz' := hall z hz
  simp only [Bool.and_eq_true, decide_eq_true_eq, CodePoint] at hc hz'
  omega

theorem Text.isNameStart_iff {c : Nat} :
    Text.isNameStart c ↔ 0x41 ≤ c ∧ c ≤ 0x5A ∨ c = 0x5F ∨ 0x61 ≤ c ∧ c ≤ 0x7A := by
  simp only [Text.isNameStart, Bool.or_eq_true, Bool.and_eq_true, decide_eq_true_eq,
    beq_iff_eq, CodePoint, show code 'a' = 0x61 from rfl, show code 'z' = 0x7A from rfl,
    show code 'A' = 0x41 from rfl, show code 'Z' = 0x5A from rfl, show code '_' = 0x5F from rfl]
  omega

theorem Token.isSpace_iff {c : Nat} :
    Token.isSpace c ↔ c = 0x20 ∨ c = 0x9 ∨ c = 0xC ∨ c = 0xD ∨ c = 0xA := by
  simp [Token.isSpace]

/-- The code points by which string literals begin and end. -/
def isQuote (c : CodePoint) : Bool := c = code '"' ∨ c = code '\''

/-- A code point that begins none but operators, punctuation marks and comments. -/
def isMark (c : CodePoint) : Bool :=
  !Token.isSpace c && !Text.isNameStart c && !Text.isDecimalDigit c && !isQuote c

theorem not_isDecimalDigit_of_start {c : Nat} (h : Text.isNameStart c) :
    Text.isDecimalDigit c = false := by
  rw [Text.isNameStart_iff] at h
  rw [Bool.eq_false_iff]
  intro hd
  have := Text.isDecimalDigit_bounds hd
  omega

theorem not_isSpace_of_start {c : Nat} (h : Text.isNameStart c) : Token.isSpace c = false := by
  rw [Text.isNameStart_iff] at h
  rw [Bool.eq_false_iff, ne_eq, Token.isSpace_iff]
  omega

theorem not_isSpace_of_digit {c : Nat} (h : Text.isDecimalDigit c) : Token.isSpace c = false := by
  have := Text.isDecimalDigit_bounds h
  rw [Bool.eq_false_iff, ne_eq, Token.isSpace_iff]
  omega

/-! ## What a text that matches looks like -/

/-- A name or a reserved word. -/
def isWord : Text → Bool
  | [] => false
  | c :: t => Text.isNameStart c && t.all Text.isNamePart

/-- The words that the scanner knows are those of the grammar. -/
theorem Terminal.mem_keywords {t : Text} {k : Terminal} :
    (t, k) ∈ Terminal.keywords ↔ k.word? = some t := by
  have hall : ∀ p ∈ Terminal.keywords, p.2.word? = some p.1 := by decide
  refine ⟨fun h => hall _ h, fun h => ?_⟩
  unfold Terminal.word? at h
  split at h <;> cases h <;> decide

/-- The marks that the scanner knows are those of the grammar. -/
theorem Terminal.mem_symbols {t : Text} {k : Terminal} :
    (t, k) ∈ Terminal.symbols ↔ k.mark? = some t := by
  have hall : ∀ p ∈ Terminal.symbols, p.2.mark? = some p.1 := by decide
  refine ⟨fun h => hall _ h, fun h => ?_⟩
  unfold Terminal.mark? at h
  split at h <;> cases h <;> decide

theorem Terminal.keywords_words :
    ∀ p ∈ Terminal.keywords, isWord p.1 ∧ Terminal.ofWord p.1 = p.2 := by
  decide

theorem Terminal.symbols_marks : ∀ p ∈ Terminal.symbols, p.1.head?.any isMark := by
  decide

/-- A text that matches is of the kind that its first code point says. -/
theorem Matches.cases_head {k : Option Terminal} {c : CodePoint} {t : Text}
    (h : Matches k (c :: t)) :
    (Token.isSpace c ∧ k = none ∧ ∀ d ∈ c :: t, Token.isSpace d) ∨
    (c = code '/' ∧ k = none ∧ ∃ u, t = code '/' :: u ∧ ∀ d ∈ u, d ≠ code '\n') ∨
    (Text.isNameStart c ∧ k = some (Terminal.ofWord (c :: t)) ∧ ∀ d ∈ t, Text.isNamePart d) ∨
    (Text.isDecimalDigit c ∧ k = some .number) ∨
    (isQuote c ∧ k = some .string ∧ ∃ u, t = u ++ [c] ∧ StringBody c u) ∨
    (isMark c ∧ ∃ k', k = some k' ∧ (c :: t, k') ∈ Terminal.symbols) := by
  generalize hw : c :: t = w at h
  cases h with
  | blank _ hall => subst hw; exact .inl ⟨hall c List.mem_cons_self, rfl, hall⟩
  | comment hall =>
    obtain ⟨rfl, rfl⟩ := List.cons.inj hw
    exact .inr (.inl ⟨rfl, rfl, _, rfl, hall⟩)
  | keyword hk =>
    subst hw
    obtain ⟨hword, hof⟩ := Terminal.keywords_words _ (Terminal.mem_keywords.mpr hk)
    simp only [isWord, Bool.and_eq_true, List.all_eq_true] at hword
    exact .inr (.inr (.inl ⟨hword.1, by rw [hof], hword.2⟩))
  | name hstart hpart hne =>
    obtain ⟨rfl, rfl⟩ := List.cons.inj hw
    refine .inr (.inr (.inl ⟨hstart, ?_, hpart⟩))
    have hlook : Terminal.keywords.lookup (c :: t) = none := by
      rw [List.lookup_eq_none_iff]
      rintro ⟨w, k⟩ hp
      have hword := Terminal.mem_keywords.mp hp
      simpa using fun heq : c :: t = w => hne k (heq ▸ hword)
    simp [Terminal.ofWord, hlook]
  | integer _ hall =>
    subst hw
    exact .inr (.inr (.inr (.inl ⟨hall c List.mem_cons_self, rfl⟩)))
  | @decimal t' u ht _ hall =>
    obtain ⟨d, t', rfl⟩ := List.exists_cons_of_ne_nil ht
    obtain ⟨rfl, rfl⟩ := List.cons.inj hw
    exact .inr (.inr (.inr (.inl ⟨hall c (by simp), rfl⟩)))
  | string hq hbody =>
    obtain ⟨rfl, rfl⟩ := List.cons.inj hw
    exact .inr (.inr (.inr (.inr (.inl ⟨by simpa [isQuote] using hq, rfl, _, rfl, hbody⟩))))
  | symbol hk =>
    subst hw
    exact .inr (.inr (.inr
      (.inr (.inr ⟨Terminal.symbols_marks _ (Terminal.mem_symbols.mpr hk), _, rfl,
      Terminal.mem_symbols.mpr hk⟩))))

theorem Matches.ne_nil {k : Option Terminal} {t : Text} (h : Matches k t) : t ≠ [] := by
  cases h with
  | blank h => exact h
  | integer h => exact h
  | keyword h =>
    rintro rfl
    exact nomatch (Terminal.keywords_words _ (Terminal.mem_keywords.mpr h)).1
  | symbol h =>
    rintro rfl
    exact nomatch Terminal.symbols_marks _ (Terminal.mem_symbols.mpr h)
  | _ => simp

/-! ## The kind of a text by its first code point -/

section Kinds

variable {k : Option Terminal} {c : CodePoint} {t : Text}

/-- The classes of first code points exclude each other. -/
theorem isMark_not (h : isMark c) :
    Token.isSpace c = false ∧ Text.isNameStart c = false ∧ Text.isDecimalDigit c = false ∧
      isQuote c = false := by
  simpa [isMark, and_assoc] using h

theorem isQuote_not (h : isQuote c) :
    Token.isSpace c = false ∧ Text.isNameStart c = false ∧ Text.isDecimalDigit c = false := by
  have hc : c = code '"' ∨ c = code '\'' := by simpa [isQuote] using h
  rcases hc with rfl | rfl <;> decide

theorem isMark_slash : isMark (code '/') := by decide

theorem Matches.of_space (h : Matches k (c :: t)) (hc : Token.isSpace c) :
    k = none ∧ ∀ d ∈ c :: t, Token.isSpace d := by
  rcases h.cases_head with ⟨_, h⟩ | ⟨rfl, _⟩ | ⟨hs, _⟩ | ⟨hd, _⟩ | ⟨hq, _⟩ | ⟨hm, _⟩
  · exact h
  · exact nomatch hc
  · rw [not_isSpace_of_start hs] at hc; exact nomatch hc
  · rw [not_isSpace_of_digit hd] at hc; exact nomatch hc
  · rw [(isQuote_not hq).1] at hc; exact nomatch hc
  · rw [(isMark_not hm).1] at hc; exact nomatch hc

theorem Matches.of_start (h : Matches k (c :: t)) (hc : Text.isNameStart c) :
    k = some (Terminal.ofWord (c :: t)) ∧ ∀ d ∈ t, Text.isNamePart d := by
  rcases h.cases_head with ⟨hs, _⟩ | ⟨rfl, _⟩ | ⟨_, h⟩ | ⟨hd, _⟩ | ⟨hq, _⟩ | ⟨hm, _⟩
  · rw [not_isSpace_of_start hc] at hs; exact nomatch hs
  · exact nomatch hc
  · exact h
  · rw [not_isDecimalDigit_of_start hc] at hd; exact nomatch hd
  · rw [(isQuote_not hq).2.1] at hc; exact nomatch hc
  · rw [(isMark_not hm).2.1] at hc; exact nomatch hc

theorem Matches.of_digit (h : Matches k (c :: t)) (hc : Text.isDecimalDigit c) :
    k = some .number := by
  rcases h.cases_head with ⟨hs, _⟩ | ⟨rfl, _⟩ | ⟨hs, _⟩ | ⟨_, h⟩ | ⟨hq, _⟩ | ⟨hm, _⟩
  · rw [not_isSpace_of_digit hc] at hs; exact nomatch hs
  · rw [(isMark_not isMark_slash).2.2.1] at hc; exact nomatch hc
  · rw [not_isDecimalDigit_of_start hs] at hc; exact nomatch hc
  · exact h
  · rw [(isQuote_not hq).2.2] at hc; exact nomatch hc
  · rw [(isMark_not hm).2.2.1] at hc; exact nomatch hc

theorem Matches.of_quote (h : Matches k (c :: t)) (hc : isQuote c) :
    k = some .string ∧ ∃ u, t = u ++ [c] ∧ StringBody c u := by
  rcases h.cases_head with ⟨hs, _⟩ | ⟨rfl, _⟩ | ⟨hs, _⟩ | ⟨hd, _⟩ | ⟨_, h⟩ | ⟨hm, _⟩
  · rw [(isQuote_not hc).1] at hs; exact nomatch hs
  · exact nomatch hc
  · rw [(isQuote_not hc).2.1] at hs; exact nomatch hs
  · rw [(isQuote_not hc).2.2] at hd; exact nomatch hd
  · exact h
  · rw [(isMark_not hm).2.2.2] at hc; exact nomatch hc

theorem Matches.of_mark (h : Matches k (c :: t)) (hc : isMark c) :
    (c = code '/' ∧ k = none ∧ ∃ u, t = code '/' :: u ∧ ∀ d ∈ u, d ≠ code '\n') ∨
      ∃ k', k = some k' ∧ (c :: t, k') ∈ Terminal.symbols := by
  obtain ⟨h₁, h₂, h₃, h₄⟩ := isMark_not hc
  rcases h.cases_head with ⟨hs, _⟩ | h | ⟨hs, _⟩ | ⟨hd, _⟩ | ⟨hq, _⟩ | ⟨_, h⟩
  · rw [h₁] at hs; exact nomatch hs
  · exact .inl h
  · rw [h₂] at hs; exact nomatch hs
  · rw [h₃] at hd; exact nomatch hd
  · rw [h₄] at hq; exact nomatch hq
  · exact .inr h

end Kinds

/-! ## The lexeme at a place -/

/-- The first `n` code points of a source match `k`, and no more of it matches anything; as many
    match only `k`. -/
structure TakesLexeme (k : Option Terminal) (n : Nat) (s : Text) : Prop where
  bound : n ≤ s.length
  holds : Matches k (s.take n)
  longest : ∀ k' t, Matches k' t → t <+: s → t.length ≤ n ∧ (t.length = n → k' = k)

theorem length_le_takeWhile {p : CodePoint → Bool} {t s : Text} (h : t <+: s)
    (hall : ∀ c ∈ t, p c) : t.length ≤ (s.takeWhile p).length := by
  obtain ⟨r, rfl⟩ := h
  rw [List.takeWhile_append_of_pos hall, List.length_append]
  exact Nat.le_add_right _ _

theorem mem_takeWhile {p : CodePoint → Bool} {s : Text} {c : CodePoint}
    (h : c ∈ s.takeWhile p) : p c :=
  List.all_eq_true.mp List.all_takeWhile c h

theorem take_takeWhile (p : CodePoint → Bool) (s : Text) :
    s.take (s.takeWhile p).length = s.takeWhile p :=
  List.prefix_iff_eq_take.mp (List.takeWhile_prefix p) |>.symm

/-- A word that is reserved or a name. -/
theorem matches_word {c : CodePoint} {t : Text} (hc : Text.isNameStart c)
    (ht : ∀ d ∈ t, Text.isNamePart d) : Matches (some (Terminal.ofWord (c :: t))) (c :: t) := by
  by_cases hk : ∃ k : Terminal, k.word? = some (c :: t)
  · obtain ⟨k, hword⟩ := hk
    rw [(Terminal.keywords_words _ (Terminal.mem_keywords.mpr hword)).2]
    exact .keyword hword
  · have hname := Matches.name hc ht (not_exists.mp hk)
    rwa [← (hname.of_start hc).1]

theorem lexeme_word {c : CodePoint} {r : Text} (hc : Text.isNameStart c) :
    TakesLexeme (some (Terminal.ofWord (c :: r.takeWhile Text.isNamePart)))
      (c :: r.takeWhile Text.isNamePart).length (c :: r) where
  bound := Nat.succ_le_succ (List.takeWhile_prefix _).length_le
  holds := by
    rw [List.length_cons, List.take_succ_cons, take_takeWhile]
    exact matches_word hc fun d => mem_takeWhile
  longest k' t ht hp := by
    obtain ⟨d, t, rfl⟩ := List.exists_cons_of_ne_nil ht.ne_nil
    obtain ⟨rfl, hp'⟩ := List.cons_prefix_cons.mp hp
    obtain ⟨rfl, hall⟩ := ht.of_start hc
    have hle := length_le_takeWhile hp' hall
    refine ⟨Nat.succ_le_succ hle, fun hlen => ?_⟩
    have hlen : t.length = (r.takeWhile Text.isNamePart).length := Nat.succ.inj hlen
    rw [List.prefix_iff_eq_take.mp hp', hlen, take_takeWhile]

theorem Terminal.symbols_slash :
    ∀ p ∈ Terminal.symbols, p.1.head? = some (code '/') → p.1.length = 1 := by
  decide

theorem lexeme_comment {rest : Text} :
    TakesLexeme none (2 + (rest.takeWhile (· ≠ code '\n')).length)
    (code '/' :: code '/' :: rest) where
  bound := by
    have := (List.takeWhile_prefix (· ≠ code '\n') (l := rest)).length_le
    simp only [List.length_cons]
    omega
  holds := by
    rw [Nat.add_comm, List.take_succ_cons, List.take_succ_cons, take_takeWhile]
    exact .comment fun d hd => by simpa using mem_takeWhile hd
  longest k' t ht hp := by
    obtain ⟨d, t, rfl⟩ := List.exists_cons_of_ne_nil ht.ne_nil
    obtain ⟨rfl, hp'⟩ := List.cons_prefix_cons.mp hp
    rcases ht.of_mark isMark_slash with ⟨_, rfl, u, rfl, hall⟩ | ⟨k, rfl, hk⟩
    · have hle := length_le_takeWhile (p := (· ≠ code '\n')) (List.cons_prefix_cons.mp hp').2
        (by simpa using hall)
      exact ⟨by simp only [List.length_cons]; omega, fun _ => rfl⟩
    · have hlen := Terminal.symbols_slash _ hk rfl
      simp only at hlen
      rw [hlen]
      exact ⟨by omega, fun h => by omega⟩

theorem takeWhile_digits {t u : Text} (ht : ∀ c ∈ t, Text.isDecimalDigit c) :
    (t ++ code '.' :: u).takeWhile Text.isDecimalDigit = t := by
  rw [List.takeWhile_append_of_pos ht, List.takeWhile_cons_of_neg (by decide), List.append_nil]

/-- A number takes a fraction if digits follow the point. -/
theorem numberLength_decimal {t u : Text} (ht : ∀ c ∈ t, Text.isDecimalDigit c) :
    Token.numberLength (t ++ code '.' :: u) =
      if 0 < (u.takeWhile Text.isDecimalDigit).length then
        t.length + 1 + (u.takeWhile Text.isDecimalDigit).length
      else t.length := by
  simp [Token.numberLength, takeWhile_digits ht]

theorem numberLength_le (s : Text) :
    (s.takeWhile Text.isDecimalDigit).length ≤ Token.numberLength s := by
  unfold Token.numberLength
  dsimp only
  split
  · split <;> omega
  · exact Nat.le_refl _

theorem numberLength_le_length (s : Text) : Token.numberLength s ≤ s.length := by
  have hle := (List.takeWhile_prefix Text.isDecimalDigit (l := s)).length_le
  unfold Token.numberLength
  dsimp only
  split
  case h_2 => exact hle
  case h_1 c r hdrop =>
    have hf := (List.takeWhile_prefix Text.isDecimalDigit (l := r)).length_le
    have hlen := congrArg List.length hdrop
    simp only [List.length_drop, List.length_cons] at hlen
    split <;> omega

theorem matches_number {s : Text} (hs : s.takeWhile Text.isDecimalDigit ≠ []) :
    Matches (some .number) (s.take (Token.numberLength s)) := by
  have hall : ∀ c ∈ s.takeWhile Text.isDecimalDigit, Text.isDecimalDigit c :=
    fun c => mem_takeWhile
  have hsplit := List.takeWhile_append_dropWhile (p := Text.isDecimalDigit) (l := s)
  unfold Token.numberLength
  dsimp only
  split
  case h_2 => rw [take_takeWhile]; exact .integer hs hall
  case h_1 c r hdrop =>
    split
    case isFalse => rw [take_takeWhile]; exact .integer hs hall
    case isTrue h =>
      obtain ⟨rfl, hpos⟩ := h
      generalize hw : s.takeWhile Text.isDecimalDigit = w at *
      have hf : ∀ c ∈ r.takeWhile Text.isDecimalDigit, Text.isDecimalDigit c :=
        fun c => mem_takeWhile
      have hr := List.takeWhile_append_dropWhile (p := Text.isDecimalDigit) (l := r)
      generalize r.takeWhile Text.isDecimalDigit = f at *
      have hcat : s = (w ++ code '.' :: f) ++ r.dropWhile Text.isDecimalDigit := by
        rw [List.append_assoc, List.cons_append, hr, ← hdrop, ← hsplit, List.drop_left]
      rw [hcat, List.take_left' (by simp; omega)]
      exact .decimal hs (List.length_pos_iff.mp hpos) fun c hc =>
        (List.mem_append.mp hc).elim (hall c) (hf c)

theorem lexeme_number {c : CodePoint} {r : Text} (hc : Text.isDecimalDigit c) :
    TakesLexeme (some .number) (Token.numberLength (c :: r)) (c :: r) where
  bound := numberLength_le_length _
  holds := matches_number (by simp [hc])
  longest k' t ht hp := by
    have hk : k' = some .number := by
      obtain ⟨d, t, rfl⟩ := List.exists_cons_of_ne_nil ht.ne_nil
      obtain ⟨rfl, _⟩ := List.cons_prefix_cons.mp hp
      exact ht.of_digit hc
    subst hk
    refine ⟨?_, fun _ => rfl⟩
    generalize c :: r = s at hp
    cases ht with
    | keyword h | symbol h => cases h
    | integer _ hall => exact Nat.le_trans (length_le_takeWhile hp hall) (numberLength_le s)
    | @decimal t u _ hu hall =>
      obtain ⟨r, rfl⟩ := hp
      have hle : u.length ≤ ((u ++ r).takeWhile Text.isDecimalDigit).length :=
        length_le_takeWhile (List.prefix_append u r) fun c hc =>
          hall c (List.mem_append_right _ hc)
      have hpos := List.length_pos_iff.mpr hu
      rw [List.append_assoc, List.cons_append,
        numberLength_decimal fun c hc => hall c (List.mem_append_left _ hc),
        if_pos (Nat.lt_of_lt_of_le hpos hle)]
      simp only [List.length_append, List.length_cons]
      omega

/-! ### Strings -/

/-- A string literal ends at the first quote that no backslash takes with it. -/
theorem stringLength?_body {quote : CodePoint} (hq : quote ≠ code '\\') {u : Text}
    (h : StringBody quote u) (r : Text) :
    Token.stringLength? quote (u ++ quote :: r) = some (u.length + 1) := by
  induction h with
  | nil => cases r <;> simp [Token.stringLength?]
  | @escape c t hc _ ih =>
    simp [Token.stringLength?, hq.symm, hc, ih]
  | @plain c t hc hc' _ ih =>
    obtain ⟨d, r', hr⟩ : ∃ d r', t ++ quote :: r = d :: r' := by
      cases t <;> exact ⟨_, _, rfl⟩
    rw [hr] at ih
    simp [Token.stringLength?, hr, hc, hc', ih]

theorem exists_body {quote : CodePoint} {s : Text} {n : Nat}
    (h : Token.stringLength? quote s = some n) :
    ∃ u r, s = u ++ quote :: r ∧ StringBody quote u ∧ n = u.length + 1 := by
  induction s using Token.stringLength?.induct quote generalizing n with
  | case1 => cases h
  | case2 =>
    simp only [Token.stringLength?, if_pos, Option.some.injEq] at h
    exact ⟨[], [], rfl, .nil, h.symm⟩
  | case3 c hc =>
    simp [Token.stringLength?, hc] at h
  | case4 d r =>
    simp only [Token.stringLength?, if_pos, Option.some.injEq] at h
    exact ⟨[], d :: r, rfl, .nil, h.symm⟩
  | case5 r hq =>
    simp [Token.stringLength?, hq] at h
  | case6 d r hd hq ih =>
    simp only [Token.stringLength?, hd, hq, if_false, if_true, Option.map_eq_some_iff] at h
    obtain ⟨m, hm, rfl⟩ := h
    obtain ⟨u, r', rfl, hu, rfl⟩ := ih hm
    exact ⟨code '\\' :: d :: u, r', rfl, .escape hd hu, rfl⟩
  | case7 c d r hq hc ih =>
    simp only [Token.stringLength?, hq, hc, if_false, Option.map_eq_some_iff] at h
    obtain ⟨m, hm, rfl⟩ := h
    obtain ⟨u, r', hr, hu, rfl⟩ := ih hm
    exact ⟨c :: u, r', by rw [hr, List.cons_append], .plain hq hc hu, rfl⟩

theorem isQuote_ne {c : CodePoint} (hc : isQuote c) : c ≠ code '\\' := by
  rintro rfl
  exact nomatch hc

theorem lexeme_string {c : CodePoint} {rest : Text} {n : Nat} (hc : isQuote c)
    (h : Token.stringLength? c rest = some n) : TakesLexeme (some .string) (1 + n) (c :: rest) where
  bound := by
    obtain ⟨u, r, rfl, hu, rfl⟩ := exists_body h
    simp only [List.length_cons, List.length_append]
    omega
  holds := by
    obtain ⟨u, r, rfl, hu, rfl⟩ := exists_body h
    rw [Nat.add_comm, List.take_succ_cons, ← List.singleton_append (l := r), ← List.append_assoc,
      List.take_left' (by simp)]
    exact .string (by simpa [isQuote] using hc) hu
  longest k' t ht hp := by
    obtain ⟨d, t, rfl⟩ := List.exists_cons_of_ne_nil ht.ne_nil
    obtain ⟨rfl, r, rfl⟩ := List.cons_prefix_cons.mp hp
    obtain ⟨rfl, u, rfl, hu⟩ := ht.of_quote hc
    rw [List.append_assoc] at h
    have hn := (stringLength?_body (isQuote_ne hc) hu r).symm.trans h
    rw [Option.some.injEq] at hn
    refine ⟨?_, fun _ => rfl⟩
    simp only [List.length_cons, List.length_append, List.length_nil]
    omega

/-! ### Operators and punctuation marks -/

theorem Terminal.symbols_sorted :
    Terminal.symbols.Pairwise fun p q => q.1.length ≤ p.1.length := by
  decide

theorem Terminal.symbols_inj :
    ∀ p ∈ Terminal.symbols, ∀ q ∈ Terminal.symbols, p.1 = q.1 → p.2 = q.2 := by
  decide

/-- Where no comment begins, a mark is read as the first symbol of the table that is there. -/
theorem lexeme_symbol {c : CodePoint} {rest : Text} {p : Text × Terminal} (hc : isMark c)
    (hcomment : ¬ (c = code '/' ∧ rest.head? = some (code '/')))
    (h : Terminal.symbols.find? (·.1.isPrefixOf (c :: rest)) = some p) :
    TakesLexeme (some p.2) p.1.length (c :: rest) := by
  obtain ⟨hp, before, after, hsplit, hnot⟩ := List.find?_eq_some_iff_append.mp h
  have hpre : p.1 <+: c :: rest := List.isPrefixOf_iff_prefix.mp hp
  have hmem : p ∈ Terminal.symbols := List.mem_of_find?_eq_some h
  refine ⟨hpre.length_le, ?_, fun k' t ht hpt => ?_⟩
  · rw [← List.prefix_iff_eq_take.mp hpre]
    exact .symbol (Terminal.mem_symbols.mp hmem)
  · obtain ⟨d, t, rfl⟩ := List.exists_cons_of_ne_nil ht.ne_nil
    obtain ⟨rfl, hpt'⟩ := List.cons_prefix_cons.mp hpt
    rcases ht.of_mark hc with ⟨rfl, _, u, rfl, _⟩ | ⟨k, rfl, hk⟩
    · obtain ⟨r, rfl⟩ := hpt'
      exact absurd ⟨rfl, rfl⟩ hcomment
    · -- a longer symbol would stand before the one that is found
      have hle : (d :: t).length ≤ p.1.length := by
        have hsorted := Terminal.symbols_sorted
        rw [hsplit] at hk hsorted
        rcases List.mem_append.mp hk with hb | ha
        · have := hnot _ hb
          simp only [List.isPrefixOf_iff_prefix.mpr hpt, Bool.not_true, Bool.false_eq_true] at this
        · rcases List.mem_cons.mp ha with rfl | ha
          · exact Nat.le_refl _
          · exact List.rel_of_pairwise_cons (List.pairwise_append.mp hsorted).2.1 ha
      refine ⟨hle, fun hlen => ?_⟩
      have heq : (d :: t) = p.1 := by
        rw [List.prefix_iff_eq_take.mp hpt, List.prefix_iff_eq_take.mp hpre, hlen]
      exact congrArg some (Terminal.symbols_inj _ hk p hmem heq)

/-! ### All lexemes -/

/-- What is left when neither white space, a word, a number nor a string begins. -/
theorem isMark_of_not {c : CodePoint} (h₁ : ¬ Token.isSpace c) (h₂ : ¬ Text.isNameStart c)
    (h₃ : ¬ Text.isDecimalDigit c) (h₄ : ¬ (c = code '"' ∨ c = code '\'')) : isMark c := by
  simp only [Bool.not_eq_true] at h₁ h₂ h₃
  simp [isMark, isQuote, h₁, h₂, h₃, h₄]

/-- Of white space one code point is skipped; everything else is the longest match. -/
def Correct (c : CodePoint) (rest : Text) : Token.Lexeme → Prop
  | .skipped n => Token.isSpace c ∧ n = 1 ∨ ¬ Token.isSpace c ∧ TakesLexeme none n (c :: rest)
  | .token k n => ¬ Token.isSpace c ∧ TakesLexeme (some k) n (c :: rest)
  | .nothing => ∀ k t, Matches k t → ¬ t <+: c :: rest

theorem lexeme_correct (c : CodePoint) (rest : Text) :
    Correct c rest (Token.lexeme c rest) := by
  unfold Token.lexeme
  split
  case isTrue hspace => exact .inl ⟨hspace, rfl⟩
  case isFalse hspace =>
    split
    case isTrue hcomment =>
      obtain ⟨rfl, hhead⟩ := hcomment
      obtain ⟨r, rfl⟩ := List.head?_eq_some_iff.mp hhead
      refine .inr ⟨hspace, ?_⟩
      have h : TakesLexeme none _ (code '/' :: code '/' :: r) := lexeme_comment
      rwa [show 2 + (r.takeWhile (· ≠ code '\n')).length =
        1 + ((code '/' :: r).takeWhile (· ≠ code '\n')).length by
          rw [List.takeWhile_cons_of_pos (by decide), List.length_cons]; omega] at h
    case isFalse hcomment =>
      split
      case isTrue hstart => exact ⟨hspace, lexeme_word hstart⟩
      case isFalse hstart =>
        split
        case isTrue hdigit => exact ⟨hspace, lexeme_number hdigit⟩
        case isFalse hdigit =>
          split
          case isTrue hquote =>
            have hq : isQuote c := by simpa [isQuote] using hquote
            split
            case h_1 n h => exact ⟨hspace, lexeme_string hq h⟩
            -- no quote closes the literal: a terminal that begins here would have one
            case h_2 h =>
              rintro k t ht hp
              obtain ⟨d, t, rfl⟩ := List.exists_cons_of_ne_nil ht.ne_nil
              obtain ⟨rfl, r, rfl⟩ := List.cons_prefix_cons.mp hp
              obtain ⟨rfl, u, rfl, hu⟩ := ht.of_quote hq
              rw [List.append_assoc] at h
              exact nomatch (stringLength?_body (isQuote_ne hq) hu r).symm.trans h
          case isFalse hquote =>
            have hmark := isMark_of_not hspace hstart hdigit hquote
            split
            case h_1 h => exact ⟨hspace, lexeme_symbol hmark hcomment h⟩
            case h_2 h =>
              rintro k t ht hp
              obtain ⟨d, t, rfl⟩ := List.exists_cons_of_ne_nil ht.ne_nil
              obtain ⟨rfl, r, rfl⟩ := List.cons_prefix_cons.mp hp
              -- only a comment or a symbol can begin with a mark, and both were tried
              rcases ht.of_mark hmark with ⟨rfl, _, u, rfl, _⟩ | ⟨k, rfl, hk⟩
              · exact hcomment ⟨rfl, rfl⟩
              · have := List.find?_eq_none.mp h _ hk
                exact this (List.isPrefixOf_iff_prefix.mpr hp)

/-! ## Scanning -/

theorem Longest.of_lexeme {k k' : Option Terminal} {n : Nat} {t rest : Text}
    (h : Longest k t rest) (h' : TakesLexeme k' n (t ++ rest)) : k = k' ∧ n = t.length := by
  have hlen : ((t ++ rest).take n).length = n := by
    rw [List.length_take, Nat.min_eq_left h'.bound]
  have hle := h.longest k' _ h'.holds (List.take_prefix n _)
  rw [hlen] at hle
  obtain ⟨hge, hk⟩ := h'.longest k t h.holds (List.prefix_append t rest)
  have heq := Nat.le_antisymm hge hle
  exact ⟨hk heq, heq.symm⟩

theorem TakesLexeme.longest_drop {k : Option Terminal} {n : Nat} {s : Text}
    (h : TakesLexeme k n s) : Longest k (s.take n) (s.drop n) where
  holds := h.holds
  longest k' t ht hp := by
    rw [List.length_take, Nat.min_eq_left h.bound]
    rw [List.take_append_drop] at hp
    exact (h.longest k' t ht hp).1

/-- A lexeme takes at least one code point. -/
theorem TakesLexeme.drop_length_le {k : Option Terminal} {n fuel : Nat} {s : Text}
    (h : TakesLexeme k n s) (hs : s.length ≤ fuel + 1) : (s.drop n).length ≤ fuel := by
  have hpos := List.length_pos_iff.mpr h.holds.ne_nil
  have hle := h.bound
  simp only [List.length_take, List.length_drop] at hpos ⊢
  omega

theorem Longest.ne_nil {k : Option Terminal} {t rest : Text} (h : Longest k t rest) : t ≠ [] :=
  h.holds.ne_nil

/-- White space is skipped. -/
theorem scanFrom_space {t : Text} (ht : ∀ c ∈ t, Token.isSpace c) (rest : Text) (p : Position)
    (fuel : Nat) :
    Token.scanFrom (t.length + fuel) p (t ++ rest) = Token.scanFrom fuel (p.after t) rest := by
  induction t generalizing p with
  | nil => simp [Position.after]
  | cons c t ih =>
    have hc := ht c List.mem_cons_self
    rw [List.length_cons, Nat.succ_add, List.cons_append, Token.scanFrom]
    simp only [Token.lexeme, hc, if_true]
    simpa [Position.after] using ih (fun d hd => ht d (List.mem_cons_of_mem c hd)) (p.next c)

/-- The lexeme of the longest match. -/
def lexemeOf : Option Terminal → Nat → Token.Lexeme
  | none, n => .skipped n
  | some k, n => .token k n

theorem Longest.lexeme_eq {k : Option Terminal} {c : CodePoint} {t rest : Text}
    (h : Longest k (c :: t) rest) (hc : ¬ Token.isSpace c) :
    Token.lexeme c (t ++ rest) = lexemeOf k (c :: t).length := by
  have hcor := lexeme_correct c (t ++ rest)
  generalize Token.lexeme c (t ++ rest) = l at hcor
  cases l with
  | skipped n =>
    rcases hcor with ⟨hs, _⟩ | ⟨_, hlex⟩
    · exact absurd hs hc
    · obtain ⟨rfl, rfl⟩ := h.of_lexeme hlex
      rfl
  | token k' n =>
    obtain ⟨rfl, rfl⟩ := h.of_lexeme hcor.2
    rfl
  | nothing => exact absurd (List.prefix_append (c :: t) rest) (hcor k _ h.holds)

/-- What is the longest match at the start of a source is scanned as the first token, whatever
    follows. -/
theorem Longest.scanFrom_token {k : Terminal} {t rest : Text} (h : Longest (some k) t rest)
    (p : Position) (fuel : Nat) :
    Token.scanFrom (fuel + 1) p (t ++ rest) =
      (⟨k, t, ⟨p, p.after t⟩⟩ :: (Token.scanFrom fuel (p.after t) rest).1,
        (Token.scanFrom fuel (p.after t) rest).2) := by
  obtain ⟨c, t, rfl⟩ := List.exists_cons_of_ne_nil h.ne_nil
  have hc : ¬ Token.isSpace c := fun hc => nomatch (h.holds.of_space hc).1
  rw [List.cons_append, Token.scanFrom, h.lexeme_eq hc]
  simp only [lexemeOf, ← List.cons_append, List.take_left, List.drop_left]

/-- The tokens of the splitting are scanned. -/
theorem Splits.scanFrom_eq {p : Position} {s : Text} {ts : List Token} (h : Splits p s ts) :
    ∀ fuel, s.length ≤ fuel → Token.scanFrom fuel p s = (ts, .finished) := by
  induction h with
  | nil => intro fuel _; cases fuel <;> rfl
  | @skip p t rest ts hl _ ih =>
    intro fuel hfuel
    obtain ⟨c, t, rfl⟩ := List.exists_cons_of_ne_nil hl.ne_nil
    rw [List.length_append, List.length_cons] at hfuel
    by_cases hc : Token.isSpace c
    · obtain ⟨fuel, rfl⟩ := Nat.exists_eq_add_of_le (Nat.le_of_add_right_le hfuel)
      rw [← List.length_cons, scanFrom_space (hl.holds.of_space hc).2]
      exact ih fuel (by omega)
    · obtain ⟨fuel, rfl⟩ : ∃ f, fuel = f + 1 := ⟨fuel - 1, by omega⟩
      rw [List.cons_append, Token.scanFrom, hl.lexeme_eq hc]
      simp only [lexemeOf, ← List.cons_append, List.take_left, List.drop_left]
      exact ih fuel (by omega)
  | @token p k t rest ts hl _ ih =>
    intro fuel hfuel
    have hpos := List.length_pos_iff.mpr hl.ne_nil
    rw [List.length_append] at hfuel
    obtain ⟨fuel, rfl⟩ : ∃ f, fuel = f + 1 := ⟨fuel - 1, by omega⟩
    rw [hl.scanFrom_token, ih fuel (by omega)]

/-- White space before something else is a longest match. -/
theorem longest_space {c : CodePoint} {s : Text} (hc : Token.isSpace c)
    (hs : ∀ d ∈ s.head?, ¬ Token.isSpace d) : Longest none [c] s where
  holds := .blank (by simp) (by simpa using hc)
  longest k t ht hp := by
    obtain ⟨d, t, rfl⟩ := List.exists_cons_of_ne_nil ht.ne_nil
    obtain ⟨rfl, hp'⟩ := List.cons_prefix_cons.mp hp
    cases t with
    | nil => exact Nat.le_refl _
    | cons e t =>
      obtain ⟨r, rfl⟩ : e :: t <+: s := hp'
      exact absurd ((ht.of_space hc).2 e (by simp)) (hs e rfl)

theorem Longest.cons_space {c : CodePoint} {t rest : Text} (h : Longest none t rest)
    (hc : Token.isSpace c) (ht : ∀ d ∈ t, Token.isSpace d) : Longest none (c :: t) rest where
  holds := .blank (by simp) (by simpa [hc] using ht)
  longest k u hu hp := by
    obtain ⟨d, u, rfl⟩ := List.exists_cons_of_ne_nil hu.ne_nil
    obtain ⟨rfl, hp'⟩ := List.cons_prefix_cons.mp hp
    have hall := (hu.of_space hc).2
    cases u with
    | nil => exact Nat.succ_le_succ (Nat.zero_le _)
    | cons e u =>
      exact Nat.succ_le_succ (h.longest none (e :: u)
        (.blank (by simp) fun d hd => hall d (List.mem_cons_of_mem _ hd)) hp')

/-- White space in front of a source, of which the rest does not begin with white space. -/
theorem Begins.cons_space {p q : Position} {c : CodePoint} {s r : Text} {ts : List Token}
    (hc : Token.isSpace c) (hr : ∀ d ∈ r.head?, ¬ Token.isSpace d)
    (h : Begins (p.after [c]) s ts q r) : Begins p (c :: s) ts q r := by
  by_cases hs : ∀ d ∈ s.head?, ¬ Token.isSpace d
  · exact .skip (longest_space hc hs) h
  · -- the white space that follows is skipped together with `c`
    cases h with
    | nil => exact absurd hr hs
    | @skip _ _ t rest _ _ hl h =>
      obtain ⟨d, t, rfl⟩ := List.exists_cons_of_ne_nil hl.ne_nil
      have hd : Token.isSpace d := by simpa using hs
      exact .skip (t := c :: d :: t) (hl.cons_space hc (hl.holds.of_space hd).2) h
    | @token _ _ k t rest _ _ hl h =>
      obtain ⟨d, t, rfl⟩ := List.exists_cons_of_ne_nil hl.ne_nil
      have hd : Token.isSpace d := by simpa using hs
      exact nomatch (hl.holds.of_space hd).1

/-- A source that begins with tokens and nothing else splits into them. -/
theorem Begins.splits {p q : Position} {s : Text} {ts : List Token} (h : Begins p s ts q []) :
    Splits p s ts := by
  generalize hr : ([] : Text) = r at h
  induction h with
  | nil => subst hr; exact .nil
  | skip hl _ ih => exact .skip hl (ih hr)
  | token hl _ ih => exact .token hl (ih hr)

theorem Splits.begins {p : Position} {s : Text} {ts : List Token} (h : Splits p s ts) :
    ∃ q, Begins p s ts q [] := by
  induction h with
  | nil => exact ⟨_, .nil⟩
  | skip hl _ ih => exact ih.imp fun _ => .skip hl
  | token hl _ ih => exact ih.imp fun _ => .token hl

/-- White space in front of a source that splits. -/
theorem Splits.cons_space {p : Position} {c : CodePoint} {s : Text} {ts : List Token}
    (hc : Token.isSpace c) (h : Splits (p.after [c]) s ts) : Splits p (c :: s) ts :=
  have ⟨_, hbegins⟩ := h.begins
  (hbegins.cons_space hc (by simp)).splits

/-- Why scanning stops at the rest `r` of a source, which starts at `q`. -/
def Token.Stop.At (q : Position) (r : Text) : Token.Stop → Prop
  | .finished => r = []
  | .noTerminal c place => place = q ∧ r.head? = some c ∧ ∀ k t, Matches k t → ¬ t <+: r

/-- White space does not stop the scanning. -/
theorem Token.Stop.At.not_isSpace {stop : Token.Stop} {q : Position} {r : Text}
    (h : stop.At q r) : ∀ d ∈ r.head?, ¬ Token.isSpace d := by
  cases stop with
  | finished =>
    obtain rfl : r = [] := h
    simp
  | noTerminal c place =>
    obtain ⟨_, hhead, hnone⟩ := h
    obtain ⟨r, rfl⟩ := List.head?_eq_some_iff.mp hhead
    rintro d ⟨⟩ hspace
    exact hnone none [c] (.blank (by simp) (by simpa using hspace)) ⟨r, rfl⟩

/-- A source begins with the tokens that are scanned, and scanning stops at its rest. -/
theorem begins_of_scanFrom {fuel : Nat} {p : Position} {s : Text} {ts : List Token}
    {stop : Token.Stop} (hfuel : s.length ≤ fuel) (h : Token.scanFrom fuel p s = (ts, stop)) :
    ∃ q r, Begins p s ts q r ∧ stop.At q r := by
  -- every piece takes a character, so the fuel outlasts the text
  induction fuel generalizing p s ts with
  | zero =>
    obtain rfl := List.length_eq_zero_iff.mp (Nat.le_zero.mp hfuel)
    cases h
    exact ⟨p, [], .nil, rfl⟩
  | succ fuel ih =>
    cases s with
    | nil => cases h; exact ⟨p, [], .nil, rfl⟩
    | cons c rest =>
      have hcor := lexeme_correct c rest
      rw [Token.scanFrom] at h
      generalize Token.lexeme c rest = l at h hcor
      cases l with
      | nothing =>
        cases h
        exact ⟨p, c :: rest, .nil, rfl, rfl, hcor⟩
      | skipped n =>
        rcases hcor with ⟨hc, rfl⟩ | ⟨_, hlex⟩
        · obtain ⟨q, r, hbegins, hstop⟩ := ih (Nat.le_of_succ_le_succ hfuel) h
          exact ⟨q, r, hbegins.cons_space hc hstop.not_isSpace, hstop⟩
        · obtain ⟨q, r, hbegins, hstop⟩ := ih (hlex.drop_length_le hfuel) h
          have := Begins.skip hlex.longest_drop hbegins
          rw [List.take_append_drop] at this
          exact ⟨q, r, this, hstop⟩
      | token k n =>
        dsimp only at h
        obtain ⟨ts', stop', hrest⟩ : ∃ ts' stop',
            Token.scanFrom fuel (p.after ((c :: rest).take n)) ((c :: rest).drop n) =
              (ts', stop') := ⟨_, _, rfl⟩
        rw [hrest] at h
        cases h
        obtain ⟨q, r, hbegins, hstop⟩ := ih (hcor.2.drop_length_le hfuel) hrest
        have := Begins.token hcor.2.longest_drop hbegins
        rw [List.take_append_drop] at this
        exact ⟨q, r, this, hstop⟩

/-- Where a source stops being scanned it begins with the tokens that are scanned. -/
theorem begins_of_scan {s : Text} {ts : List Token} {stop : Token.Stop}
    (h : Token.scan s = (ts, stop)) : ∃ q r, Begins .origin s ts q r ∧ stop.At q r :=
  begins_of_scanFrom (Nat.le_refl _) h

/-- A source is scanned to the end just when it splits, and the tokens are those of the
    splitting. -/
theorem splits_iff_scan {s : Text} {ts : List Token} :
    Splits .origin s ts ↔ Token.scan s = (ts, .finished) := by
  refine ⟨fun h => h.scanFrom_eq s.length (Nat.le_refl _), fun h => ?_⟩
  obtain ⟨q, r, hbegins, rfl⟩ := begins_of_scan h
  exact hbegins.splits

/-! ## Places between tokens -/

namespace Begins

variable {p q : Position} {s r : Text} {ts : List Token}

/-- What is left of a source stands behind a text, at whose end it starts. -/
theorem consumed (h : Begins p s ts q r) : ∃ u, s = u ++ r ∧ q = p.after u := by
  induction h with
  | nil => exact ⟨[], rfl, rfl⟩
  | @skip p q t rest r ts _ _ ih | @token p q k t rest r ts _ _ ih =>
    obtain ⟨u, rfl, rfl⟩ := ih
    exact ⟨t ++ u, (List.append_assoc t u r).symm, (p.after_append t u).symm⟩

/-- In front of each of its tokens a source begins with the tokens before, and there is the longest
    match. -/
theorem cut {before after : List Token} {t : Token} (h : Begins p s (before ++ t :: after) q r) :
    ∃ rest, Begins p s before t.extent.start (t.text ++ rest) ∧
      Longest (some t.terminal) t.text rest ∧
      t.extent.stop = t.extent.start.after t.text := by
  generalize hts : before ++ t :: after = ts at h
  induction h generalizing before with
  | nil => simp at hts
  | skip hl _ ih =>
    obtain ⟨rest, hbegins, ht⟩ := ih hts
    exact ⟨rest, .skip hl hbegins, ht⟩
  | token hl _ ih =>
    cases before with
    | nil =>
      cases hts
      exact ⟨_, .nil, hl, rfl⟩
    | cons t' before =>
      cases hts
      obtain ⟨rest, hbegins, ht⟩ := ih rfl
      exact ⟨rest, .token hl hbegins, ht⟩

end Begins

/-- The text of a token stands in the source where the token says. -/
theorem Splits.text_at {s : Text} {ts : List Token} {t : Token} (h : Splits .origin s ts)
    (ht : t ∈ ts) : ∃ u v, s = u ++ t.text ++ v ∧
      t.extent = ⟨Position.origin.after u, Position.origin.after (u ++ t.text)⟩ := by
  obtain ⟨q, hbegins⟩ := h.begins
  obtain ⟨before, after, rfl⟩ := List.append_of_mem ht
  obtain ⟨v, hcut, -, hstop⟩ := hbegins.cut
  obtain ⟨u, hs, hstart⟩ := hcut.consumed
  refine ⟨u, v, by rw [hs, List.append_assoc], ?_⟩
  rw [Position.after_append, ← hstart, ← hstop]

end FlatScope
