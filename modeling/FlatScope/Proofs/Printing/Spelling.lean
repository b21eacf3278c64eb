import FlatScope.Proofs.Grammar.Legible

/-!
# Texts and the tokens that they split into

A text is put together from pieces, and each piece splits into tokens of its own, wherever it
stands: `Reads t A L` says that `t`, followed by a text in `A`, splits into tokens in `L`. What has
to follow is that a piece is not continued: a word or a number has to end (`Ended`), punctuation
marks may be followed by anything. Pieces are put together by `Reads.append` and its special cases.
-/

namespace FlatScope

open Text (code)
open Grammar (Leaf)

/-! ## Sets of token sequences -/

/-- A token of the given terminal and text. -/
def Single (k : Terminal) (w : Text) (ts : List Token) : Prop :=
  ∃ t : Leaf k, t.1.text = w ∧ ts = [t.1]

/-- Tokens in `L` and then tokens in `M`. -/
def Then (L M : List Token → Prop) (ts : List Token) : Prop := ∃ a b, L a ∧ M b ∧ ts = a ++ b

/-- No tokens. -/
def Nothing (ts : List Token) : Prop := ts = []

/-! ## What may follow -/

/-- What may follow a word or a number. -/
def Ended (rest : Text) : Prop :=
  ∀ c ∈ rest.head?, Text.isNamePart c = false ∧ Text.isDecimalDigit c = false ∧ c ≠ code '.'

/-- What may follow a punctuation mark. -/
def Anything (_ : Text) : Prop := True

theorem Ended.nil : Ended [] := nofun

/-- A code point that neither words nor numbers go on with. -/
def isDelimiter (c : CodePoint) : Bool :=
  !Text.isNamePart c && !Text.isDecimalDigit c && c != code '.'

theorem Ended.cons {c : CodePoint} (hc : isDelimiter c) (t : Text) : Ended (c :: t) := by
  intro d hd
  obtain rfl : c = d := Option.some.inj hd
  simpa [isDelimiter, and_assoc] using hc

/-- A text after which words and numbers end whenever they end before what follows it. -/
def Stops (u : Text) : Prop := ∀ rest, Ended rest → Ended (u ++ rest)

theorem Stops.nil : Stops [] := fun _ h => h

theorem Stops.cons {c : CodePoint} (hc : isDelimiter c) (t : Text) : Stops (c :: t) :=
  fun _ _ => .cons hc _

/-! ## Reading -/

/-- Before a text in `A` the text `t` splits into tokens in `L`. -/
def Reads (t : Text) (A : Text → Prop) (L : List Token → Prop) : Prop :=
  ∀ p rest, A rest → ∃ ts, L ts ∧ ∀ us, Splits (p.after t) rest us → Splits p (t ++ rest) (ts ++ us)

namespace Reads

variable {t u : Text} {A B : Text → Prop} {L M : List Token → Prop}

theorem mono (h : Reads t A L) (hL : ∀ ts, L ts → M ts) : Reads t A M := by
  intro p rest hrest
  obtain ⟨ts, hts, hsplit⟩ := h p rest hrest
  exact ⟨ts, hL ts hts, hsplit⟩

theorem weaken (h : Reads t A L) (hA : ∀ rest, B rest → A rest) : Reads t B L :=
  fun p rest hrest => h p rest (hA rest hrest)

/-- What can be read before anything can be read before what ends words. -/
theorem ended (h : Reads t Anything L) : Reads t Ended L := h.weaken fun _ _ => trivial

theorem append (h : Reads t A L) (h' : Reads u B M) (hA : ∀ rest, B rest → A (u ++ rest)) :
    Reads (t ++ u) B (Then L M) := by
  intro p rest hrest
  obtain ⟨ts, hts, hsplit⟩ := h p (u ++ rest) (hA rest hrest)
  obtain ⟨us, hus, hsplit'⟩ := h' (p.after t) rest hrest
  refine ⟨ts ++ us, ⟨ts, us, hts, hus, rfl⟩, fun vs hvs => ?_⟩
  rw [Position.after_append] at hvs
  rw [List.append_assoc, List.append_assoc]
  exact hsplit _ (hsplit' vs hvs)

/-- A piece after which anything may follow, and another one. -/
theorem andThen (h : Reads t Anything L) (h' : Reads u B M) : Reads (t ++ u) B (Then L M) :=
  h.append h' fun _ _ => trivial

/-- A piece that has to end, and another one that ends it. -/
theorem stop (h : Reads t Ended L) (h' : Reads u Anything M) (hu : ∀ rest, Ended (u ++ rest)) :
    Reads (t ++ u) Anything (Then L M) :=
  h.append h' fun rest _ => hu rest

theorem nil : Reads [] Anything Nothing := fun _ _ _ => ⟨[], rfl, fun _ h => h⟩

/-! ### White space -/

theorem indent (ht : ∀ c ∈ t, Token.isSpace c) (h : Reads u A L) : Reads (t ++ u) A L := by
  induction t with
  | nil => exact h
  | cons c t ih =>
    intro p rest hrest
    obtain ⟨ts, hts, hsplit⟩ := ih (fun d hd => ht d (List.mem_cons_of_mem c hd)) (p.after [c]) rest
      hrest
    exact ⟨ts, hts, fun us hus => (hsplit us hus).cons_space (ht c List.mem_cons_self)⟩

theorem blank (ht : ∀ c ∈ t, Token.isSpace c) : Reads t Anything Nothing := by
  have h := nil.indent ht
  rwa [List.append_nil] at h

theorem isDelimiter_of_space {c : Nat} (h : Token.isSpace c) : isDelimiter c := by
  have hc := Token.isSpace_iff.mp h
  rcases hc with rfl | rfl | rfl | rfl | rfl <;> decide

/-- A piece before white space. -/
theorem spaced (h : Reads t Ended L) {c : CodePoint} (hc : Token.isSpace c)
    (hu : ∀ d ∈ u, Token.isSpace d) : Reads (t ++ c :: u) Anything L := by
  have hcu : ∀ d ∈ c :: u, Token.isSpace d := by simpa [hc] using hu
  refine (h.stop (blank hcu) fun rest => .cons (isDelimiter_of_space hc) _).mono ?_
  rintro ts ⟨a, b, ha, rfl, rfl⟩
  rwa [List.append_nil]

end Reads

/-! ## Tokens -/

theorem Reads.token {k : Terminal} {t : Text} {A : Text → Prop}
    (h : ∀ rest, A rest → Longest (some k) t rest) : Reads t A (Single k t) :=
  fun p rest hrest => ⟨[⟨k, t, ⟨p, p.after t⟩⟩], ⟨⟨_, rfl⟩, rfl, rfl⟩, fun _ hus =>
    .token (h rest hrest) hus⟩

theorem TakesLexeme.toLongest {k : Option Terminal} {t rest : Text}
    (h : TakesLexeme k t.length (t ++ rest)) : Longest k t rest := by
  have := h.longest_drop
  rwa [List.take_left, List.drop_left] at this

theorem takeWhile_stop {q : CodePoint → Bool} {t r : Text} (ht : ∀ c ∈ t, q c)
    (hr : ∀ c ∈ r.head?, q c = false) : (t ++ r).takeWhile q = t := by
  rw [List.takeWhile_append_of_pos ht]
  cases r with
  | nil => exact List.append_nil t
  | cons c r =>
    rw [List.takeWhile_cons_of_neg (by simp [hr c rfl]), List.append_nil]

/-- A mark that is a token of its own, whatever follows. -/
theorem Reads.mark {k : Terminal} {c : CodePoint}
    (h : ∀ rest, Token.lexeme c rest = .token k 1) : Reads [c] Anything (Single k [c]) := by
  refine .token fun rest _ => ?_
  have hcorrect := lexeme_correct c rest
  rw [h] at hcorrect
  exact TakesLexeme.toLongest (t := [c]) hcorrect.2

theorem Reads.word {c : CodePoint} {t : Text} (hc : Text.isNameStart c)
    (ht : ∀ d ∈ t, Text.isNamePart d) :
    Reads (c :: t) Ended (Single (Terminal.ofWord (c :: t)) (c :: t)) := by
  refine .token fun rest hrest => TakesLexeme.toLongest ?_
  have h := lexeme_word (r := t ++ rest) hc
  rwa [takeWhile_stop ht fun d hd => (hrest d hd).1] at h

/-- A reserved word. -/
theorem Reads.keyword {w : Text} {k : Terminal} (h : (w, k) ∈ Terminal.keywords) :
    Reads w Ended (Single k w) := by
  obtain ⟨hword, hof⟩ := Terminal.keywords_words _ h
  cases w with
  | nil => exact nomatch hword
  | cons c w =>
    simp only [isWord, Bool.and_eq_true, List.all_eq_true] at hword
    have hread := Reads.word hword.1 hword.2
    rwa [hof] at hread

theorem Reads.name {n : Name} (h : IsName n) : Reads n Ended (Single .name n) := by
  generalize hk : some Terminal.name = k at h
  cases h with
  | @name c t hstart hpart hne =>
    have hof := ((Matches.name hstart hpart hne).of_start hstart).1
    have hread := Reads.word hstart hpart
    rwa [← Option.some.inj hof] at hread
  | keyword h | symbol h => cases hk; cases h

theorem numberLength_integer {t r : Text} (ht : ∀ c ∈ t, Text.isDecimalDigit c) (hr : Ended r) :
    Token.numberLength (t ++ r) = t.length := by
  have htake := takeWhile_stop ht fun c hc => (hr c hc).2.1
  unfold Token.numberLength
  simp only [htake, List.drop_left]
  cases r with
  | nil => rfl
  | cons c r => simp [(hr c rfl).2.2]

theorem Reads.number {t : Text} (h : Matches (some .number) t) :
    Reads t Ended (Single .number t) := by
  refine .token fun rest hrest => TakesLexeme.toLongest ?_
  have hlength : Token.numberLength (t ++ rest) = t.length := by
    cases h with
    | keyword h | symbol h => cases h
    | integer _ hall => exact numberLength_integer hall hrest
    | @decimal t u _ hu hall =>
      have htake := takeWhile_stop (r := rest) (fun c hc => hall c (List.mem_append_right t hc))
        fun c hc => (hrest c hc).2.1
      rw [List.append_assoc, List.cons_append,
        numberLength_decimal fun c hc => hall c (List.mem_append_left u hc), htake,
        if_pos (List.length_pos_iff.mpr hu), List.length_append, List.length_cons]
      omega
  obtain ⟨c, t, rfl, hc⟩ : ∃ c r, t = c :: r ∧ Text.isDecimalDigit c := by
    cases h with
    | keyword h | symbol h => cases h
    | integer hne hall =>
      obtain ⟨c, t, rfl⟩ := List.exists_cons_of_ne_nil hne
      exact ⟨c, t, rfl, hall c List.mem_cons_self⟩
    | @decimal t u hne _ hall =>
      obtain ⟨c, t, rfl⟩ := List.exists_cons_of_ne_nil hne
      exact ⟨c, t ++ code '.' :: u, rfl, hall c (by simp)⟩
  have hlexeme := lexeme_number (r := t ++ rest) hc
  rwa [← List.cons_append, hlength] at hlexeme

/-- A string literal ends with its closing quote, whatever follows. -/
theorem longest_string {q : CodePoint} {u : Text} (hq : isQuote q) (h : StringBody q u)
    (rest : Text) : Longest (some .string) (q :: (u ++ [q])) rest := by
  refine TakesLexeme.toLongest ?_
  have hlength := stringLength?_body (isQuote_ne hq) h rest
  have hlexeme := lexeme_string hq hlength
  simpa [Nat.add_comm] using hlexeme

/-- A string literal. -/
theorem Reads.string {q : CodePoint} {u : Text} (hq : isQuote q)
    (h : StringBody q u) :
    Reads (q :: (u ++ [q])) Anything (Single .string (q :: (u ++ [q]))) :=
  .token fun rest _ => longest_string hq h rest

end FlatScope
