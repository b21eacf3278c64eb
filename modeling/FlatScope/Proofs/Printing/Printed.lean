import FlatScope.Proofs.Printing.Literals

/-!
# Printed programs are read as what was printed

The text of every tree that can be printed splits into tokens that derive the tree, up to marks. It
is shown construct by construct, following the printer: where it writes parentheses the operand is
an atom, where it does not the operand is of a level that may stand there (`Reads.wrapped`).
-/

namespace FlatScope

open Text (code)
open Grammar
open Printer

/-! ## Fixed pieces -/

theorem reads_leftParen : Reads "(" Anything (Single .leftParen "(") := .mark fun _ => rfl

theorem reads_rightParen : Reads ")" Anything (Single .rightParen ")") := .mark fun _ => rfl

theorem reads_leftBracket : Reads "[" Anything (Single .leftBracket "[") := .mark fun _ => rfl

theorem reads_rightBracket : Reads "]" Anything (Single .rightBracket "]") := .mark fun _ => rfl

theorem reads_openBrace : Reads openBrace Anything (Single .leftBrace openBrace) :=
  .mark fun _ => rfl

theorem reads_closeBrace : Reads closeBrace Anything (Single .rightBrace closeBrace) :=
  .mark fun _ => rfl

theorem reads_semicolon : Reads ";" Anything (Single .semicolon ";") := .mark fun _ => rfl

theorem reads_comma : Reads ", " Anything (Single .comma ",") :=
  (Reads.mark fun _ => rfl).ended.spaced (c := 0x20) rfl nofun

/-- A mark before a blank. -/
theorem Reads.markBlank {k : Terminal} {c : CodePoint} {t : Text}
    (h : ∀ rest, Token.lexeme c (t ++ 0x20 :: rest) = .token k (t.length + 1)) :
    Reads (c :: t ++ [0x20]) Anything (Single k (c :: t)) := by
  have htoken : Reads (c :: t) (fun rest => rest.head? = some 0x20) (Single k (c :: t)) := by
    refine .token fun rest hrest => ?_
    obtain ⟨r, rfl⟩ := List.head?_eq_some_iff.mp hrest
    have hcorrect := lexeme_correct c (t ++ 0x20 :: r)
    rw [h] at hcorrect
    exact TakesLexeme.toLongest (t := c :: t) hcorrect.2
  refine (htoken.append (.blank (t := [0x20]) (by decide)) fun _ _ => rfl).mono ?_
  rintro ts ⟨a, b, ha, rfl, rfl⟩
  rwa [List.append_nil]

theorem reads_equals : Reads " = " Anything (Single .equals "=") :=
  (Reads.markBlank (c := code '=') (t := []) fun _ => rfl).indent (t := [0x20]) (by decide)

theorem reads_operator {o : BinaryOp} (h : ∀ s, o ≠ .other s) :
    Reads (" " ++ o.symbol ++ " ") Anything (Single (.operator o) o.symbol) := by
  have h' : Reads (o.symbol ++ [0x20]) Anything (Single (.operator o) o.symbol) := by
    cases o <;> first | exact .markBlank fun _ => rfl | exact absurd rfl (h _)
  exact List.append_assoc _ _ _ ▸ h'.indent (t := [0x20]) (by decide)

/-- A reserved word before a blank. -/
theorem reads_word {w : Text} {k : Terminal} (h : (w, k) ∈ Terminal.keywords) :
    Reads (w ++ [0x20]) Anything (Single k w) := (Reads.keyword h).spaced rfl nofun

/-! ## Layout -/

theorem Text.join_append (sep : Text) {a b : List Text} (ha : a ≠ []) (hb : b ≠ []) :
    join sep (a ++ b) = join sep a ++ (sep ++ join sep b) := by
  induction a with
  | nil => exact absurd rfl ha
  | cons t ts ih =>
    cases ts with
    | nil =>
      obtain ⟨u, us, rfl⟩ := List.exists_cons_of_ne_nil hb
      simp [join]
    | cons t' ts =>
      have := ih (by simp)
      simp only [List.cons_append, join] at this ⊢
      simp only [this, List.append_assoc]

theorem Text.join_append_cons (sep t u : Text) (us : List Text) :
    join sep ((t ++ u) :: us) = t ++ join sep (u :: us) := by
  cases us with
  | nil => rfl
  | cons => simp only [join, List.append_assoc]

theorem join_continueWith (ts us : List Text) (u : Text) :
    Text.join "\n" (continueWith ts (u :: us)) =
      Text.join "\n" ts ++ ([0x20] ++ Text.join "\n" (u :: us)) := by
  rcases List.eq_nil_or_concat ts with rfl | ⟨init, last, rfl⟩
  · exact Text.join_append_cons "\n" [0x20] u us
  · have hlines : continueWith (init ++ [last]) (u :: us) =
        init ++ ((last ++ ([0x20] ++ u)) :: us) := by
      simp [continueWith, Text.ofString]
    rw [List.concat_eq_append, hlines]
    by_cases hinit : init = []
    · subst hinit
      simp only [List.nil_append, Text.join_append_cons, Text.join]
    · rw [Text.join_append _ hinit (by simp), Text.join_append _ hinit (by simp)]
      simp only [Text.join_append_cons, Text.join, List.append_assoc]

/-! ### The lines of branches -/

section Branches

variable {α : Type} {a : α} {level : Nat} {c : Expr α} {t : Block α} {o : Option (Block α)}

/-- The lines of a branch after the given text. -/
def branchLines (level : Nat) (lead : Text) (c : Expr α) (t : Block α) (o : Option (Block α)) :
    List Text :=
  continueWith (braced (lead ++ ("if (" ++ c.format level ++ ") "))
    (t.formatLines (level + 1)) level)
    (o.elim [] (Block.formatElse level))

theorem Stmt.format_branch :
    (Stmt.branch a c t o).format level = branchLines level (pad level) c t o := by
  rw [branchLines, ← List.append_assoc, ← List.append_assoc]
  cases o <;> rfl

/-- A branch as the only statement after an `else` goes on where the `else` is. -/
theorem Block.formatElse_branch {k : α} :
    Block.formatElse level (.mk k [.branch a c t o]) = branchLines level "else " c t o := by
  cases o <;> rfl

/-- What else may stand after an `else` is a block in braces. -/
theorem Block.formatElse_block {b : Block α} (hb : ∀ a c t o, b.statements ≠ [.branch a c t o]) :
    b.formatElse level = braced "else " (b.formatLines (level + 1)) level := by
  obtain ⟨k, ss⟩ := b
  unfold Block.formatElse
  split
  case h_1 heq => cases heq; exact absurd rfl (hb _ _ _ _)
  case h_2 heq => cases heq; rfl

/-- The lines of a branch are its first line put together with lines that do not depend on it. -/
theorem join_branchLines (lead : Text) :
    Text.join "\n" (branchLines level lead c t o) =
      lead ++ Text.join "\n" (branchLines level [] c t o) := by
  unfold branchLines
  generalize t.formatLines (level + 1) = ts
  generalize Text.ofString "if (" ++ c.format level ++ Text.ofString ") " = x
  have hbraced : Text.join "\n" (braced (lead ++ x) ts level) =
      lead ++ Text.join "\n" (braced ([] ++ x) ts level) := by
    cases ts with
    | nil => simp only [braced, Text.join, List.append_assoc, List.nil_append]
    | cons t ts =>
      have hlines : braced (lead ++ x) (t :: ts) level =
          (lead ++ (x ++ openBrace)) :: (t :: ts ++ [pad level ++ closeBrace]) := by
        rw [← List.append_assoc]; rfl
      rw [hlines, Text.join_append_cons]
      rfl
  cases o.elim [] (Block.formatElse level) with
  | nil => exact hbraced
  | cons u us => rw [join_continueWith, join_continueWith, hbraced, List.append_assoc]

end Branches

theorem isSpace_pad (level : Nat) : ∀ c ∈ pad level, Token.isSpace c := by
  intro c hc
  obtain rfl := List.eq_of_mem_replicate hc
  rfl

section Lines

variable {L M : List Token → Prop} {ts us : List Text} {sep lead : Text}

/-- Texts that can be read one after the other, with white space between. -/
theorem Reads.join_append (hsep : ∀ c ∈ sep, Token.isSpace c)
    (h : Reads (Text.join sep ts) Anything L) (h' : Reads (Text.join sep us) Anything M) :
    Reads (Text.join sep (ts ++ us)) Anything (Then L M) := by
  by_cases hts : ts = []
  · subst hts
    exact h.andThen h'
  · by_cases hus : us = []
    · subst hus
      rw [List.append_nil, ← List.append_nil (Text.join sep ts)]
      exact h.andThen h'
    · rw [Text.join_append sep hts hus]
      exact h.andThen (h'.indent hsep)

/-- Lines that go on where other lines end. -/
theorem Reads.continueWith (h : Reads (Text.join "\n" ts) Anything L)
    (h' : Reads (Text.join "\n" us) Anything M) :
    Reads (Text.join "\n" (continueWith ts us)) Anything (Then L M) := by
  cases us with
  | nil => exact List.append_nil (Text.join "\n" ts) ▸ h.andThen h'
  | cons u us =>
    rw [join_continueWith]
    exact h.andThen (h'.indent (t := [0x20]) (by decide))

/-- A block in braces. -/
theorem Reads.braced {b : Block Extent} {l : Nat} (h : Reads lead Anything L)
    (h' : Reads (Text.join "\n" ts) Anything (DerivesStmts b.statements)) :
    Reads (Text.join "\n" (braced lead ts l)) Anything (Then L (DerivesBlock b)) := by
  have hclose : Reads (pad l ++ closeBrace) Anything (Single .rightBrace closeBrace) :=
    reads_closeBrace.indent (isSpace_pad l)
  have hblock : ∀ {t}, Reads t Anything (DerivesStmts b.statements) → ∀ {u},
      Reads u Anything (Single .rightBrace closeBrace) →
      Reads (openBrace ++ t ++ u) Anything (DerivesBlock b) := fun ht _ hu =>
    ((reads_openBrace.andThen ht).andThen hu).mono fun _ => by
      cases b; exact DerivesBlock.mk
  cases ts with
  | nil =>
    have := h.andThen (hblock h' reads_closeBrace)
    rwa [Text.join, List.append_nil, ← List.append_assoc] at this
  | cons t ts =>
    have hsep : ∀ c ∈ Text.ofString "\n", Token.isSpace c := by decide
    have := h.andThen (hblock (h'.indent hsep) (hclose.indent hsep))
    have hlines : Printer.braced lead (t :: ts) l =
        [lead ++ openBrace] ++ (t :: ts) ++ [pad l ++ closeBrace] := rfl
    rw [hlines, Text.join_append _ (by simp) (by simp), Text.join_append _ (by simp) (by simp)]
    simpa only [Text.join, List.append_assoc] using this

end Lines

/-! ## Expressions -/

/-- The level of the grammar of an expression without parentheses, 8 for atoms with suffixes. -/
def Expr.level : Expr Extent → Nat
  | .binary _ op _ _ => op.precedence
  | .unary .. => 7
  | _ => 8

/-- Tokens of an expression of a level, where 8 is that of atoms with suffixes. -/
def DerivesAt (p : Nat) (e : Expr Extent) : List Token → Prop :=
  if p < 8 then DerivesExpr p e else DerivesPostfix e

theorem DerivesAt.loosen {p q : Nat} {e : Expr Extent} {ts : List Token} (h : DerivesAt p e ts)
    (hq : 0 < q) (hqp : q ≤ p) : DerivesAt q e ts := by
  unfold DerivesAt at *
  split
  case isFalse hq8 => rwa [if_neg (by omega)] at h
  case isTrue hq8 =>
    split at h
    case isTrue hp8 => exact h.loosen (by omega) hq hqp
    case isFalse => exact h.expr.loosen (Nat.le_refl 7) hq (by omega)

theorem DerivesAt.ofPost {e : Expr Extent} {ts : List Token} (h : DerivesPostfix e ts) :
    DerivesAt 8 e ts := h

theorem precedence_bounds {o : BinaryOp} (h : ∀ s, o ≠ .other s) :
    0 < o.precedence ∧ o.precedence < 7 := by
  cases o <;> first | exact absurd rfl (h _) | decide

/-- The operators of an expression that was read have a level. -/
theorem Expr.level_pos {e : Expr Extent} (h : ∀ n ∈ e.nodes, n.Printable) : 0 < e.level := by
  cases e with
  | binary a op l r =>
    exact (precedence_bounds (h _ List.mem_cons_self).1).1
  | _ => exact Nat.zero_lt_succ _

/-- Without parentheses an operand is of a level that may stand in its place. -/
theorem Expr.le_level {e : Expr Extent} {q : Nat} (hq : 0 < q) (hq8 : q ≤ 8)
    (h : ¬ e.precedence < q) : q ≤ e.level := by
  cases e <;> simp only [Expr.precedence, Expr.level] at h ⊢ <;> omega

section Operands

variable {e : Expr Extent} {level q : Nat}

theorem Reads.expr (h : ∀ n ∈ e.nodes, n.Printable)
    (he : Reads (e.format level) Ended (DerivesAt e.level e)) :
    Reads (e.format level) Ended (DerivesExpr 1 e) :=
  he.mono fun _ hts => hts.loosen (by decide) (e.level_pos h)

/-- An operand in parentheses, if it needs them. -/
theorem Reads.wrapped (h : ∀ n ∈ e.nodes, n.Printable)
    (he : Reads (e.format level) Ended (DerivesAt e.level e)) (hq : 0 < q) (hq8 : q ≤ 8) :
    Reads (wrapIf (e.precedence < q) (e.format level)) Ended (DerivesAt q e) := by
  unfold wrapIf
  split
  case isTrue =>
    have hparen := reads_leftParen.andThen (he.expr h)
    refine (hparen.stop reads_rightParen fun _ => .cons rfl _).ended.mono fun ts hts => ?_
    exact (DerivesAt.ofPost (.paren hts)).loosen hq hq8
  case isFalse hlt =>
    exact he.mono fun _ hts => hts.loosen hq (Expr.le_level hq hq8 (by simpa using hlt))

/-- The symbols that begin with an equals sign begin no expression. -/
theorem Terminal.symbols_equals : ∀ p ∈ Terminal.symbols, p.1.head? = some (code '=') →
    p.2.beginsExpr = false := by
  decide

theorem isMark_equals : isMark (code '=') := by decide

/-- A source that begins with an equals sign has a token that begins no expression. -/
theorem Splits.equals {p : Position} {s : Text} {ts : List Token} (h : Splits p s ts)
    (hs : s.head? = some (code '=')) : ∀ w ∈ ts.head?, w.terminal.beginsExpr = false := by
  have hmark : ∀ {k t}, Matches k (code '=' :: t) →
      ∃ k', k = some k' ∧ k'.beginsExpr = false := by
    intro k t hm
    rcases hm.of_mark isMark_equals with ⟨h, -⟩ | ⟨k', rfl, hk⟩
    · exact absurd h (by decide)
    · exact ⟨k', rfl, Terminal.symbols_equals _ hk rfl⟩
  cases h with
  | nil => exact nofun
  | skip hl _ =>
    obtain ⟨c, t, rfl⟩ := List.exists_cons_of_ne_nil hl.ne_nil
    obtain rfl : c = code '=' := Option.some.inj hs
    obtain ⟨k', hk, -⟩ := hmark hl.holds
    exact nomatch hk
  | token hl _ =>
    obtain ⟨c, t, rfl⟩ := List.exists_cons_of_ne_nil hl.ne_nil
    obtain rfl : c = code '=' := Option.some.inj hs
    obtain ⟨k', hk, hbegins⟩ := hmark hl.holds
    intro w hw
    obtain rfl := Option.some.inj hw
    exact Option.some.inj hk ▸ hbegins

/-- The text of an expression does not begin with an equals sign. -/
theorem Reads.head_ne {t : Text} {p : Nat} (h : Reads t Ended (DerivesExpr p e)) (rest : Text) :
    (t ++ rest).head? ≠ some (code '=') := by
  obtain ⟨_, ⟨d, rfl, -⟩, hsplit⟩ := h .origin [] .nil
  have hsplit := hsplit [] .nil
  obtain ⟨w, r, hw, hbegins⟩ := d.begins
  rw [hw, List.append_nil, List.append_nil] at hsplit
  intro hhead
  cases t with
  | nil => cases splits_iff_scan.mp hsplit
  | cons c t => exact nomatch (hsplit.equals hhead w rfl).symm.trans hbegins

theorem Terminal.symbols_bang : ∀ p ∈ Terminal.symbols, p.1.head? = some (code '!') →
    p.1 = "!" ∨ p.1 = "!=" := by
  decide

theorem reads_bang :
    Reads "!" (fun rest => rest.head? ≠ some (code '=')) (Single .bang "!") := by
  change Reads [code '!'] _ (Single .bang [code '!'])
  refine .token fun rest hrest => ⟨.symbol (by decide), fun k t hm hp => ?_⟩
  obtain ⟨c, t, rfl⟩ := List.exists_cons_of_ne_nil hm.ne_nil
  obtain ⟨rfl, ht⟩ := List.cons_prefix_cons.mp hp
  rcases hm.of_mark (by decide) with ⟨h, -⟩ | ⟨k, rfl, hk⟩
  · exact absurd h (by decide)
  · rcases Terminal.symbols_bang _ hk rfl with h | h
    · exact Nat.le_of_eq (congrArg List.length h)
    · obtain rfl : t = [code '='] := (List.cons_eq_cons.mp h).2
      obtain ⟨r, rfl⟩ : [code '='] <+: rest := ht
      exact absurd rfl hrest

/-! ### The forms of expressions -/

variable {a : Extent} {f l r : Expr Extent} {es : List (Expr Extent)}

theorem reads_unary {o : UnaryOp} (ho : ∀ s, o ≠ .other s) (h : ∀ n ∈ e.nodes, n.Printable)
    (he : Reads (e.format level) Ended (DerivesAt e.level e)) :
    Reads (o.symbol ++ wrapIf (e.precedence ≤ 7) (e.format level)) Ended
      (DerivesExpr 7 (.unary a o e)) := by
  have hoperand : Reads (wrapIf (e.precedence ≤ 7) (e.format level)) Ended (DerivesExpr 7 e) := by
    simp only [← Nat.lt_succ_iff]
    exact (he.wrapped h (by decide) (Nat.le_refl 8)).mono fun ts hts => DerivesPostfix.expr hts
  cases o with
  | other s => exact absurd rfl (ho s)
  | neg =>
    have hsign : Reads "-" Anything (Single (.operator .sub) "-") := .mark fun _ => rfl
    exact (hsign.andThen hoperand).mono fun ts hts =>
      .unary Sign.minus (fun _ => ⟨rfl, rfl⟩) (by simp) hts
  | not =>
    exact (reads_bang.append hoperand fun rest _ => hoperand.head_ne rest).mono fun ts hts =>
      .unary Sign.bang (fun _ => ⟨rfl, rfl⟩) (by simp) hts

theorem reads_binary {o : BinaryOp} (ho : ∀ s, o ≠ .other s)
    (hl : ∀ n ∈ l.nodes, n.Printable) (hr : ∀ n ∈ r.nodes, n.Printable)
    (h : Reads (l.format level) Ended (DerivesAt l.level l))
    (h' : Reads (r.format level) Ended (DerivesAt r.level r)) :
    Reads (wrapIf (l.precedence < o.precedence) (l.format level) ++ " " ++ o.symbol ++ " " ++
      wrapIf (r.precedence ≤ o.precedence) (r.format level)) Ended
      (DerivesExpr o.precedence (.binary a o l r)) := by
  obtain ⟨hpos, hlt⟩ := precedence_bounds ho
  have hleft := h.wrapped hl (q := o.precedence) (by omega) (by omega)
  have hright := h'.wrapped hr (q := o.precedence + 1) (by omega) (by omega)
  simp only [Nat.lt_succ_iff] at hright
  have hall := (hleft.stop (reads_operator ho) fun rest => .cons rfl _).andThen hright
  simp only [List.append_assoc] at hall ⊢
  refine hall.mono fun ts hts => DerivesExpr.binary (w := o.symbol) ho ?_
  simpa only [DerivesAt, if_pos (show o.precedence < 8 by omega),
    if_pos (show o.precedence + 1 < 8 by omega)] using hts

theorem reads_call (hf : ∀ n ∈ f.nodes, n.Printable)
    (h : Reads (f.format level) Ended (DerivesAt f.level f))
    (hargs : Reads (Text.join ", " (Expr.formatList level es)) Ended (DerivesArgs es)) :
    Reads (wrapIf (f.precedence < 8) (f.format level) ++ "(" ++
      Text.join ", " (Expr.formatList level es) ++ ")") Anything
      (DerivesPostfix (.call a f es)) := by
  have hfunc := (h.wrapped hf (by decide) (Nat.le_refl 8)).stop reads_leftParen fun _ => .cons rfl _
  exact ((hfunc.andThen hargs).stop reads_rightParen fun _ => .cons rfl _).mono
    fun _ hts => .call hts

theorem reads_index (hf : ∀ n ∈ f.nodes, n.Printable)
    (h : Reads (f.format level) Ended (DerivesAt f.level f))
    (he : Reads (e.format level) Ended (DerivesExpr 1 e)) :
    Reads (wrapIf (f.precedence < 8) (f.format level) ++ "[" ++ e.format level ++ "]") Anything
      (DerivesPostfix (.index a f e)) := by
  have hbase :=
    (h.wrapped hf (by decide) (Nat.le_refl 8)).stop reads_leftBracket fun _ => .cons rfl _
  exact ((hbase.andThen he).stop reads_rightBracket fun _ => .cons rfl _).mono
    fun _ hts => .index hts

theorem reads_array
    (h : Reads (Text.join ", " (Expr.formatList level es)) Ended (DerivesArgs es)) :
    Reads ("[" ++ Text.join ", " (Expr.formatList level es) ++ "]") Anything
      (DerivesPostfix (.array a es)) :=
  ((reads_leftBracket.andThen h).stop reads_rightBracket fun _ => .cons rfl _).mono fun _ hts =>
    .array hts

/-! ### Lists -/

theorem Text.join_cons (sep t : Text) (ts : List Text) :
    join sep (t :: ts) = t ++ ts.flatMap (sep ++ ·) := by
  induction ts generalizing t with
  | nil => exact (List.append_nil t).symm
  | cons u us ih => simp only [join, ih, List.flatMap_cons, List.append_assoc]

theorem stops_flatMap (ts : List Text) : Stops (ts.flatMap (Text.ofString ", " ++ ·)) := by
  cases ts with
  | nil => exact .nil
  | cons t ts => exact .cons rfl _

theorem reads_more
    (he : Reads (e.format level) Ended (DerivesExpr 1 e))
    (h : Reads ((Expr.formatList level es).flatMap (Text.ofString ", " ++ ·)) Ended
    (DerivesMore es)) :
    Reads ((Expr.formatList level (e :: es)).flatMap (Text.ofString ", " ++ ·)) Ended
      (DerivesMore (e :: es)) := by
  rw [Expr.formatList, List.flatMap_cons]
  exact ((reads_comma.andThen he).append h (stops_flatMap _)).mono fun _ hts => .cons hts

theorem reads_args
    (he : Reads (e.format level) Ended (DerivesExpr 1 e))
    (h : Reads ((Expr.formatList level es).flatMap (Text.ofString ", " ++ ·)) Ended
    (DerivesMore es)) :
    Reads (Text.join ", " (Expr.formatList level (e :: es))) Ended (DerivesArgs (e :: es)) := by
  rw [Expr.formatList, Text.join_cons]
  exact (he.append h (stops_flatMap _)).mono fun _ hts => .cons hts

end Operands

/-- Names with commas before them. -/
theorem reads_moreNames {ns : List Name} (h : ∀ n ∈ ns, IsName n) :
    Reads (ns.flatMap (Text.ofString ", " ++ ·)) Ended (DerivesMoreNames ns) := by
  induction ns with
  | nil => exact Reads.nil.ended.mono fun ts hts => by cases hts; exact .nil
  | cons n ns ih =>
    have hrest := ih fun m hm => h m (List.mem_cons_of_mem n hm)
    rw [List.flatMap_cons]
    exact ((reads_comma.andThen (.name (h n List.mem_cons_self))).append hrest
      (stops_flatMap _)).mono fun _ hts => .cons hts

theorem reads_names {ns : List Name} (h : ∀ n ∈ ns, IsName n) :
    Reads (names ns) Ended (DerivesParams ns) := by
  cases ns with
  | nil => exact Reads.nil.ended.mono fun ts hts => by cases hts; exact .nil
  | cons n ns =>
    have hrest := reads_moreNames fun m hm => h m (List.mem_cons_of_mem n hm)
    rw [names, Text.join_cons]
    exact ((Reads.name (h n List.mem_cons_self)).append hrest (stops_flatMap _)).mono
      fun _ hts => .cons hts

theorem reads_closing : Reads ") " Anything (Single .rightParen ")") :=
  reads_rightParen.ended.spaced (c := 0x20) rfl nofun

theorem reads_function {a : Extent} {ps : List Name} {b : Block Extent} {level : Nat}
    (hps : ∀ n ∈ ps, IsName n)
    (h : Reads (Text.join "\n" (b.formatLines (level + 1))) Anything (DerivesStmts b.statements)) :
    Reads (Text.join "\n" (braced ("function (" ++ names ps ++ ") ") (b.formatLines (level + 1))
      level)) Anything (DerivesPostfix (.function a ps b)) := by
  have hword : Reads "function (" Anything (Then (Single .kwFunction "function")
      (Single .leftParen "(")) :=
    (reads_word (by decide)).andThen reads_leftParen
  have hlead := (hword.andThen (reads_names hps)).stop reads_closing fun _ => .cons rfl _
  exact (hlead.braced h).mono fun _ hts => .function hts

/-! ## Statements -/

section Statements

variable {a : Extent} {e c : Expr Extent} {s : Stmt Extent} {b : Block Extent} {n : Name}
  {k : DeclKind} {level : Nat}

theorem reads_kind (k : DeclKind) :
    Reads (k.keyword ++ " ") Anything (Single k.terminal k.keyword) := by
  cases k <;> exact reads_word (by decide)

theorem reads_declaration (hn : IsName n) :
    Reads ((Stmt.declaration a n k none).formatClause level) Ended
      (DerivesClause (.declaration a n k none)) :=
  ((reads_kind k).andThen (.name hn)).mono fun _ hts => .declaration hts

theorem reads_initialized (hn : IsName n)
    (he : Reads (e.format level) Ended (DerivesExpr 1 e)) :
    Reads ((Stmt.declaration a n k (some e)).formatClause level) Ended
      (DerivesClause (.declaration a n k (some e))) := by
  have hname := ((reads_kind k).andThen (.name hn)).stop reads_equals fun _ => .cons rfl _
  exact (hname.andThen he).mono fun _ hts => .initialized hts

theorem reads_assignment {t v : Expr Extent} (hassign : Parser.isTarget t)
    (ht : Reads (t.format level) Ended (DerivesExpr 1 t))
    (hv : Reads (v.format level) Ended (DerivesExpr 1 v)) :
    Reads ((Stmt.assignment a t v).formatClause level) Ended
      (DerivesSimple (.assignment a t v)) :=
  ((ht.stop reads_equals fun _ => .cons rfl _).andThen hv).mono fun _ hts => .assignment hassign hts

theorem reads_expression (he : Reads (e.format level) Ended (DerivesExpr 1 e)) :
    Reads ((Stmt.expression a e).formatClause level) Ended (DerivesSimple (.expression a e)) := by
  rw [Stmt.formatClause]
  unfold wrapIf
  split
  case isFalse => exact he.mono fun _ hts => .expression hts
  case isTrue =>
    refine ((reads_leftParen.andThen he).stop reads_rightParen fun _ => .cons rfl _).ended.mono
      fun ts hts => .expression ?_
    exact (DerivesPostfix.paren hts).expr.loosen (Nat.le_refl 7) (by decide) (by decide)

/-- A clause with a semicolon is a statement. -/
theorem reads_clause {l : Nat} (h : Reads (s.formatClause l) Ended (DerivesClause s)) :
    Reads (pad l ++ (s.formatClause l ++ ";")) Anything (DerivesStmt s) :=
  ((h.stop reads_semicolon fun _ => .cons rfl _).indent (isSpace_pad l)).mono
    fun _ hts => .clause hts

theorem reads_ret : Reads (pad level ++ "return;") Anything (DerivesStmt (.ret a none)) := by
  have hword :
      Reads "return;" Anything (Then (Single .kwReturn "return") (Single .semicolon ";")) :=
    (Reads.keyword (w := "return") (by decide)).stop reads_semicolon fun _ => .cons rfl _
  exact (hword.indent (isSpace_pad level)).mono fun _ hts => .ret hts

theorem reads_retValue (he : Reads (e.format level) Ended (DerivesExpr 1 e)) :
    Reads (pad level ++ "return " ++ e.format level ++ ";") Anything
      (DerivesStmt (.ret a (some e))) := by
  have hword : Reads "return " Anything (Single .kwReturn "return") := reads_word (by decide)
  exact (((hword.indent (isSpace_pad level)).andThen he).stop reads_semicolon
    fun _ => .cons rfl _).mono fun _ hts => .retValue hts

theorem reads_brk : Reads (pad level ++ "break;") Anything (DerivesStmt (.brk a)) := by
  have hword : Reads "break;" Anything (Then (Single .kwBreak "break") (Single .semicolon ";")) :=
    (Reads.keyword (w := "break") (by decide)).stop reads_semicolon fun _ => .cons rfl _
  exact (hword.indent (isSpace_pad level)).mono fun _ hts => .brk hts

theorem reads_cont : Reads (pad level ++ "continue;") Anything (DerivesStmt (.cont a)) := by
  have hword : Reads "continue;" Anything
      (Then (Single .kwContinue "continue") (Single .semicolon ";")) :=
    (Reads.keyword (w := "continue") (by decide)).stop reads_semicolon fun _ => .cons rfl _
  exact (hword.indent (isSpace_pad level)).mono fun _ hts => .cont hts

/-! ### Branches -/

theorem reads_branch {t : Block Extent} {o : Option (Block Extent)}
    (hc : Reads (c.format level) Ended (DerivesExpr 1 c))
    (ht : Reads (Text.join "\n" (t.formatLines (level + 1))) Anything (DerivesStmts t.statements))
    (ho : Reads (Text.join "\n" (o.elim [] (Block.formatElse level))) Anything (DerivesElse o)) :
    Reads (Text.join "\n" (branchLines level [] c t o)) Anything
      (DerivesIf (.branch a c t o)) := by
  have hword : Reads "if (" Anything (Then (Single .kwIf "if") (Single .leftParen "(")) :=
    (reads_word (w := "if") (by decide)).andThen reads_leftParen
  have hlead := (hword.andThen hc).stop reads_closing fun _ => .cons rfl _
  exact ((hlead.braced ht).continueWith ho).mono fun _ hts => .mk hts

theorem reads_else : Reads "else " Anything (Single .kwElse "else") := reads_word (by decide)

/-- An `else` that goes on with a branch. -/
theorem reads_elseIf {t : Block Extent} {o : Option (Block Extent)} {a' : Extent}
    (h : Reads (Text.join "\n" (branchLines level [] c t o)) Anything
      (DerivesIf (.branch a' c t o))) :
    Reads (Text.join "\n" (Block.formatElse level (.mk a [.branch a' c t o]))) Anything
      (DerivesElse (some (.mk a [.branch a' c t o]))) := by
  rw [Block.formatElse_branch, join_branchLines]
  exact (reads_else.andThen h).mono fun _ hts => .elseIf hts

/-- An `else` with a block. -/
theorem reads_elseBlock (hb : ∀ a c t o, b.statements ≠ [.branch a c t o])
    (h : Reads (Text.join "\n" (b.formatLines (level + 1))) Anything (DerivesStmts b.statements)) :
    Reads (Text.join "\n" (b.formatElse level)) Anything (DerivesElse (some b)) := by
  rw [Block.formatElse_block hb]
  exact (reads_else.braced h).mono fun _ hts => .block hts

/-! ### Loops -/

theorem reads_while (hc : Reads (c.format level) Ended (DerivesExpr 1 c)) :
    Reads ((Header.whileTrue a c).format level) Anything (DerivesHeader (.whileTrue a c)) := by
  have hword : Reads "while (" Anything (Then (Single .kwWhile "while") (Single .leftParen "(")) :=
    (reads_word (w := "while") (by decide)).andThen reads_leftParen
  exact ((hword.andThen hc).stop reads_closing fun _ => .cons rfl _).mono fun _ hts =>
    .whileTrue hts

theorem reads_for : Reads "for (" Anything (Then (Single .kwFor "for") (Single .leftParen "(")) :=
  (reads_word (w := "for") (by decide)).andThen reads_leftParen

theorem reads_separator : Reads "; " Anything (Single .semicolon ";") :=
  reads_semicolon.ended.spaced (c := 0x20) rfl nofun

theorem Header.format_counting {α : Type} {a : α} {i u : Option (Stmt α)} {c : Option (Expr α)} :
    (Header.counting a i c u).format level =
      "for (" ++ i.elim [] (Stmt.formatClause level) ++ "; " ++ c.elim [] (Expr.format level) ++
        "; " ++ u.elim [] (Stmt.formatClause level) ++ ") " := by
  cases i <;> cases c <;> cases u <;> rfl

theorem reads_counting {i u : Option (Stmt Extent)} {c : Option (Expr Extent)}
    (hi : Reads (i.elim [] (Stmt.formatClause level)) Ended (DerivesInit i))
    (hc : Reads (c.elim [] (Expr.format level)) Ended (DerivesCondition c))
    (hu : Reads (u.elim [] (Stmt.formatClause level)) Ended (DerivesUpdate u)) :
    Reads ((Header.counting a i c u).format level) Anything
      (DerivesHeader (.counting a i c u)) := by
  have hinit := (reads_for.andThen hi).stop reads_separator fun _ => .cons rfl _
  have hcondition := (hinit.andThen hc).stop reads_separator fun _ => .cons rfl _
  have hall := (hcondition.andThen hu).stop reads_closing fun _ => .cons rfl _
  rw [Header.format_counting]
  exact hall.mono fun _ hts => DerivesHeader.counting hts

theorem reads_forOf {k : Option DeclKind} (hn : IsName n)
    (he : Reads (e.format level) Ended (DerivesExpr 1 e)) :
    Reads ((Header.forOf a n k e).format level) Anything (DerivesHeader (.forOf a n k e)) := by
  have hword : Reads (k.elim [] fun k => k.keyword ++ " ") Anything (DerivesWord k) := by
    cases k with
    | none => exact Reads.nil.mono fun ts hts => by cases hts; exact ⟨none, rfl, rfl, rfl⟩
    | some k =>
      refine (reads_kind k).mono ?_
      rintro ts ⟨w, -, rfl⟩
      exact ⟨some ⟨k, w⟩, rfl, w.no_faults (DeclKind.terminal_ne k), rfl⟩
  have hof : Reads " of " Anything (Single .kwOf "of") :=
    (reads_word (w := "of") (by decide)).indent (t := [0x20]) (by decide)
  have hname := ((reads_for.andThen hword).andThen (.name hn)).stop hof fun _ => .cons rfl _
  have hall := (hname.andThen he).stop reads_closing fun _ => .cons rfl _
  refine Eq.subst (motive := (Reads · _ _)) ?_ (hall.mono fun _ hts => DerivesHeader.forOf hts)
  cases k with
  | none => simp [Header.format]
  | some k => simp [Header.format]

theorem reads_loop {h : Header Extent}
    (hh : Reads (h.format level) Anything (DerivesHeader h))
    (hb : Reads (Text.join "\n" (b.formatLines (level + 1))) Anything (DerivesStmts b.statements)) :
    Reads (Text.join "\n" (braced (pad level ++ h.format level) (b.formatLines (level + 1)) level))
      Anything (DerivesStmt (.loop a h b)) :=
  ((hh.indent (isSpace_pad level)).braced hb).mono fun _ hts => .loop hts

end Statements

/-! ## All trees -/

mutual

/-- The text of an expression derives it. -/
theorem Expr.reads : ∀ (e : Expr Extent) (level : Nat), (∀ n ∈ e.nodes, n.Printable) →
    Reads (e.format level) Ended (DerivesAt e.level e)
  | .literal a v, level, h => (Literal.reads (h _ List.mem_cons_self)).mono fun _ hts => .ofPost hts
  | .name a n, level, h =>
    (Reads.name (h _ List.mem_cons_self).1).mono fun _ hts => .ofPost (.name hts)
  | .unary a o e, level, h => by
    simp only [Expr.nodes, List.forall_mem_cons] at h
    exact reads_unary h.1.1 h.2 (e.reads level h.2)
  | .binary a o l r, level, h => by
    simp only [Expr.nodes, List.forall_mem_cons, List.forall_mem_append] at h
    have hbinary := reads_binary (a := a) h.1.1 h.2.1 h.2.2 (l.reads level h.2.1)
      (r.reads level h.2.2)
    have hlt := (precedence_bounds h.1.1).2
    rw [Expr.level, DerivesAt, if_pos (by omega)]
    exact hbinary
  | .call a f args, level, h => by
    simp only [Expr.nodes, List.forall_mem_cons, List.forall_mem_append] at h
    exact (reads_call h.2.1 (f.reads level h.2.1) (Expr.readsArgs args level h.2.2)).ended
  | .index a b i, level, h => by
    simp only [Expr.nodes, List.forall_mem_cons, List.forall_mem_append] at h
    exact (reads_index h.2.1 (b.reads level h.2.1) ((i.reads level h.2.2).expr h.2.2)).ended
  | .array a es, level, h => by
    simp only [Expr.nodes, List.forall_mem_cons] at h
    exact (reads_array (Expr.readsArgs es level h.2)).ended
  | .function a ps b, level, h => by
    simp only [Expr.nodes, List.forall_mem_cons] at h
    exact (reads_function h.1.1 (b.reads (level + 1) h.2)).ended
  | .signal .., level, h | .signalIs .., level, h | .signalValue .., level, h
  | .unknown .., level, h => by
    unfold Expr.nodes at h
    exact (h _ List.mem_cons_self).1.elim

/-- The texts of expressions with commas between them. -/
theorem Expr.readsArgs : ∀ (es : List (Expr Extent)) (level : Nat),
    (∀ n ∈ Expr.nodesOfList es, n.Printable) →
    Reads (Text.join ", " (Expr.formatList level es)) Ended (DerivesArgs es)
  | [], level, _ => Reads.nil.ended.mono fun ts hts => by cases hts; exact .nil
  | e :: es, level, h => by
    simp only [Expr.nodesOfList, List.forall_mem_append] at h
    exact reads_args ((e.reads level h.1).expr h.1) (Expr.readsMore es level h.2)

theorem Expr.readsMore : ∀ (es : List (Expr Extent)) (level : Nat),
    (∀ n ∈ Expr.nodesOfList es, n.Printable) →
    Reads ((Expr.formatList level es).flatMap (Text.ofString ", " ++ ·)) Ended (DerivesMore es)
  | [], level, _ => Reads.nil.ended.mono fun ts hts => by cases hts; exact .nil
  | e :: es, level, h => by
    simp only [Expr.nodesOfList, List.forall_mem_append] at h
    exact reads_more ((e.reads level h.1).expr h.1) (Expr.readsMore es level h.2)

/-- The lines in a block derive its statements. -/
theorem Block.reads : ∀ (b : Block Extent) (level : Nat), (∀ n ∈ b.nodes, n.Printable) →
    Reads (Text.join "\n" (b.formatLines level)) Anything (DerivesStmts b.statements)
  | .mk _ ss, level, h => by
    simp only [Block.nodes, List.forall_mem_cons] at h
    exact Stmt.readsList ss level h.2

theorem Stmt.readsList : ∀ (ss : List (Stmt Extent)) (level : Nat),
    (∀ n ∈ Stmt.nodesOfList ss, n.Printable) →
    Reads (Text.join "\n" (Stmt.formatList level ss)) Anything (DerivesStmts ss)
  | [], level, _ => Reads.nil.mono fun ts hts => by cases hts; exact .nil
  | s :: ss, level, h => by
    simp only [Stmt.nodesOfList, List.forall_mem_append] at h
    exact (Reads.join_append (by decide) (s.reads level h.1).1 (Stmt.readsList ss level h.2)).mono
      fun _ hts => .cons hts

/-- The lines of a statement derive it, and those of a branch also where they go on from an
    `else`. -/
theorem Stmt.reads : ∀ (s : Stmt Extent) (level : Nat), (∀ n ∈ s.nodes, n.Printable) →
    Reads (Text.join "\n" (s.format level)) Anything (DerivesStmt s) ∧
    ∀ a c t o, s = .branch a c t o →
      Reads (Text.join "\n" (branchLines level [] c t o)) Anything (DerivesIf s)
  | .declaration a n k none, level, h => by
    have hname : IsName n := (h _ List.mem_cons_self).1
    have hclause := reads_clause (l := level) (reads_declaration (a := a) (k := k) hname)
    exact ⟨by simpa only [Stmt.format, Stmt.formatClause, Text.join, List.append_assoc]
      using hclause, nofun⟩
  | .declaration a n k (some e), level, h => by
    simp only [Stmt.nodes, List.forall_mem_cons] at h
    have hclause := reads_clause (reads_initialized (a := a) (n := n) (k := k) h.1.1
      ((e.reads level h.2).expr h.2))
    exact ⟨by simpa only [Stmt.format, Stmt.formatClause, Text.join, List.append_assoc]
      using hclause, nofun⟩
  | .assignment a t v, level, h => by
    simp only [Stmt.nodes, List.forall_mem_cons, List.forall_mem_append] at h
    have hclause := reads_clause ((reads_assignment (a := a) h.1.1
      ((t.reads level h.2.1).expr h.2.1) ((v.reads level h.2.2).expr h.2.2)).mono
        fun _ hts => DerivesSimple.clause hts)
    exact ⟨by simpa only [Stmt.format, Stmt.formatClause, Text.join, List.append_assoc]
      using hclause, nofun⟩
  | .expression a e, level, h => by
    simp only [Stmt.nodes, List.forall_mem_cons] at h
    have hclause := reads_clause ((reads_expression (a := a) ((e.reads level h.2).expr h.2)).mono
      fun _ hts => DerivesSimple.clause hts)
    exact ⟨by simpa only [Stmt.format, Stmt.formatClause, Text.join, List.append_assoc]
      using hclause, nofun⟩
  | .ret a none, level, _ => ⟨reads_ret, nofun⟩
  | .ret a (some e), level, h => by
    simp only [Stmt.nodes, List.forall_mem_cons] at h
    exact ⟨reads_retValue ((e.reads level h.2).expr h.2), nofun⟩
  | .brk a, level, _ => ⟨reads_brk, nofun⟩
  | .cont a, level, _ => ⟨reads_cont, nofun⟩
  | .block b, level, h => by
    have hblock := (Reads.blank (isSpace_pad level)).braced (l := level) (b.reads (level + 1) h)
    refine ⟨hblock.mono ?_, nofun⟩
    rintro ts ⟨_, _, rfl, hts, rfl⟩
    exact .block hts
  | .branch a c t o, level, h => by
    simp only [Stmt.nodes_branch, List.forall_mem_cons, List.forall_mem_append] at h
    have hbranch := reads_branch (a := a) ((c.reads level h.2.1).expr h.2.1)
      (t.reads (level + 1) h.2.2.1) (Block.readsElse o level h.2.2.2)
    constructor
    · rw [Stmt.format_branch, join_branchLines]
      exact (hbranch.indent (isSpace_pad level)).mono fun _ hts => .branch hts
    · intro a' c' t' o' heq
      cases heq
      exact hbranch
  | .loop a hd b, level, h => by
    simp only [Stmt.nodes, List.forall_mem_cons, List.forall_mem_append] at h
    have hloop := reads_loop (a := a) (hd.reads level h.2.1) (b.reads (level + 1) h.2.2)
    refine ⟨?_, nofun⟩
    cases hd with
    | unknown => exact (h.2.1 _ List.mem_cons_self).1.elim
    | _ => exact hloop
  | .unknown a n, level, h => by
    unfold Stmt.nodes at h
    exact (h _ List.mem_cons_self).1.elim

/-- The lines of an `else`, if there is one, derive it. -/
theorem Block.readsElse : ∀ (o : Option (Block Extent)) (level : Nat),
    (∀ n ∈ o.elim [] Block.nodes, n.Printable) →
    Reads (Text.join "\n" (o.elim [] (Block.formatElse level))) Anything (DerivesElse o)
  | none, level, _ => Reads.nil.mono fun ts hts => by cases hts; exact .none
  | some (.mk a []), level, _ => reads_elseBlock nofun (Reads.nil.mono fun ts hts => by
      cases hts; exact .nil)
  | some (.mk a [s]), level, h => by
    simp only [Option.elim_some, Block.nodes, Stmt.nodesOfList, List.append_nil,
      List.forall_mem_cons] at h
    by_cases hs : ∃ a c t o, s = .branch a c t o
    · obtain ⟨a', c, t, o, rfl⟩ := hs
      exact reads_elseIf ((Stmt.reads _ level h.2).2 _ _ _ _ rfl)
    · have hlines := (s.reads (level + 1) h.2).1
      refine reads_elseBlock (b := .mk a [s]) (fun a c t o heq => ?_) ?_
      · exact hs ⟨a, c, t, o, List.head_eq_of_cons_eq heq⟩
      · rw [Block.formatLines, Stmt.formatList, Stmt.formatList, List.append_nil]
        refine hlines.mono fun ts hts => DerivesStmts.cons ⟨ts, [], hts, .nil, ?_⟩
        rw [List.append_nil]
  | some (.mk a (s :: s' :: ss)), level, h => by
    simp only [Option.elim_some, Block.nodes, Stmt.nodesOfList, List.forall_mem_append,
      List.forall_mem_cons] at h
    refine reads_elseBlock nofun ?_
    have hrest := (Reads.join_append (by decide) (s'.reads (level + 1) h.2.2.1).1
      (Stmt.readsList ss (level + 1) h.2.2.2)).mono fun _ hts => DerivesStmts.cons hts
    exact (Reads.join_append (by decide) (s.reads (level + 1) h.2.1).1 hrest).mono
      fun _ hts => .cons hts

/-- The text of a clause derives it. -/
theorem Stmt.readsClause : ∀ (s : Stmt Extent) (level : Nat), (∀ n ∈ s.nodes, n.Printable) →
    (s.isInit → Reads (s.formatClause level) Ended (DerivesClause s)) ∧
    (s.isUpdate → Reads (s.formatClause level) Ended (DerivesSimple s))
  | .declaration a n k none, level, h =>
    ⟨fun _ => reads_declaration (h _ List.mem_cons_self).1, nofun⟩
  | .declaration a n k (some e), level, h => by
    simp only [Stmt.nodes, List.forall_mem_cons] at h
    exact ⟨fun _ => reads_initialized h.1.1 ((e.reads level h.2).expr h.2), nofun⟩
  | .assignment a t v, level, h => by
    simp only [Stmt.nodes, List.forall_mem_cons, List.forall_mem_append] at h
    have hsimple := reads_assignment (a := a) h.1.1 ((t.reads level h.2.1).expr h.2.1)
      ((v.reads level h.2.2).expr h.2.2)
    exact ⟨fun _ => hsimple.mono fun _ hts => DerivesSimple.clause hts, fun _ => hsimple⟩
  | .expression a e, level, h => by
    simp only [Stmt.nodes, List.forall_mem_cons] at h
    have hsimple := reads_expression (a := a) ((e.reads level h.2).expr h.2)
    exact ⟨fun _ => hsimple.mono fun _ hts => DerivesSimple.clause hts, fun _ => hsimple⟩
  | .ret .., _, _ | .brk .., _, _ | .cont .., _, _ | .block .., _, _ | .branch .., _, _
  | .loop .., _, _ | .unknown .., _, _ => ⟨nofun, nofun⟩

theorem Stmt.readsInit : ∀ (i : Option (Stmt Extent)) (level : Nat), (∀ s ∈ i, s.isInit) →
    (∀ n ∈ i.elim [] Stmt.nodes, n.Printable) →
    Reads (i.elim [] (Stmt.formatClause level)) Ended (DerivesInit i)
  | none, level, _, _ =>
    Reads.nil.ended.mono fun ts hts => by cases hts; exact ⟨.none, rfl, rfl, rfl⟩
  | some s, level, hi, h => ((s.readsClause level h).1 (hi s rfl)).mono fun ts hts => by
      obtain ⟨d, rfl, hf, hd⟩ := hts
      exact ⟨.some d, rfl, hf, congrArg some hd⟩

theorem Stmt.readsUpdate : ∀ (u : Option (Stmt Extent)) (level : Nat), (∀ s ∈ u, s.isUpdate) →
    (∀ n ∈ u.elim [] Stmt.nodes, n.Printable) →
    Reads (u.elim [] (Stmt.formatClause level)) Ended (DerivesUpdate u)
  | none, level, _, _ =>
    Reads.nil.ended.mono fun ts hts => by cases hts; exact ⟨.none, rfl, rfl, rfl⟩
  | some s, level, hu, h => ((s.readsClause level h).2 (hu s rfl)).mono fun ts hts => by
      obtain ⟨d, rfl, hf, hd⟩ := hts
      exact ⟨.some d, rfl, hf, congrArg some hd⟩

theorem Expr.readsCondition : ∀ (c : Option (Expr Extent)) (level : Nat),
    (∀ n ∈ c.elim [] Expr.nodes, n.Printable) →
    Reads (c.elim [] (Expr.format level)) Ended (DerivesCondition c)
  | none, level, _ => Reads.nil.ended.mono fun ts hts => by cases hts; exact ⟨.none, rfl, rfl, rfl⟩
  | some e, level, h => ((e.reads level h).expr h).mono fun ts hts => by
      obtain ⟨d, rfl, hf, hd⟩ := hts
      exact ⟨.some d, rfl, hf, congrArg some hd⟩

/-- The text of a header derives it. -/
theorem Header.reads : ∀ (hd : Header Extent) (level : Nat), (∀ n ∈ hd.nodes, n.Printable) →
    Reads (hd.format level) Anything (DerivesHeader hd)
  | .whileTrue a c, level, h => by
    simp only [Header.nodes, List.forall_mem_cons] at h
    exact reads_while ((c.reads level h.2).expr h.2)
  | .forOf a n k e, level, h => by
    simp only [Header.nodes, List.forall_mem_cons] at h
    exact reads_forOf h.1.1 ((e.reads level h.2).expr h.2)
  | .counting a i c u, level, h => by
    simp only [Header.nodes_counting, List.forall_mem_cons, List.forall_mem_append] at h
    exact reads_counting (Stmt.readsInit i level h.1.1.1 h.2.1)
      (Expr.readsCondition c level h.2.2.1)
      (Stmt.readsUpdate u level h.1.1.2 h.2.2.2)
  | .unknown a n, level, h => by
    unfold Header.nodes at h
    exact (h _ List.mem_cons_self).1.elim

end

end FlatScope
