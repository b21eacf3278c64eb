import FlatScope.Proofs.Grammar.Sound
import FlatScope.Proofs.Grammar.Literals
import FlatScope.Syntax.Map
import FlatScope.Syntax.Same

/-!
# The parser decides its grammar

A source is accepted just when it splits into tokens that have a derivation, every target of an
assignment is a name or an access, and every string literal spells something; the program is the one
that the derivation denotes, there is no other derivation of the same tokens, and constants have the
values that they stand for (`parse_eq_ok_iff`).
-/

namespace FlatScope

namespace Grammar

/-! ## What is collected -/

section Collected

variable {β γ : Type} (f : Token → List β) (g : Expr Extent → List β) (h : β → List γ)

theorem collectParams_flatMap (ps : Option Params) :
    (collectParams f ps).flatMap h = collectParams (fun t => (f t).flatMap h) ps := by
  cases ps with
  | none => rfl
  | some ps => simp [collectParams, Params.collect, List.flatMap_assoc]

theorem collectWord_flatMap (d : Option DeclWord) :
    (collectWord f d).flatMap h = collectWord (fun t => (f t).flatMap h) d := by
  cases d <;> rfl

mutual

theorem ExprTree.collect_flatMap : ∀ {p : Nat} (d : ExprTree p),
    (d.collect f g).flatMap h = d.collect (fun t => (f t).flatMap h) fun e => (g e).flatMap h
  | _, .chain _ first tails => by
    simp [ExprTree.collect, first.collect_flatMap, tails.collect_flatMap]
  | _, .signed s e => by simp [ExprTree.collect, e.collect_flatMap]
  | _, .suffixed a ss => by simp [ExprTree.collect, a.collect_flatMap, ss.collect_flatMap]
  termination_by structural _ d => d

theorem Tails.collect_flatMap : ∀ {p : Nat} (d : Tails p),
    (d.collect f g).flatMap h = d.collect (fun t => (f t).flatMap h) fun e => (g e).flatMap h
  | _, .nil => by simp [Tails.collect]
  | _, .cons o e rest => by simp [Tails.collect, e.collect_flatMap, rest.collect_flatMap]
  termination_by structural _ d => d

theorem Suffixes.collect_flatMap : ∀ (d : Suffixes),
    (d.collect f g).flatMap h = d.collect (fun t => (f t).flatMap h) fun e => (g e).flatMap h
  | .nil => by simp [Suffixes.collect]
  | .call lp args rp rest => by simp [Suffixes.collect, args.collect_flatMap, rest.collect_flatMap]
  | .index lb i rb rest => by simp [Suffixes.collect, i.collect_flatMap, rest.collect_flatMap]
  termination_by structural d => d

theorem Args.collect_flatMap : ∀ (d : Args),
    (d.collect f g).flatMap h = d.collect (fun t => (f t).flatMap h) fun e => (g e).flatMap h
  | .none => by simp [Args.collect]
  | .some e rest => by simp [Args.collect, e.collect_flatMap, rest.collect_flatMap]
  termination_by structural d => d

theorem MoreArgs.collect_flatMap : ∀ (d : MoreArgs),
    (d.collect f g).flatMap h = d.collect (fun t => (f t).flatMap h) fun e => (g e).flatMap h
  | .nil => by simp [MoreArgs.collect]
  | .cons c e rest => by simp [MoreArgs.collect, e.collect_flatMap, rest.collect_flatMap]
  termination_by structural d => d

theorem AtomTree.collect_flatMap : ∀ (d : AtomTree),
    (d.collect f g).flatMap h = d.collect (fun t => (f t).flatMap h) fun e => (g e).flatMap h
  | .constant c => by simp [AtomTree.collect]
  | .name t => by simp [AtomTree.collect]
  | .array lb es rb => by simp [AtomTree.collect, es.collect_flatMap]
  | .function w lp ps rp b => by simp [AtomTree.collect, b.collect_flatMap, collectParams_flatMap]
  | .paren lp e rp => by simp [AtomTree.collect, e.collect_flatMap]
  termination_by structural d => d

theorem BlockTree.collect_flatMap : ∀ (d : BlockTree),
    (d.collect f g).flatMap h = d.collect (fun t => (f t).flatMap h) fun e => (g e).flatMap h
  | .mk lb ss rb => by simp [BlockTree.collect, ss.collect_flatMap]
  termination_by structural d => d

theorem StmtTrees.collect_flatMap : ∀ (d : StmtTrees),
    (d.collect f g).flatMap h = d.collect (fun t => (f t).flatMap h) fun e => (g e).flatMap h
  | .nil => by simp [StmtTrees.collect]
  | .cons s ss => by simp [StmtTrees.collect, s.collect_flatMap, ss.collect_flatMap]
  termination_by structural d => d

theorem StmtTree.collect_flatMap : ∀ (d : StmtTree),
    (d.collect f g).flatMap h = d.collect (fun t => (f t).flatMap h) fun e => (g e).flatMap h
  | .clause c sc => by simp [StmtTree.collect, c.collect_flatMap]
  | .ret w e sc => by simp [StmtTree.collect, e.collect_flatMap]
  | .brk w sc => by simp [StmtTree.collect]
  | .cont w sc => by simp [StmtTree.collect]
  | .branch i => by simp [StmtTree.collect, i.collect_flatMap]
  | .whileLoop w lp c rp b => by simp [StmtTree.collect, c.collect_flatMap, b.collect_flatMap]
  | .forLoop w lp i sc c sc' u rp b => by
    simp [StmtTree.collect, i.collect_flatMap, c.collect_flatMap, u.collect_flatMap,
      b.collect_flatMap]
  | .forOf w lp d n o e rp b => by
    simp [StmtTree.collect, e.collect_flatMap, b.collect_flatMap, collectWord_flatMap]
  | .block b => by simp [StmtTree.collect, b.collect_flatMap]
  termination_by structural d => d

theorem ClauseTree.collect_flatMap : ∀ (d : ClauseTree),
    (d.collect f g).flatMap h = d.collect (fun t => (f t).flatMap h) fun e => (g e).flatMap h
  | .declaration w n => by simp [ClauseTree.collect]
  | .initialized w n eq e => by simp [ClauseTree.collect, e.collect_flatMap]
  | .simple s => by simp [ClauseTree.collect, s.collect_flatMap]
  termination_by structural d => d

theorem SimpleTree.collect_flatMap : ∀ (d : SimpleTree),
    (d.collect f g).flatMap h = d.collect (fun t => (f t).flatMap h) fun e => (g e).flatMap h
  | .assignment t eq v => by simp [SimpleTree.collect, t.collect_flatMap, v.collect_flatMap]
  | .expression e => by simp [SimpleTree.collect, e.collect_flatMap]
  termination_by structural d => d

theorem MaybeExpr.collect_flatMap : ∀ (d : MaybeExpr),
    (d.collect f g).flatMap h = d.collect (fun t => (f t).flatMap h) fun e => (g e).flatMap h
  | .none => by simp [MaybeExpr.collect]
  | .some e => by simp [MaybeExpr.collect, e.collect_flatMap]
  termination_by structural d => d

theorem MaybeClause.collect_flatMap : ∀ (d : MaybeClause),
    (d.collect f g).flatMap h = d.collect (fun t => (f t).flatMap h) fun e => (g e).flatMap h
  | .none => by simp [MaybeClause.collect]
  | .some c => by simp [MaybeClause.collect, c.collect_flatMap]
  termination_by structural d => d

theorem MaybeSimple.collect_flatMap : ∀ (d : MaybeSimple),
    (d.collect f g).flatMap h = d.collect (fun t => (f t).flatMap h) fun e => (g e).flatMap h
  | .none => by simp [MaybeSimple.collect]
  | .some s => by simp [MaybeSimple.collect, s.collect_flatMap]
  termination_by structural d => d

theorem IfTree.collect_flatMap : ∀ (d : IfTree),
    (d.collect f g).flatMap h = d.collect (fun t => (f t).flatMap h) fun e => (g e).flatMap h
  | .mk w lp c rp b o => by
    simp [IfTree.collect, c.collect_flatMap, b.collect_flatMap, o.collect_flatMap]
  termination_by structural d => d

theorem ElseTree.collect_flatMap : ∀ (d : ElseTree),
    (d.collect f g).flatMap h = d.collect (fun t => (f t).flatMap h) fun e => (g e).flatMap h
  | .none => by simp [ElseTree.collect]
  | .block w b => by simp [ElseTree.collect, b.collect_flatMap]
  | .elseIf w i => by simp [ElseTree.collect, i.collect_flatMap]
  termination_by structural d => d

end

end Collected

/-- The tokens and the targets of a program, from left to right. -/
def ProgramTree.events (p : ProgramTree) : List (Token ⊕ Expr Extent) :=
  p.collect (fun t => [.inl t]) fun e => [.inr e]

theorem ProgramTree.collect_eq {β : Type} (f : Token → List β) (g : Expr Extent → List β)
    (p : ProgramTree) : p.collect f g = p.events.flatMap (Sum.elim f g) := by
  unfold ProgramTree.events ProgramTree.collect
  rw [List.flatMap_assoc]
  congr 1
  funext i
  cases i with
  | stmt s => simp [Item.collect, StmtTree.collect_flatMap]
  | function f =>
    simp [Item.collect, FunctionTree.collect, BlockTree.collect_flatMap, collectParams_flatMap]

theorem ProgramTree.mem_tokens {p : ProgramTree} {t : Token} :
    t ∈ p.tokens ↔ .inl t ∈ p.events := by
  simp [ProgramTree.tokens, ProgramTree.collect_eq, Sum.exists]

theorem ProgramTree.mem_targets {p : ProgramTree} {e : Expr Extent} :
    e ∈ p.targets ↔ .inr e ∈ p.events := by
  simp [ProgramTree.targets, ProgramTree.collect_eq, Sum.exists]

/-! ## Faults -/

theorem literalFaults_eq_nil_iff {t : Token} :
    literalFaults t = [] ↔
      (t.terminal = .number → ∃ v, Token.numberValue t.text = .ok v) ∧
      (t.terminal = .string → ∃ v, Token.stringValue t.text = .ok v) := by
  unfold literalFaults
  split
  case h_1 hk =>
    cases Token.numberValue t.text <;> simp [hk]
  case h_2 hk =>
    cases Token.stringValue t.text <;> simp [hk]
  case h_3 hn hs => exact ⟨fun _ => ⟨fun h => (hn h).elim, fun h => (hs h).elim⟩, fun _ => rfl⟩

/-- Nothing is wrong with a program whose literals have values and whose targets can be assigned
    to. -/
theorem ProgramTree.faults_eq_nil_iff {p : ProgramTree} :
    p.faults = [] ↔ (∀ t ∈ p.tokens, literalFaults t = []) ∧ ∀ e ∈ p.targets, Assignable e := by
  have htarget : ∀ e, targetFaults e = [] ↔ Assignable e := by
    intro e
    rw [← isTarget_iff]
    unfold targetFaults
    split <;> simp_all
  rw [ProgramTree.faults, ProgramTree.collect_eq, List.flatMap_eq_nil_iff]
  simp only [Sum.forall, Sum.elim_inl, Sum.elim_inr, htarget, ProgramTree.mem_tokens,
    ProgramTree.mem_targets]

/-- Of the faults only integers with more digits than can be read are too long. -/
theorem ProgramTree.digitLimit_lt_of_mem_faults {p : ProgramTree} {n : Nat} {place : Extent}
    (h : (.literal (.tooLong n), place) ∈ p.faults) : digitLimit < n := by
  rw [ProgramTree.faults, ProgramTree.collect_eq, List.mem_flatMap] at h
  obtain ⟨x, _, hx⟩ := h
  cases x with
  | inl t =>
    simp only [Sum.elim_inl, literalFaults] at hx
    split at hx
    case h_1 =>
      split at hx
      case h_1 => cases hx
      case h_2 hvalue =>
        cases List.mem_singleton.mp hx
        exact digitLimit_lt_of_tooLong hvalue
    case h_2 =>
      split at hx
      case h_1 => cases hx
      case h_2 hvalue =>
        cases List.mem_singleton.mp hx
        exact absurd hvalue (stringValue_ne_tooLong _ _)
    case h_3 => cases hx
  | inr e =>
    simp only [Sum.elim_inr, targetFaults] at hx
    split at hx
    case isTrue => cases hx
    case isFalse => cases List.mem_singleton.mp hx

end Grammar

/-! ## Sources -/

open Grammar

theorem matches_of_splits {p : Position} {s : Text} {ts : List Token} (h : Splits p s ts) :
    ∀ t ∈ ts, Matches (some t.terminal) t.text := by
  induction h with
  | nil => exact fun t ht => nomatch ht
  | skip _ _ ih => exact ih
  | token hl _ ih =>
    intro t ht
    rcases List.mem_cons.mp ht with rfl | ht
    · exact hl.holds
    · exact ih t ht

/-- The operators of the grammar are the only ones with a text. -/
theorem Matches.known {k : Terminal} {t : Text} (h : Matches (some k) t) : Known k := by
  rintro s rfl
  cases h with
  | keyword h | symbol h => cases h

/-- The tokens before the one that is refused are read. -/
theorem exists_of_run_error {s : Parser.State} {ts : List Token} {e : Parser.SyntaxError}
    (h : Parser.run s ts = .error e) : ∃ before t after s', ts = before ++ t :: after ∧
      Parser.run s before = .ok s' ∧ Parser.step s' t = none ∧ e = .unexpected t := by
  induction ts generalizing s with
  | nil => cases h
  | cons t ts ih =>
    rw [Parser.run] at h
    split at h
    case h_1 s₁ hstep =>
      obtain ⟨before, t', after, s', rfl, hrun, hnone, rfl⟩ := ih h
      exact ⟨t :: before, t', after, s', rfl, by rw [Parser.run, hstep]; exact hrun, hnone, rfl⟩
    case h_2 hnone => cases h; exact ⟨[], t, ts, s, rfl, rfl, hnone, rfl⟩

/-- What is read to the end, with a fault or without one, has a derivation. -/
theorem exists_of_parseTokens {source : Text} {ts : List Token} {stop : Token.Stop}
    (hscan : Token.scan source = (ts, stop))
    (h : ∀ e, Parser.parseTokens ts stop = .error e → ∃ fault place, e = .fault fault place) :
    ∃ d : ProgramTree, d.tokens = ts ∧ stop = .finished := by
  unfold Parser.parseTokens at h
  cases hrun : Parser.run .initial ts with
  | error e =>
    rw [hrun] at h
    obtain ⟨fault, place, rfl⟩ := h e rfl
    obtain ⟨_, _, _, _, _, _, _, he⟩ := exists_of_run_error hrun
    cases he
  | ok s =>
    rw [hrun] at h
    cases stop with
    | noTerminal => obtain ⟨_, _, he⟩ := h _ rfl; cases he
    | finished =>
      have hsplit : Splits .origin source ts := splits_iff_scan.mpr hscan
      cases hend : Parser.finish s with
      | none =>
        simp only [bind, Except.bind, hend] at h
        obtain ⟨_, _, he⟩ := h _ rfl
        cases he
      | some Q =>
        obtain ⟨d, hd⟩ := exists_derivation
          (fun t ht => (matches_of_splits hsplit t ht).known) hrun hend
        exact ⟨d, hd, rfl⟩

/-- What a source with a derivation is read as. -/
theorem parse_of_derivation {source : Text} {d : ProgramTree}
    (h : Splits .origin source d.tokens) :
    Parser.parse source =
      match d.faults.head? with
      | none => .ok d.denote
      | some (fault, place) => .error (.fault fault place) := by
  rw [Parser.parse, splits_iff_scan.mp h]
  exact d.parseTokens_eq

/-- What is read with a fault or without one has a derivation. -/
theorem exists_of_parse {source : Text}
    (h : ∀ e, Parser.parse source = .error e → ∃ fault place, e = .fault fault place) :
    ∃ d : ProgramTree, Splits .origin source d.tokens := by
  obtain ⟨ts, stop, hscan⟩ : ∃ ts stop, Token.scan source = (ts, stop) := ⟨_, _, rfl⟩
  rw [Parser.parse, hscan] at h
  obtain ⟨d, rfl, rfl⟩ := exists_of_parseTokens hscan h
  exact ⟨d, splits_iff_scan.mpr hscan⟩

/-- A source is read as a program just when its tokens have a derivation without faults, which
    denotes the program. -/
theorem parse_iff_denote {source : Text} {P : Program Extent} :
    Parser.parse source = .ok P ↔
      ∃ d : ProgramTree, Splits .origin source d.tokens ∧ d.faults = [] ∧ d.denote = P := by
  constructor
  · intro h
    obtain ⟨d, hsplit⟩ := exists_of_parse fun e he => by rw [h] at he; cases he
    rw [parse_of_derivation hsplit] at h
    refine ⟨d, hsplit, ?_⟩
    cases hf : d.faults with
    | nil => rw [hf] at h; exact ⟨rfl, Except.ok.inj h⟩
    | cons => rw [hf] at h; cases h
  · rintro ⟨d, hsplit, hfaults, rfl⟩
    rw [parse_of_derivation hsplit, hfaults]
    rfl

/-- What a constant stands for: a number for what it is the numeral of, and a string for what it
    spells, with surrogate pairs joined. -/
inductive Grammar.Constant.StandsFor : Constant → Literal → Prop
  | number (t : Leaf .number) : StandsFor (.number t) (.number (numeral t.1.text))
  | string {t : Leaf .string} {v : Text} : Spells (t.1.text.drop 1).dropLast v →
      StandsFor (.string t) (.text (Text.joinSurrogates v))
  | true (t : Leaf .kwTrue) : StandsFor (.true t) (.bool .true)
  | false (t : Leaf .kwFalse) : StandsFor (.false t) (.bool .false)
  | undefined (t : Leaf .kwUndefined) : StandsFor (.undefined t) .undefined

/-- A constant that matches its terminal has the value that it stands for, if it is no integer of
    too many digits. -/
theorem Grammar.Constant.StandsFor.value_eq {c : Constant} {v : Literal} (h : c.StandsFor v)
    (hmatch : Matches (some c.token.terminal) c.token.text)
    (hdigits : c.token.terminal = .number → Text.code '.' ∉ c.token.text →
      c.token.text.length ≤ digitLimit) : c.value = v := by
  cases h with
  | number t =>
    obtain ⟨n, hn⟩ := numberValue_isOk_iff.mpr (hdigits t.2)
    have hvalue : Token.numberValue t.1.text = .ok n := hn
    simp [Constant.value, hvalue, Except.toOption, numeral_of_numberValue hvalue]
  | @string t v hv =>
    have hmatch : Matches (some .string) t.1.text := by
      have hterminal : (Constant.string t).token.terminal = .string := t.2
      rwa [hterminal] at hmatch
    have hvalue := (stringValue_eq_ok_iff hmatch).mpr ⟨v, hv, rfl⟩
    simp [Constant.value, hvalue, Except.toOption]
  | true | false | undefined => rfl

/-- A source is accepted just when it splits into the tokens of a derivation whose targets are
    names and accesses and whose strings are well escaped; the program is the one that the
    derivation denotes. No other derivation has the same tokens, and the value of each constant is
    what it stands for. -/
theorem parse_eq_ok_iff (source : Text)
    (hdigits : ∀ ts, Splits .origin source ts → ∀ t ∈ ts, t.terminal = .number →
      Text.code '.' ∉ t.text → t.text.length ≤ 4300) :
    (∀ P, Parser.parse source = .ok P ↔
      ∃ d : ProgramTree, Splits .origin source d.tokens ∧
        (∀ e ∈ d.targets, Assignable e) ∧
        (∀ t ∈ d.tokens, t.terminal = .string → ∃ v, Spells (t.text.drop 1).dropLast v) ∧
        d.denote = P) ∧
    (∀ d d' : ProgramTree, d.tokens = d'.tokens → d = d') ∧
    ∀ d : ProgramTree, Splits .origin source d.tokens →
      ∀ c : Constant, c.token ∈ d.tokens → ∀ v, c.StandsFor v → c.value = v := by
  refine ⟨fun P => ?_, ProgramTree.tokens_inj, fun d hsplit c hc v hv =>
    hv.value_eq (matches_of_splits hsplit _ hc) (hdigits _ hsplit _ hc)⟩
  rw [parse_iff_denote]
  refine exists_congr fun d => and_congr_right fun hsplit => ?_
  have hliteral : ∀ t ∈ d.tokens, (literalFaults t = [] ↔
      (t.terminal = .string → ∃ v, Spells (t.text.drop 1).dropLast v)) := by
    intro t ht
    have hmatch := matches_of_splits hsplit t ht
    rw [literalFaults_eq_nil_iff, numberValue_isOk_iff]
    constructor
    · intro h hk
      rw [hk] at hmatch
      obtain ⟨u, hu⟩ := h.2 hk
      obtain ⟨v, hv, -⟩ := (stringValue_eq_ok_iff hmatch).mp hu
      exact ⟨v, hv⟩
    · intro h
      refine ⟨fun hk => hdigits _ hsplit t ht hk, fun hk => ?_⟩
      rw [hk] at hmatch
      obtain ⟨v, hv⟩ := h hk
      exact ⟨_, (stringValue_eq_ok_iff hmatch).mpr ⟨v, hv, rfl⟩⟩
  rw [ProgramTree.faults_eq_nil_iff, and_assoc]
  constructor
  · rintro ⟨hlit, htgt, rfl⟩
    exact ⟨htgt, fun t ht => (hliteral t ht).mp (hlit t ht), rfl⟩
  · rintro ⟨htgt, hesc, rfl⟩
    exact ⟨fun t ht => (hliteral t ht).mpr (hesc t ht), htgt, rfl⟩

/-- Statements that are the same up to their marks. -/
def sameBare (ss : List (Stmt Extent)) (ts : List (Stmt Unit)) : Bool :=
  Stmt.sameList (Stmt.mapList (fun _ => ()) ss) ts

/-- A text with operators of four levels, signs, suffixes, a function between statements, an
    `else if`, and both kinds of `for`. -/
def sentence : Text :=
  "a[0] = 1" ++ " - -b" ++ " * f(2)[x]" ++ " - 3 < 4;" ++
    " function " ++ "f(x, y) \x7b" ++ " return y" ++ " == '\\u0041\\n';" ++ " \x7d" ++
    " if (x) \x7b \x7d" ++ " else " ++ "if (!y) " ++ "\x7b break; \x7d" ++
    " for (let" ++ " i = 0; ;" ++ " i = i + 1) " ++ "\x7b for (q of" ++ " [i, a]) " ++
    "\x7b \x7d \x7d"

/-- The statements of that text. -/
def sentenceStatements : List (Stmt Unit) :=
  [.assignment () (.index () (.name () "a") (.literal () (.number (.int 0))))
    (.binary () .lt
      (.binary () .sub
        (.binary () .sub (.literal () (.number (.int 1)))
          (.binary () .mul (.unary () .neg (.name () "b"))
            (.index () (.call () (.name () "f") [.literal () (.number (.int 2))]) (.name () "x"))))
        (.literal () (.number (.int 3))))
      (.literal () (.number (.int 4)))),
    .branch () (.name () "x") (.mk () [])
      (some (.mk () [.branch () (.unary () .not (.name () "y")) (.mk () [.brk ()]) none])),
    .loop () (.counting ()
        (some (.declaration () "i" .letVar (some (.literal () (.number (.int 0)))))) none
        (some (.assignment () (.name () "i")
          (.binary () .add (.name () "i") (.literal () (.number (.int 1)))))))
      (.mk () [.loop () (.forOf () "q" none (.array () [.name () "i", .name () "a"])) (.mk () [])])]

/-- The body of the function in that text. -/
def sentenceBody : List (Stmt Unit) :=
  [.ret () (some (.binary () .eq (.name () "y") (.literal () (.text "A\n"))))]

/-- The theorem for that text. -/
theorem parse_sentence :
    ∃ d : ProgramTree, Splits .origin sentence d.tokens ∧
      (∀ e ∈ d.targets, Assignable e) ∧
      (∀ t ∈ d.tokens, t.terminal = .string → ∃ v, Spells (t.text.drop 1).dropLast v) ∧
      sameBare d.denote.statements sentenceStatements ∧
      ∃ fn, d.denote.functions = [fn] ∧ fn.params = [Text.ofString "x", Text.ofString "y"] ∧
        sameBare fn.body.statements sentenceBody := by
  have hscan : ∀ ts, Splits .origin sentence ts → ∀ t ∈ ts, t.terminal = .number →
      Text.code '.' ∉ t.text → t.text.length ≤ 4300 := by
    intro ts h
    obtain rfl : (Token.scan sentence).1 = ts := congrArg Prod.fst (splits_iff_scan.mp h)
    decide +kernel
  have hread : (Parser.parse sentence).toOption.any fun P =>
      sameBare P.statements sentenceStatements && P.functions.length == 1 &&
        P.functions.all fun fn => fn.params = [Text.ofString "x", Text.ofString "y"] &&
          sameBare fn.body.statements sentenceBody := by
    decide +kernel
  cases hparse : Parser.parse sentence with
  | error e =>
    rw [hparse] at hread
    cases hread
  | ok P =>
    rw [hparse] at hread
    simp only [Except.toOption, Option.any_some, Bool.and_eq_true, beq_iff_eq,
      List.length_eq_one_iff] at hread
    obtain ⟨⟨hstatements, fn, hfn⟩, hall⟩ := hread
    simp only [hfn, List.all_cons, List.all_nil, Bool.and_true, Bool.and_eq_true,
      decide_eq_true_eq] at hall
    obtain ⟨d, hsplit, htargets, hstrings, rfl⟩ := ((parse_eq_ok_iff sentence hscan).1 P).mp hparse
    exact ⟨d, hsplit, htargets, hstrings, hstatements, fn, hfn, hall⟩

end FlatScope
