import FlatScope.Proofs.Grammar.Parse
import FlatScope.Proofs.Grammar.Viable
import FlatScope.Parser.Report

/-!
# Where the grammar refuses a source

A source that the grammar does not derive is refused at the first place where no program goes on
like it (`Stuck`), and the diagnostic has the line and the column of this place
(`parseFile_refused`): the tokens in front of it are the beginning of a program, and either they are
not with the token that stands there, or it is the last token and the program is not complete, or
nothing matches there.

Every source is read or reported as one that the grammar does not derive or as one with another
fault, but for those with an integer that is too long (`parseFile_answers`).
-/

namespace FlatScope

open Grammar
open FlatScope.Parser (SyntaxError run step parseFile)

/-- The tokens with which a source begins are of terminals of the grammar. -/
theorem Begins.known {p q : Position} {s r : Text} {ts : List Token} (h : Begins p s ts q r) :
    ∀ t ∈ ts, Known t.terminal := by
  intro t ht
  obtain ⟨before, after, rfl⟩ := List.append_of_mem ht
  obtain ⟨rest, _, hl, _⟩ := h.cut
  exact hl.holds.known

/-! ## Errors -/

/-- What keeps a source, of which `r` is left, from being a program. -/
inductive Stuck (source r : Text) : SyntaxError → Prop
  /-- The tokens before are the beginning of a program, and are not with the one that comes. -/
  | unexpected {before : List Token} {t : Token} {rest : Text} : r = t.text ++ rest →
      Begins .origin source before t.extent.start r → Longest (some t.terminal) t.text rest →
      Viable before → ¬ Viable (before ++ [t]) → Stuck source r (.unexpected t)
  /-- All tokens, of which the last is left, are the beginning of a program and are no program. -/
  | unexpectedEnd {before : List Token} {t : Token} {rest : Text} : r = t.text ++ rest →
      Begins .origin source before t.extent.start r → Splits .origin source (before ++ [t]) →
      Viable (before ++ [t]) → (∀ d : ProgramTree, d.tokens ≠ before ++ [t]) →
      Stuck source r (.unexpectedEnd t.extent.start)
  /-- The tokens before are the beginning of a program, and no terminal matches, nor white space
      or a comment. -/
  | noTerminal {before : List Token} {c : CodePoint} {place : Position} : r.head? = some c →
      Begins .origin source before place r → (∀ k t, Matches k t → ¬ t <+: r) → Viable before →
      Stuck source r (.noTerminal c place)

/-- Tokens that are read and end too early are no program; there are some, and the error is at the
    last of them. -/
theorem exists_of_unexpectedEnd {s : Parser.State} {ts : List Token} {e : SyntaxError}
    (hrun : run .initial ts = .ok s) (h : Parser.parseTokens ts .finished = .error e)
    (hfault : ∀ fault place, e ≠ .fault fault place) :
    (∀ d : ProgramTree, d.tokens ≠ ts) ∧
      ∃ before t, ts = before ++ [t] ∧ e = .unexpectedEnd t.extent.start := by
  have hno : ∀ d : ProgramTree, d.tokens ≠ ts := by
    rintro d rfl
    rw [d.parseTokens_eq] at h
    split at h
    case h_1 => cases h
    case h_2 => cases h; exact hfault _ _ rfl
  have hend : e = .unexpectedEnd (Parser.lastStart ts) := by
    rw [Parser.parseTokens, hrun] at h
    dsimp only [bind, Except.bind] at h
    split at h
    case h_1 => cases h; rfl
    case h_2 =>
      split at h
      case h_1 => cases h; exact absurd rfl (hfault _ _)
      case h_2 => cases h
  refine ⟨hno, ?_⟩
  -- the empty program has no tokens
  have hne : ts ≠ [] := fun hnil => hno [] hnil.symm
  refine ⟨ts.dropLast, ts.getLast hne, (List.dropLast_concat_getLast hne).symm, ?_⟩
  rw [hend, Parser.lastStart, List.getLast?_eq_some_getLast hne]
  rfl

/-- An error that is no fault keeps the source from being a program where it is reported. -/
theorem stuck_of_parse {source : Text} {e : SyntaxError} (h : Parser.parse source = .error e)
    (hfault : ∀ fault place, e ≠ .fault fault place) : ∃ r, Stuck source r e := by
  obtain ⟨ts, stop, hscan⟩ : ∃ ts stop, Token.scan source = (ts, stop) := ⟨_, _, rfl⟩
  obtain ⟨q, r, hbegins, hstop⟩ := begins_of_scan hscan
  replace h : Parser.parseTokens ts stop = .error e := by rwa [Parser.parse, hscan] at h
  cases hrun : run .initial ts with
  | error e' =>
    obtain ⟨before, t, after, s', rfl, hbefore, hnone, rfl⟩ := exists_of_run_error hrun
    rw [Parser.parseTokens, hrun] at h
    cases h
    obtain ⟨rest, hcut, hl, -⟩ := hbegins.cut
    have hknown : ∀ t' ∈ before ++ [t], Known t'.terminal := by
      intro t' ht'
      rcases List.mem_append.mp ht' with ht' | ht'
      · exact hcut.known t' ht'
      · rw [List.mem_singleton.mp ht']
        exact hl.holds.known
    exact ⟨_, .unexpected rfl hcut hl (viable_of_run hcut.known hbefore)
      ((step_eq_none_iff hknown hbefore).mp hnone)⟩
  | ok s =>
    have hviable := viable_of_run hbegins.known hrun
    cases stop with
    | noTerminal c place =>
      rw [Parser.parseTokens, hrun] at h
      cases h
      obtain ⟨rfl, hhead, hnothing⟩ := hstop
      exact ⟨r, .noTerminal hhead hbegins hnothing hviable⟩
    | finished =>
      obtain rfl : r = [] := hstop
      obtain ⟨hno, before, t, rfl, rfl⟩ := exists_of_unexpectedEnd hrun h hfault
      obtain ⟨rest, hcut, -, -⟩ := hbegins.cut
      exact ⟨_, .unexpectedEnd rfl hcut hbegins.splits hviable hno⟩

/-! ## Diagnostics -/

theorem parseFile_eq_error {source : Text} {file : Option Text} {e : SyntaxError} :
    parseFile source file = .error e ↔ Parser.parse source = .error e := by
  unfold parseFile
  cases Parser.parse source with
  | error e' =>
    exact ⟨fun h => congrArg _ (Except.error.inj h), fun h => congrArg _ (Except.error.inj h)⟩
  | ok => exact ⟨nofun, nofun⟩

/-- A fault is reported with a code of its own, but for an integer that is too long, which is not
    reported. -/
theorem diagnostic?_fault (file : Option Text) (fault : Parser.Fault) (place : Extent) :
    (∃ n, fault = .literal (.tooLong n)) ∨
      ∃ d, (SyntaxError.fault fault place).diagnostic? file = some d ∧
        d.code = some (Text.ofString "E0002") ∧ d.phase = some (Text.ofString "parser") ∧
        d.span = .ofExtent file place := by
  cases fault with
  | target => exact .inr ⟨_, rfl, rfl, rfl, rfl⟩
  | literal fault =>
    cases fault with
    | tooLong n => exact .inl ⟨n, rfl⟩
    | outOfRange | malformed => exact .inr ⟨_, rfl, rfl, rfl, rfl⟩

/-- What keeps a source from being a program is reported as an error of the grammar, at the place
    where the source is left. -/
theorem Stuck.diagnostic? {source r : Text} {e : SyntaxError} (h : Stuck source r e)
    (file : Option Text) : ∃ d q ts, e.diagnostic? file = some d ∧
      d.code = some (Text.ofString "E0001") ∧ d.phase = some (Text.ofString "parser") ∧
      d.span = .ofPosition file q ∧ Begins .origin source ts q r := by
  cases h with
  | unexpected _ hbegins | unexpectedEnd _ hbegins | noTerminal _ hbegins =>
    exact ⟨_, _, _, rfl, rfl, rfl, rfl, hbegins⟩

/-- What is reported as an error of the grammar keeps the source from being a program, at the line
    and column that the diagnostic gives. -/
theorem parseFile_refused {source : Text} {file : Option Text} {e : SyntaxError} {d : Diagnostic}
    (h : parseFile source file = .error e) (hd : e.diagnostic? file = some d)
    (hcode : d.code = some (Text.ofString "E0001")) :
    ∃ u r, source = u ++ r ∧ Stuck source r e ∧
      d.span.line = some (u.line : Int) ∧ d.span.column = some (u.column : Int) := by
  have hfault : ∀ fault place, e ≠ .fault fault place := by
    rintro fault place rfl
    rcases diagnostic?_fault file fault place with ⟨n, rfl⟩ | ⟨d', hd', hcode', _⟩
    · cases hd
    · obtain rfl : d = d' := Option.some.inj (hd.symm.trans hd')
      exact absurd (hcode.symm.trans hcode') (by decide)
  obtain ⟨r, hstuck⟩ := stuck_of_parse (parseFile_eq_error.mp h) hfault
  obtain ⟨d', q, ts, hd', -, -, hspan, hbegins⟩ := hstuck.diagnostic? file
  obtain ⟨u, hu, rfl⟩ := hbegins.consumed
  obtain rfl : d = d' := Option.some.inj (hd.symm.trans hd')
  rw [hspan, Position.after_origin]
  exact ⟨u, r, hu, hstuck, rfl, rfl⟩

/-- The theorem for a token that cannot come behind a tab, a code point beyond the first plane and
    a line feed in a string. -/
theorem parseFile_refused_of :
    ∃ u r, Text.ofString "\t'😀\n' of;" = u ++ r ∧
      Stuck (Text.ofString "\t'😀\n' of;") r (.unexpected ⟨.kwOf, "of", ⟨⟨2, 3⟩, ⟨2, 5⟩⟩⟩) ∧
      u.line = 2 ∧ u.column = 3 := by
  have herror : parseFile (Text.ofString "\t'😀\n' of;") none =
      .error (.unexpected ⟨.kwOf, "of", ⟨⟨2, 3⟩, ⟨2, 5⟩⟩⟩) := rfl
  obtain ⟨u, r, hu, hstuck, hline, hcolumn⟩ := parseFile_refused herror rfl rfl
  refine ⟨u, r, hu, hstuck, ?_, ?_⟩
  · exact (Int.ofNat.inj (Option.some.inj hline)).symm
  · exact (Int.ofNat.inj (Option.some.inj hcolumn)).symm

/-- Every source is read, or reported with a code and a place, as one that the grammar does not
    derive or as one that it derives; but one that it derives may hold an integer that is too long,
    and is not reported then. -/
theorem parseFile_answers (source : Text) (file : Option Text) :
    (∃ P, parseFile source file = .ok P) ∨
    (∃ e d, parseFile source file = .error e ∧ e.diagnostic? file = some d ∧
      d.phase = some (Text.ofString "parser") ∧ d.span.line.isSome ∧ d.span.column.isSome ∧
      (d.code = some (Text.ofString "E0001") ∧
          (¬ ∃ p : ProgramTree, Splits .origin source p.tokens) ∨
        d.code = some (Text.ofString "E0002") ∧
          ∃ p : ProgramTree, Splits .origin source p.tokens)) ∨
    ∃ n place, parseFile source file = .error (.fault (.literal (.tooLong n)) place) ∧
      digitLimit < n ∧ ∃ p : ProgramTree, Splits .origin source p.tokens := by
  cases hparse : Parser.parse source with
  | ok P => exact .inl ⟨P.map (Span.ofExtent file), by rw [parseFile, hparse]; rfl⟩
  | error e =>
    have hfile : parseFile source file = .error e := parseFile_eq_error.mpr hparse
    by_cases hderives : ∃ p : ProgramTree, Splits .origin source p.tokens
    · obtain ⟨p, hp⟩ := hderives
      have hread := parse_of_derivation hp
      rw [hparse] at hread
      cases hfaults : p.faults.head? with
      | none => rw [hfaults] at hread; cases hread
      | some f =>
        obtain ⟨fault, place⟩ := f
        rw [hfaults] at hread
        cases hread
        rcases diagnostic?_fault file fault place with ⟨n, rfl⟩ | ⟨d, hd, hcode, hphase, hspan⟩
        · exact .inr (.inr ⟨n, place, hfile,
            ProgramTree.digitLimit_lt_of_mem_faults (List.mem_of_mem_head? hfaults), p, hp⟩)
        · exact .inr (.inl ⟨_, d, hfile, hd, hphase, by rw [hspan]; rfl, by rw [hspan]; rfl,
            .inr ⟨hcode, p, hp⟩⟩)
    · have hfault : ∀ fault place, e ≠ .fault fault place := by
        rintro fault place rfl
        exact hderives (exists_of_parse fun e he => ⟨fault, place, by
          rw [hparse] at he; exact (Except.error.inj he).symm⟩)
      obtain ⟨r, hstuck⟩ := stuck_of_parse hparse hfault
      obtain ⟨d, q, ts, hd, hcode, hphase, hspan, -⟩ := hstuck.diagnostic? file
      exact .inr (.inl ⟨e, d, hfile, hd, hphase, by rw [hspan]; rfl, by rw [hspan]; rfl,
        .inl ⟨hcode, hderives⟩⟩)

end FlatScope
