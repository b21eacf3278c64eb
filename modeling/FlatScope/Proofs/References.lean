import FlatScope.Parser.Report
import FlatScope.Proofs.Grammar.Legible
import FlatScope.Proofs.Nodes
import FlatScope.Proofs.Scope.Performed
import FlatScope.Scope.Usage

/-!
# References and the text of the source

What is found out about the names of a function that was read points at its source
(`parseFile_points`): the extent of a reference holds the name of the reference, and where a name is
refused as declared nowhere, or a constant as assigned to, the source goes on with that name.

The rules of the grammar put names of tokens at the extents of these tokens (`Grammar.Built`), and a
token has the text that stands at its extent (`Splits.text_at`). Marks are changed one by one when a
program gets its file and its numbers (`Program.nodes_map`), so the names in a numbered function are
where its marks say. And names come into the resolution only by the acts that resolve them
(`FunctionDef.shown_refers`): it records nothing else as references (`Scoping.Records`), and refuses
no other names as declared nowhere (`Resolve.Act.refuses_unresolved`).
-/

namespace FlatScope

open Grammar Resolve

/-! ## Names at their places -/

/-- The text stands in the source at the given extent. -/
def Text.Shows (source : Text) (e : Extent) (t : Text) : Prop :=
  source.piece e = t ∧ t <+: source.startingAt e.start

theorem Splits.shows {source : Text} {ts : List Token} {t : Token} (h : Splits .origin source ts)
    (ht : t ∈ ts) : source.Shows t.extent t.text := by
  obtain ⟨u, v, rfl, hextent⟩ := h.text_at ht
  rw [hextent]
  refine ⟨Text.piece_after u t.text v, ?_⟩
  rw [List.append_assoc, Text.startingAt_after]
  exact List.prefix_append t.text v

/-- A node that uses a name stands where the source has the name. -/
def Node.Shown (source : Text) (file : Option Text) : Node Span → Prop
  | .expr (.name a n) | .header (.forOf a n _ _) => ∃ e, a = .ofExtent file e ∧ source.Shows e n
  | _ => True

/-- The nodes that rules make of tokens that stand in the source. -/
theorem Grammar.Built.shown {source : Text} {file : Option Text} {fit : Expr Extent → Prop}
    {x : Node Extent} (h : Built (fun t => source.Shows t.extent t.text) fit x) :
    (x.map (Span.ofExtent file)).Shown source file := by
  cases h with
  | name h => exact ⟨_, rfl, h⟩
  | forOf h => exact ⟨_, rfl, h⟩
  | _ => trivial

theorem Program.nodes_map {α β : Type} (f : α → β) (P : Program α) :
    (P.map f).nodes = P.nodes.map (Node.map f) := by
  simp only [nodes, map, List.map_append, Stmt.nodesOfList_map, List.flatMap_map, List.map_flatMap,
    FunctionDef.nodes_map]

/-- The names in a program that was read stand where their nodes say. -/
theorem shown_of_parseFile {source : Text} {file : Option Text} {P : Program Span}
    (h : Parser.parseFile source file = .ok P) : ∀ x ∈ P.nodes, x.Shown source file := by
  unfold Parser.parseFile at h
  cases hparse : Parser.parse source with
  | error => rw [hparse] at h; cases h
  | ok Q =>
    rw [hparse] at h
    cases h
    obtain ⟨ts, hsplit, hbuilt⟩ := built_of_parse hparse
    rw [Program.nodes_map, List.forall_mem_map]
    exact fun x hx => (hbuilt _ (fun t ht _ => hsplit.shows ht) x hx).shown

/-- The nodes of the functions of a program, and those that its statements form, are those of the
    program. -/
theorem Program.shown_function {source : Text} {file : Option Text} {P : Program Span}
    {fn : FunctionDef Span} (hP : ∀ x ∈ P.nodes, x.Shown source file)
    (hfn : fn ∈ P.functions ∨ fn = P.main .unknown) : ∀ x ∈ fn.nodes, x.Shown source file := by
  simp only [nodes, List.forall_mem_append, List.forall_mem_flatMap] at hP
  rcases hfn with hfn | rfl
  · exact hP.1 fn hfn
  · simp only [main, FunctionDef.nodes, Block.nodes, List.forall_mem_cons]
    exact ⟨trivial, trivial, hP.2⟩

/-- The names that the resolution of a function resolves stand where it says. -/
theorem FunctionDef.shown_refers {source : Text} {file : Option Text} {fn : FunctionDef Span}
    (hfn : ∀ x ∈ fn.nodes, x.Shown source file) {sc : ScopeId} {n : Name} {m : Mark} {w : Bool}
    (h : Act.refers sc n m w ∈ fn.number.acts) :
    ∃ e, m.span = .ofExtent file e ∧ source.Shows e n := by
  obtain ⟨q, hq, huse, -, rfl⟩ := FunctionDef.refers_mem_acts.1 h
  have hmem : q.node.map Mark.span ∈ fn.nodes := by
    have hnodes := FunctionDef.nodes_map Mark.span fn.number
    rw [fn.number_map] at hnodes
    rw [hnodes]
    exact List.mem_map_of_mem (hq.mem_nodes rfl)
  have hshown := hfn _ hmem
  unfold Place.use? at huse
  split at huse
  case h_1 hnode => cases huse; rw [hnode] at hshown ⊢; exact hshown
  case h_2 hnode => cases huse; rw [hnode] at hshown ⊢; exact hshown
  case h_3 hnode => cases huse; rw [hnode] at hshown ⊢; exact hshown
  case h_4 => cases huse

/-! ## What is refused -/

namespace Resolve

variable {α β : Type} {φ : Rejection → Prop} {globals : List Name}

/-- Whatever a step of the resolution refuses, it refuses in one way. -/
def Refuses (φ : Rejection → Prop) (x : Resolve α) : Prop := ∀ a r, x a = .error r → φ r

namespace Refuses

theorem bind {x : Resolve α} {f : α → Resolve β} (hx : Refuses φ x)
    (hf : ∀ y, Refuses φ (f y)) : Refuses φ (x >>= f) := by
  intro a r h
  change (x a).bind _ = _ at h
  cases ha : x a with
  | error e => rw [ha] at h; cases h; exact hx a _ ha
  | ok p => rw [ha] at h; exact hf _ _ _ h

theorem pure (y : α) : Refuses φ (Pure.pure y : Resolve α) := by rintro a r ⟨⟩

theorem get : Refuses φ (MonadState.get : Resolve Scoping) := by rintro a r ⟨⟩

theorem set (a : Scoping) : Refuses φ (MonadState.set a : Resolve Unit) := by
  rintro b r ⟨⟩

theorem modify (f : Scoping → Scoping) : Refuses φ (modifyThe Scoping f : Resolve Unit) := by
  rintro a r ⟨⟩

theorem reject {cause : Cause} {span : Span} (h : φ ⟨cause, span⟩) :
    Refuses φ (Resolve.reject cause span : Resolve α) := by
  rintro a r ⟨⟩
  exact h

theorem forM {xs : List β} {f : β → Resolve Unit} (h : ∀ y ∈ xs, Refuses φ (f y)) :
    Refuses φ (xs.forM f) := by
  induction xs with
  | nil => exact .pure ()
  | cons y xs ih =>
    exact .bind (h y List.mem_cons_self) fun _ => ih fun z hz => h z (List.mem_cons_of_mem y hz)

end Refuses

/-- That a name is declared twice. -/
def IsDuplicate (r : Rejection) : Prop := ∃ n previous, r.cause = .duplicate n previous

theorem declare_refuses (sc : ScopeId) (n : Name) (o : Origin) (span : Span)
    (node : Option NodeId) : Refuses IsDuplicate (declare sc n o span node) := by
  refine .bind .get fun a => ?_
  split
  case h_1 previous _ =>
    split
    case isTrue => exact .set _
    case isFalse => exact .reject ⟨n, previous.span, rfl⟩
  case h_2 => exact .set _

theorem checkVarPath_refuses (sc : ScopeId) (n : Name) (span : Span) :
    Refuses IsDuplicate (checkVarPath sc n span) := by
  refine .bind .get fun a => ?_
  split
  case h_1 b _ => exact .reject ⟨n, b.span, rfl⟩
  case h_2 => exact .pure ()

theorem opens_refuses (f : Enclosure) (parent : Option ScopeId) :
    Refuses IsDuplicate ((Act.opens f parent).perform globals) := by
  refine .bind (.modify _) fun _ => .bind ?_ fun _ => .forM fun i _ => declare_refuses _ _ _ _ _
  unfold Act.noteBlock
  split
  case isTrue => exact .modify _
  case isFalse => exact .pure ()

/-- A name is refused as declared nowhere only by an act that resolves it, at the place of that
    act. -/
theorem Act.refuses_unresolved {x : Act} {past : List Act} (hx : x.Follows past) :
    Refuses (fun r => ∀ n, r.cause = .unresolved n →
      ∃ sc m w, x = .refers sc n m w ∧ r.span = m.span) (x.perform globals) := by
  have hduplicate : ∀ {y : Resolve Unit}, Refuses IsDuplicate y → Refuses (fun r => ∀ n,
      r.cause = .unresolved n → ∃ sc m w, x = .refers sc n m w ∧ r.span = m.span) y := by
    intro y hy a r h n hn
    obtain ⟨n', previous, hr⟩ := hy a r h
    rw [hn] at hr
    cases hr
  cases x with
  | opens f parent => exact hduplicate (opens_refuses f parent)
  | refers sc n m w =>
    refine .bind .get fun a => ?_
    dsimp only
    split
    case isTrue =>
      refine .reject ?_
      rintro _ ⟨⟩
      exact ⟨sc, m, w, rfl, rfl⟩
    case isFalse => exact .set _
  | notes l => exact .modify _
  | checksPath sc n span => exact hduplicate (checkVarPath_refuses sc n span)
  | rejects cause span => exact .reject fun n hn => absurd hn (hx n)

/-- Acts in order follow others. -/
theorem InOrder.follows {past L : List Act} (h : InOrder past L) :
    ∀ x ∈ L, ∃ past, x.Follows past := by
  induction L generalizing past with
  | nil => exact fun x hx => absurd hx List.not_mem_nil
  | cons y L ih =>
    intro x hx
    rcases List.mem_cons.1 hx with rfl | hx
    · exact ⟨past, h.1⟩
    · exact ih h.2 x hx

end Resolve

/-- A name that is refused as declared nowhere is resolved where it is refused. -/
theorem FunctionDef.exists_of_unresolved {fn : FunctionDef Mark} {globals : List Name}
    {r : Rejection} {n : Name} (hacts : InOrder [] fn.acts) (h : fn.resolve globals = .error r)
    (hr : r.cause = .unresolved n) : ∃ sc m w, .refers sc n m w ∈ fn.acts ∧ r.span = m.span := by
  rw [fn.resolve_eq] at h
  have hrefuses : Refuses (fun r => ∀ n, r.cause = .unresolved n →
      ∃ sc m w, .refers sc n m w ∈ fn.acts ∧ r.span = m.span) (performAll globals fn.acts) := by
    refine .forM fun x hx a r h n hn => ?_
    obtain ⟨past, hpast⟩ := hacts.follows x hx
    obtain ⟨sc, m, w, rfl, hspan⟩ := Act.refuses_unresolved hpast a r h n hn
    exact ⟨sc, m, w, hx, hspan⟩
  cases hp : performAll globals fn.acts (.empty fn.mark.id) with
  | error e => rw [hp] at h; cases h; exact hrefuses _ _ hp n hr
  | ok => rw [hp] at h; cases h

/-- The constant that is blamed is assigned to by a reference to its name. -/
theorem Scoping.exists_of_checkConstants {s : Scoping} {r : Rejection}
    (h : s.checkConstants = .error r) : ∃ x ∈ s.references, ∃ b, s.violated? x = some b ∧
      r = ⟨.immutable b.name b.span, x.span⟩ := by
  unfold checkConstants at h
  rw [List.forM_eq_forM] at h
  generalize s.references = xs at h
  induction xs with
  | nil => cases h
  | cons x xs ih =>
    rw [List.forM_cons] at h
    cases hx : s.violated? x with
    | some b =>
      rw [hx] at h
      cases h
      exact ⟨x, List.mem_cons_self, b, hx, rfl⟩
    | none =>
      rw [hx] at h
      obtain ⟨y, hy, hviolated⟩ := ih h
      exact ⟨y, List.mem_cons_of_mem x hy, hviolated⟩

/-- The constant that a reference assigns to has the name of the reference. -/
theorem Scoping.Records.violated?_name {s : Scoping} {globals : List Name} {past : List Act}
    (h : s.Records globals past) {x : Reference} (hx : x ∈ s.references) {b : Binding}
    (hb : s.violated? x = some b) : b.name = x.name := by
  unfold violated? at hb
  split at hb
  case isFalse => cases hb
  case isTrue =>
    obtain ⟨i, hi, hb⟩ := Option.bind_eq_some_iff.1 (Option.filter_eq_some_iff.1 hb).1
    rw [(h.settled x hx).1] at hi
    obtain ⟨d, hd, rfl⟩ := Option.map_eq_some_iff.1 hi
    obtain ⟨hmem, hname, -⟩ := h.consistent.of_lookup? hd
    rw [h.consistent.binding?_of_mem hmem] at hb
    rw [← Option.some.inj hb, hname]

/-! ## Functions of a source -/

/-- Every reference that the resolution of a function of a source records has the extent of its name
    in the source; and where a name is refused as declared nowhere, or a constant of that name as
    assigned to, the source goes on with the name. -/
theorem parseFile_points {source : Text} {file : Option Text} {P : Program Span}
    {fn : FunctionDef Span} (h : Parser.parseFile source file = .ok P)
    (hfn : fn ∈ P.functions ∨ fn = P.main .unknown) (globals : List Name) :
    (∀ s, fn.number.resolve globals = .ok s →
      (∀ r ∈ s.references, ∃ e, r.span = .ofExtent file e ∧ source.piece e = r.name) ∧
      ∀ r n declared, s.checkConstants = .error r → r.cause = .immutable n declared →
        ∃ e, r.span = .ofExtent file e ∧ n <+: source.startingAt e.start) ∧
    ∀ r n, fn.number.resolve globals = .error r → r.cause = .unresolved n →
      ∃ e, r.span = .ofExtent file e ∧ n <+: source.startingAt e.start := by
  have hnodes := Program.shown_function (shown_of_parseFile h) hfn
  refine ⟨fun s hs => ?_, fun r n hr hn => ?_⟩
  · obtain ⟨hrec, -⟩ := FunctionDef.resolve_records (fn.numberFrom_consecutive 1) hs
    have hshown : ∀ r ∈ s.references, ∃ e, r.span = .ofExtent file e ∧ source.Shows e r.name :=
      fun r hr => FunctionDef.shown_refers hnodes (hrec.references r hr)
    refine ⟨fun r hr => ?_, fun r n declared hr hn => ?_⟩
    · obtain ⟨e, hspan, hpiece, -⟩ := hshown r hr
      exact ⟨e, hspan, hpiece⟩
    · obtain ⟨x, hx, b, hb, rfl⟩ := Scoping.exists_of_checkConstants hr
      obtain ⟨e, hspan, -, hstarts⟩ := hshown x hx
      cases hn
      rw [hrec.violated?_name hx hb]
      exact ⟨e, hspan, hstarts⟩
  · obtain ⟨sc, m, w, hact, hspan⟩ := FunctionDef.exists_of_unresolved
      (FunctionDef.acts_inOrder (fn.numberFrom_consecutive 1)) hr hn
    obtain ⟨e, hm, -, hstarts⟩ := FunctionDef.shown_refers hnodes hact
    exact ⟨e, hspan.trans hm, hstarts⟩

/-- A result that was found, with what is known of it. -/
theorem exists_of_toOption_any {ε α : Type} {x : Except ε α} {p : α → Bool}
    (h : x.toOption.any p) : ∃ y, x = .ok y ∧ p y := by
  cases x with
  | error => cases h
  | ok y => exact ⟨y, rfl, h⟩

/-- The cause of a refusal. -/
def cause? {α : Type} : Except Rejection α → Option Cause
  | .ok _ => none
  | .error r => some r.cause

theorem exists_of_cause? {α : Type} {x : Except Rejection α} {c : Cause} (h : cause? x = some c) :
    ∃ r, x = .error r ∧ r.cause = c := by
  cases x with
  | ok => cases h
  | error r => exact ⟨r, rfl, Option.some.inj h⟩

/-- The theorem for names behind a string over two lines with a code point beyond the first plane:
    one in parentheses, one that is declared nowhere, and a constant that is assigned to. -/
theorem parseFile_points_lines :
    (∃ P s, Parser.parseFile "\tvar x = '\n😀'; (x);" none = .ok P ∧
      (P.main .unknown).number.resolve [] = .ok s ∧
      s.references.map (·.name) = [Text.ofString "x"] ∧
      ∀ r ∈ s.references, ∃ e, r.span = .ofExtent none e ∧
        Text.piece "\tvar x = '\n😀'; (x);" e = r.name) ∧
    (∃ P r e, Parser.parseFile "'\n😀' + y;" none = .ok P ∧
      (P.main .unknown).number.resolve [] = .error r ∧ r.cause = .unresolved "y" ∧
      r.span = .ofExtent none e ∧ Text.ofString "y" <+: Text.startingAt "'\n😀' + y;" e.start) ∧
    ∃ P s r declared e, Parser.parseFile "const c = '\n😀'; c = 1;" none = .ok P ∧
      (P.main .unknown).number.resolve [] = .ok s ∧ s.checkConstants = .error r ∧
      r.cause = .immutable "c" declared ∧ r.span = .ofExtent none e ∧
      Text.ofString "c" <+: Text.startingAt "const c = '\n😀'; c = 1;" e.start := by
  refine ⟨?_, ?_, ?_⟩
  · have hok : (Parser.parseFile "\tvar x = '\n😀'; (x);" none).toOption.any fun P =>
        ((P.main .unknown).number.resolve []).toOption.any fun s =>
          s.references.map (·.name) = [Text.ofString "x"] := by
      decide +kernel
    obtain ⟨P, hP, hok⟩ := exists_of_toOption_any hok
    obtain ⟨s, hs, hnames⟩ := exists_of_toOption_any hok
    exact ⟨P, s, hP, hs, by simpa using hnames, ((parseFile_points hP (.inr rfl) []).1 s hs).1⟩
  · have hok : (Parser.parseFile "'\n😀' + y;" none).toOption.any fun P =>
        cause? ((P.main .unknown).number.resolve []) = some (.unresolved "y") := by
      decide +kernel
    obtain ⟨P, hP, hok⟩ := exists_of_toOption_any hok
    obtain ⟨r, hr, hcause⟩ := exists_of_cause? (by simpa using hok)
    obtain ⟨e, hspan, hstarts⟩ := (parseFile_points hP (.inr rfl) []).2 r _ hr hcause
    exact ⟨P, r, e, hP, hr, hcause, hspan, hstarts⟩
  · have hok : (Parser.parseFile "const c = '\n😀'; c = 1;" none).toOption.any fun P =>
        ((P.main .unknown).number.resolve []).toOption.any fun s =>
          cause? s.checkConstants = some
            (.immutable "c" ⟨none, some 1, some 1, some 2, some 3⟩) := by
      decide +kernel
    obtain ⟨P, hP, hok⟩ := exists_of_toOption_any hok
    obtain ⟨s, hs, hok⟩ := exists_of_toOption_any hok
    obtain ⟨r, hr, hcause⟩ := exists_of_cause? (by simpa using hok)
    obtain ⟨e, hspan, hstarts⟩ :=
      ((parseFile_points hP (.inr rfl) []).1 s hs).2 r _ _ hr hcause
    exact ⟨P, s, r, _, e, hP, hs, hr, hcause, hspan, hstarts⟩

end FlatScope
