import FlatScope.Proofs.Printing.Printed

/-!
# Printing and reading

Reading what was printed gives the program back, up to marks (`parse_format`), and as the printer
looks at no marks, printing it again gives the same text.
-/

namespace FlatScope

open Grammar
open Printer

/-! ## Programs -/

/-- A printed function derives itself, whatever comes next. -/
theorem FunctionDef.reads {fn : FunctionDef Extent} (h : ∀ n ∈ fn.nodes, n.Printable) :
    Reads fn.format Anything (DerivesFunction fn) := by
  simp only [FunctionDef.nodes, List.forall_mem_cons] at h
  have hword : Reads "function " Anything (Single .kwFunction "function") :=
    reads_word (w := "function") (by decide)
  have hname := (hword.andThen (.name h.1.1.1)).stop reads_leftParen fun _ => .cons rfl _
  have hlead := (hname.andThen (reads_names h.1.1.2)).stop reads_closing fun _ => .cons rfl _
  exact (hlead.braced (fn.body.reads 1 h.2)).mono fun _ hts => .mk hts

/-- Printed functions, one after the other and before some statements, derive themselves. -/
theorem reads_functions {m : List Text} {ss : List (Stmt Extent)}
    (hmain : Reads (Text.join "\n\n" m) Anything (DerivesProgram [] ss))
    {fns : List (FunctionDef Extent)} (h : ∀ fn ∈ fns, ∀ n ∈ fn.nodes, n.Printable) :
    Reads (Text.join "\n\n" (fns.map FunctionDef.format ++ m)) Anything
      (DerivesProgram fns ss) := by
  induction fns with
  | nil => exact hmain
  | cons fn fns ih =>
    have hfn : Reads (Text.join "\n\n" [fn.format]) Anything (DerivesFunction fn) :=
      FunctionDef.reads (h fn List.mem_cons_self)
    have hrest := ih fun g hg => h g (List.mem_cons_of_mem fn hg)
    exact (Reads.join_append (by decide) hfn hrest).mono fun _ hts => .function hts

/-- A printed program derives itself. -/
theorem Program.reads {P : Program Extent} (h : ∀ n ∈ P.nodes, n.Printable) :
    Reads P.format Anything (DerivesProgram P.functions P.statements) := by
  obtain ⟨fns, ss⟩ := P
  simp only [Program.nodes, List.forall_mem_append, List.forall_mem_flatMap] at h
  have hstatements := (Stmt.readsList ss 0 h.2).mono fun ts hts => DerivesProgram.statements hts
  have hblank := Reads.blank (t := "\n") (by decide)
  have hend : ∀ {t L}, Reads t Anything L → Reads (t ++ "\n") Anything L := fun ht =>
    (ht.andThen hblank).mono fun ts hts => by
      obtain ⟨a, b, ha, rfl, rfl⟩ := hts
      rwa [List.append_nil]
  cases ss with
  | nil => exact hend (reads_functions (m := []) hstatements h.1)
  | cons s ss => exact hend (reads_functions (m := [_]) hstatements h.1)

/-! ## Marks -/

section Marks

variable {α β : Type} (f : α → β)

/-- How strongly an expression binds does not depend on its marks. -/
theorem Expr.precedence_map (e : Expr α) : (e.map f).precedence = e.precedence := by
  cases e with
  | signal _ _ v => cases v <;> rfl
  | _ => rfl

/-- Whether an expression is a function does not depend on its marks. -/
theorem Expr.isFunction_map (e : Expr α) : (e.map f).isFunction = e.isFunction := by
  cases e with
  | signal _ _ v => cases v <;> rfl
  | _ => rfl

/-- A printed loop: the header in front of the braces of the body. -/
theorem Stmt.format_loop {a : α} {h : Header α} (hh : ∀ a n, h ≠ .unknown a n) (b : Block α)
    (level : Nat) : (Stmt.loop a h b).format level =
      braced (pad level ++ h.format level) (b.formatLines (level + 1)) level := by
  cases h with
  | unknown => exact absurd rfl (hh _ _)
  | _ => rfl

/-- A header does not become unknown. -/
theorem Header.map_ne_unknown {h : Header α} (hh : ∀ a n, h ≠ .unknown a n) (a : β) (n : Text) :
    h.map f ≠ .unknown a n := by
  cases h with
  | unknown => exact absurd rfl (hh _ _)
  | counting => rw [Header.map_counting]; exact nofun
  | _ => exact nofun

/-- A loop is printed alike if its header and its body are. -/
theorem Stmt.format_loop_map (a : α) {h : Header α} {b : Block α} {level : Nat}
    (hh : (h.map f).format level = h.format level)
    (hb : (b.map f).formatLines (level + 1) = b.formatLines (level + 1)) :
    ((Stmt.loop a h b).map f).format level = (Stmt.loop a h b).format level := by
  by_cases hu : ∃ a n, h = .unknown a n
  · obtain ⟨a', n, rfl⟩ := hu
    rfl
  · have hne : ∀ a n, h ≠ .unknown a n := fun a n heq => hu ⟨a, n, heq⟩
    rw [Stmt.map, Stmt.format_loop (Header.map_ne_unknown f hne), Stmt.format_loop hne, hh, hb]

/-- What became an `if` was one. -/
theorem Stmt.eq_branch_of_map {s : Stmt α} {a : β} {c : Expr β} {t : Block β} {o : Option (Block β)}
    (h : s.map f = .branch a c t o) : ∃ a c t o, s = .branch a c t o := by
  cases s with
  | branch => exact ⟨_, _, _, _, rfl⟩
  | declaration _ _ _ v | ret _ v => cases v <;> cases h
  | _ => cases h

/-- An `else` with a single statement is printed alike if the statement is: an `if` among it as a
    further branch, anything else in braces. -/
theorem Block.formatElse_map_single (k : α) {s : Stmt α} {level : Nat}
    (hs : (s.map f).format (level + 1) = s.format (level + 1))
    (hbranch : ∀ a c t o, s = .branch a c t o →
      ∀ lead, branchLines level lead (c.map f) (t.map f) (o.map (Block.map f)) =
        branchLines level lead c t o) :
    ((Block.mk k [s]).map f).formatElse level = (Block.mk k [s]).formatElse level := by
  simp only [Block.map, Stmt.mapList]
  by_cases h : ∃ a c t o, s = .branch a c t o
  · obtain ⟨a, c, t, o, rfl⟩ := h
    rw [Stmt.map_branch, Block.formatElse_branch, Block.formatElse_branch, hbranch _ _ _ _ rfl]
  · have hne : ∀ a c t o, (Block.mk k [s]).statements ≠ [.branch a c t o] := fun a c t o heq =>
      h ⟨a, c, t, o, List.head_eq_of_cons_eq heq⟩
    have hne' : ∀ a c t o, (Block.mk (f k) [s.map f]).statements ≠ [.branch a c t o] :=
      fun a c t o heq => h (Stmt.eq_branch_of_map f (List.head_eq_of_cons_eq heq))
    rw [Block.formatElse_block hne, Block.formatElse_block hne']
    simp only [Block.formatLines, Stmt.formatList, hs]

mutual

/-- An expression is printed alike whatever its marks are. -/
theorem Expr.format_map : ∀ (e : Expr α) (level : Nat), (e.map f).format level = e.format level
  | .literal .., _ | .name .., _ | .unknown .., _ => rfl
  | .unary _ _ e, level => by
    simp only [Expr.map, Expr.format, Expr.precedence_map, e.format_map level]
  | .binary _ _ l r, level => by
    simp only [Expr.map, Expr.format, Expr.precedence_map, l.format_map level, r.format_map level]
  | .call _ g args, level => by
    simp only [Expr.map, Expr.format, Expr.precedence_map, g.format_map level,
      Expr.formatList_map args level]
  | .array _ es, level => by simp only [Expr.map, Expr.format, Expr.formatList_map es level]
  | .index _ b i, level => by
    simp only [Expr.map, Expr.format, Expr.precedence_map, b.format_map level, i.format_map level]
  | .function _ _ b, level => by simp only [Expr.map, Expr.format, b.formatLines_map (level + 1)]
  | .signal _ (some .ret) none, _ | .signal _ none none, _ | .signal _ (some .brk) none, _
  | .signal _ (some .cont) none, _ | .signal _ none (some _), _ | .signal _ (some .brk) (some _), _
  | .signal _ (some .cont) (some _), _ => rfl
  | .signal _ (some .ret) (some e), level => by
    simp only [Expr.map, Expr.format, e.format_map level]
  | .signalIs _ s _, level => by simp only [Expr.map, Expr.format, s.format_map level]
  | .signalValue _ s, level => by simp only [Expr.map, Expr.format, s.format_map level]

/-- Expressions are printed alike whatever their marks are. -/
theorem Expr.formatList_map : ∀ (es : List (Expr α)) (level : Nat),
    Expr.formatList level (Expr.mapList f es) = Expr.formatList level es
  | [], _ => rfl
  | e :: es, level => by
    simp only [Expr.mapList, Expr.formatList, e.format_map level, Expr.formatList_map es level]

/-- The lines of a block do not depend on its marks. -/
theorem Block.formatLines_map : ∀ (b : Block α) (level : Nat),
    (b.map f).formatLines level = b.formatLines level
  | .mk _ ss, level => by
    simp only [Block.map, Block.formatLines, Stmt.formatList_map ss level]

/-- Statements are printed alike whatever their marks are. -/
theorem Stmt.formatList_map : ∀ (ss : List (Stmt α)) (level : Nat),
    Stmt.formatList level (Stmt.mapList f ss) = Stmt.formatList level ss
  | [], _ => rfl
  | s :: ss, level => by
    simp only [Stmt.mapList, Stmt.formatList, (s.format_map level).1, Stmt.formatList_map ss level]

/-- A statement is printed alike whatever its marks are, and so is an `if` behind an `else`. -/
theorem Stmt.format_map : ∀ (s : Stmt α) (level : Nat),
    (s.map f).format level = s.format level ∧
    ∀ a c t o, s = .branch a c t o →
      ∀ lead, branchLines level lead (c.map f) (t.map f) (o.map (Block.map f)) =
        branchLines level lead c t o
  | .declaration _ _ _ none, _ | .ret _ none, _ | .brk _, _ | .cont _, _ | .unknown .., _ =>
    ⟨rfl, nofun⟩
  | .declaration _ _ _ (some e), level =>
    ⟨by simp only [Stmt.map, Stmt.format, e.format_map level], nofun⟩
  | .assignment _ t v, level =>
    ⟨by simp only [Stmt.map, Stmt.format, t.format_map level, v.format_map level], nofun⟩
  | .expression _ e, level =>
    ⟨by simp only [Stmt.map, Stmt.format, e.format_map level, Expr.isFunction_map], nofun⟩
  | .ret _ (some e), level => ⟨by simp only [Stmt.map, Stmt.format, e.format_map level], nofun⟩
  | .block b, level =>
    ⟨by simp only [Stmt.map, Stmt.format, b.formatLines_map (level + 1)], nofun⟩
  | .branch a c t o, level => by
    have hbranch : ∀ lead, branchLines level lead (c.map f) (t.map f) (o.map (Block.map f)) =
        branchLines level lead c t o := by
      intro lead
      rw [branchLines, branchLines, c.format_map level, t.formatLines_map (level + 1),
        Block.formatElse_map o level]
    refine ⟨?_, fun a' c' t' o' h => ?_⟩
    · rw [Stmt.map_branch, Stmt.format_branch, Stmt.format_branch, hbranch]
    · cases h
      exact hbranch
  | .loop a h b, level =>
    ⟨Stmt.format_loop_map f a (h.format_map level) (b.formatLines_map (level + 1)), nofun⟩

/-- An `else` is printed alike whatever its marks are. -/
theorem Block.formatElse_map : ∀ (o : Option (Block α)) (level : Nat),
    (o.map (Block.map f)).elim [] (Block.formatElse level) = o.elim [] (Block.formatElse level)
  | none, _ => rfl
  | some (.mk _ []), level => rfl
  | some (.mk k [s]), level => by
    have hs := s.format_map (level + 1)
    have hs' := s.format_map level
    exact Block.formatElse_map_single f k hs.1 hs'.2
  | some (.mk k (s :: s' :: ss)), level => by
    have hs := s.format_map (level + 1)
    have hs' := s'.format_map (level + 1)
    have hss := Stmt.formatList_map ss (level + 1)
    simp only [Option.map_some, Option.elim_some, Block.map, Stmt.mapList]
    have hne : ∀ {γ} {k : γ} {s s' : Stmt γ} {ss : List (Stmt γ)} (a c t o),
        (Block.mk k (s :: s' :: ss)).statements ≠ [.branch a c t o] := fun _ _ _ _ heq =>
      nomatch (List.cons_eq_cons.mp heq).2
    rw [Block.formatElse_block hne, Block.formatElse_block hne]
    simp only [Block.formatLines, Stmt.formatList, hs.1, hs'.1, hss]

/-- A clause of a `for` is printed alike whatever its marks are. -/
theorem Stmt.formatClause_map : ∀ (s : Stmt α) (level : Nat),
    (s.map f).formatClause level = s.formatClause level
  | .declaration _ _ _ none, _ => rfl
  | .declaration _ _ _ (some e), level => by
    simp only [Stmt.map, Stmt.formatClause, e.format_map level]
  | .assignment _ t v, level => by
    simp only [Stmt.map, Stmt.formatClause, t.format_map level, v.format_map level]
  | .expression _ e, level => by
    simp only [Stmt.map, Stmt.formatClause, e.format_map level, Expr.isFunction_map]
  | .ret .., _ | .brk _, _ | .cont _, _ | .block .., _ | .branch .., _ | .loop .., _
  | .unknown .., _ => rfl

/-- A clause of a `for`, if there is one, is printed alike. -/
theorem Stmt.formatClause_mapOption : ∀ (o : Option (Stmt α)) (level : Nat),
    (o.map (Stmt.map f)).elim [] (Stmt.formatClause level) = o.elim [] (Stmt.formatClause level)
  | none, _ => rfl
  | some s, level => s.formatClause_map level

/-- The condition of a `for`, if there is one, is printed alike. -/
theorem Expr.format_mapOption : ∀ (o : Option (Expr α)) (level : Nat),
    (o.map (Expr.map f)).elim [] (Expr.format level) = o.elim [] (Expr.format level)
  | none, _ => rfl
  | some e, level => e.format_map level

/-- The header of a loop is printed alike whatever its marks are. -/
theorem Header.format_map : ∀ (h : Header α) (level : Nat), (h.map f).format level = h.format level
  | .whileTrue _ c, level => by simp only [Header.map, Header.format, c.format_map level]
  | .counting _ i c u, level => by
    rw [Header.map_counting, Header.format_counting, Header.format_counting,
      Stmt.formatClause_mapOption i level, Expr.format_mapOption c level,
      Stmt.formatClause_mapOption u level]
  | .forOf _ _ _ e, level => by simp only [Header.map, Header.format, e.format_map level]
  | .unknown .., _ => rfl

end

end Marks

/-- The text of a program shows no marks. -/
theorem Program.format_map {α β : Type} (f : α → β) (P : Program α) :
    (P.map f).format = P.format := by
  obtain ⟨fns, ss⟩ := P
  have hfn : ∀ fn : FunctionDef α, (fn.map f).format = fn.format := by
    intro fn
    simp only [FunctionDef.format, FunctionDef.map, Block.formatLines_map]
  have hss := Stmt.formatList_map f ss 0
  unfold Program.format
  simp only [Program.map, List.map_map]
  rw [show FunctionDef.format ∘ FunctionDef.map f = FunctionDef.format from funext hfn]
  cases ss with
  | nil => rfl
  | cons s ss =>
    simp only [Stmt.mapList] at hss ⊢
    rw [hss]

/-! ## The round trip -/

/-- A program that was read, none of whose doubles needs an exponent, is printed as a text that is
    read as the same program, and printed the same again. -/
theorem parse_format {source : Text} {P : Program Extent} (h : Parser.parse source = .ok P)
    (hplain : ∀ a d, .expr (.literal a (.number (.double d))) ∈ P.nodes → IsPlainDecimal d.text) :
    ∃ Q, Parser.parse P.format = .ok Q ∧ Q.map (fun _ => ()) = P.map (fun _ => ()) ∧
      Q.format = P.format := by
  have hprintable : ∀ n ∈ P.nodes, n.Printable := fun n hn =>
    ⟨legible_of_parse h n hn, fun a d heq => hplain a d (heq ▸ hn)⟩
  obtain ⟨_, ⟨d, rfl, hf, hd⟩, hsplit⟩ := Program.reads hprintable .origin [] trivial
  have hsplits := hsplit [] .nil
  rw [List.append_nil, List.append_nil] at hsplits
  refine ⟨d.denote, parse_iff_denote.mpr ⟨d, hsplits, hf, rfl⟩, hd, ?_⟩
  rw [← Program.format_map (fun _ => ()) d.denote, ← Program.format_map (fun _ => ()) P]
  exact congrArg Program.format hd

/-- The theorem for a text with one double. -/
theorem parse_format_half :
    ∃ P Q, Parser.parse (Text.ofString "x = 0.5;") = .ok P ∧ Parser.parse P.format = .ok Q ∧
      Q.map (fun _ => ()) = P.map (fun _ => ()) := by
  have hparse : Parser.parse (Text.ofString "x = 0.5;") =
      .ok ⟨[], [.assignment ⟨⟨1, 1⟩, ⟨1, 8⟩⟩ (.name ⟨⟨1, 1⟩, ⟨1, 2⟩⟩ "x")
        (.literal ⟨⟨1, 5⟩, ⟨1, 8⟩⟩ (.number (.double (Text.scaled false [0, 5] (-1)))))]⟩ := by rfl
  have hhalf : (Text.scaled false [0, 5] (-1)).text = "0.5" := by decide +kernel
  obtain ⟨Q, hQ, hmap, -⟩ := parse_format hparse (by
    intro a d h
    simp only [Program.nodes, Stmt.nodesOfList, Stmt.nodes, Expr.nodes, List.flatMap_nil,
      List.nil_append, List.cons_append, List.append_nil, List.mem_cons, List.not_mem_nil, or_false,
      reduceCtorEq, false_or, Node.expr.injEq, Expr.literal.injEq, Literal.number.injEq,
      Number.double.injEq] at h
    rw [h.2, hhalf]
    exact ⟨"0", "5", by decide, by decide, by decide, by decide⟩)
  exact ⟨_, Q, hparse, hQ, hmap⟩

end FlatScope
