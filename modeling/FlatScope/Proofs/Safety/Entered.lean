import FlatScope.Proofs.Safety.Pieces

/-!
# Entering functions, blocks and loops

When a well-scoped function, block or loop is entered, a frame is made that stands for its scope, so
what is inside of it is well-scoped in that frame. So is what runs in a copy of the frame of a loop.
-/

namespace FlatScope.Eval.Setting

variable {S : Setting} {s t : Store} {fn : FunctionDef Mark} {a : Scoping} {fs sc : ScopeId}
  {f g : FrameId} {ns : List (Node Mark)} {jumps : Bool}

/-! ## Functions and blocks -/

/-- A call makes a frame in which the statements of the function are well-scoped. -/
theorem Represents.enters {c : Closure} (h : S.Represents s c) (hg : S.Good s) (args : List Value) :
    ∃ fr, callFrame c args = .ok fr ∧ S.Good (s.newFrame fr).2 ∧
      ((∀ fn id, (Task.callClosure c args).Enters fn id → S.Made fn id s.frames.size) →
        c.body.statements = [] ∨
          S.AreStmts (s.newFrame fr).2 false s.frames.size c.body.statements) := by
  cases h with
  | nothing h =>
    subst h
    refine ⟨⟨some globalFrame, []⟩, rfl, hg.newFrame (fun p hp => ?_) fun _ n c hc => ?_,
      fun _ => .inl rfl⟩
    · cases hp
      exact hg.nested.global
    · cases hc
  | @code fn a id b parent known has body opens resolved frame around outermost =>
    have ha := S.consistent known
    obtain ⟨fr, hfr, hp, hopens, hfilled⟩ := callFrame_opens ha opens body.symm args
    refine ⟨fr, hfr, hg.newFrame (fun p hp' => ?_) fun hlv n c hc => ?_, fun hmade => .inr ?_⟩
    · rw [hp] at hp'
      cases hp'
      exact frame
    · have hblock : Node.block b ∈ fn.nodes := has.nodes _ (by cases b; exact List.mem_cons_self)
      exact (hfilled (S.levelly hlv known _ hblock) n c hc).2
    · obtain ⟨m, ss⟩ := b
      refine ⟨fn, a, id, id, ss, ⟨known, fun x hx => has.nodes x (List.mem_cons_of_mem _ hx), ?_⟩,
        resolved, by rw [← body]; rfl⟩
      refine .enter ha opens.scope hopens hp around (fun hn n hgl => ?_)
        (hmade fn id ⟨_, has, body⟩)
      rw [outermost hn]
      exact hg.globals n (S.known known n hgl)

/-- The statements of a block run in a frame in which they are well-scoped. -/
theorem IsBlock.enters {b : Block Span} (h : S.IsBlock s jumps f b) (hg : S.Good s) :
    ∃ inner t, blockFrame b f s = .done inner t ∧ s.Later t ∧ S.Good t ∧
      ((∀ fn id, (Task.block b f).Enters fn id → s.frames.size ≤ inner → S.Made fn id inner) →
        S.AreStmts t jumps inner b.statements) := by
  obtain ⟨fn, a, fs, sc, ⟨m, ss⟩, hh, ⟨ho, hr⟩, rfl⟩ := h
  have ha := S.consistent hh.code
  have hss : S.Holds s fn a sc f (Stmt.nodesOfList ss) := hh.sub fun x hx =>
    List.mem_cons_of_mem _ hx
  have hlex := Block.lexicals_map Mark.span (.mk m ss)
  by_cases hl : (Block.mk m ss).lexicals = []
  · rw [hl, List.map_nil] at hlex
    refine ⟨f, s, by rw [blockFrame, hlex]; rfl, .refl s, hg, fun _ => ?_⟩
    rw [Block.scopeIn, hl] at hr
    exact ⟨fn, a, fs, sc, ss, hss, hr, rfl⟩
  · obtain ⟨fr, hfr, hp, hopens⟩ := blockFrame_opens (f := f) ha ho hl
    have hdone : blockFrame ((Block.mk m ss).map Mark.span) f s =
        .done s.frames.size (s.newFrame fr).2 := by
      rw [blockFrame]
      cases hls : ((Block.mk m ss).map Mark.span).lexicals with
      | nil => exact absurd (List.map_eq_nil_iff.1 (hlex.symm.trans hls)) hl
      | cons l ls =>
        rw [hls] at hfr
        dsimp only
        rw [hfr]
        rfl
    refine ⟨_, _, hdone, .newFrame s fr, hg.newFrame (fun p hp' => ?_) fun hlv => ?_,
      fun hmade => ?_⟩
    · rw [hp] at hp'
      cases hp'
      exact hh.stands.frame
    · exact absurd (S.levelly hlv hh.code _ (hh.nodes _ List.mem_cons_self)) hl
    · rw [Block.scopeIn, if_neg (by simpa using hl)] at hr
      refine ⟨fn, a, fs, m.id, ss, ⟨hh.code, hss.nodes, ?_⟩, hr, rfl⟩
      refine .enter ha (ho.scope hl).2 hopens hp (fun sc' hsc => ?_) (fun hno => by cases hno)
        (hmade fn m.id ⟨_, hh.nodes _ List.mem_cons_self, rfl, rfl⟩ (Nat.le_refl _))
      cases hsc
      exact hh.stands

/-! ## Loops -/

section Loops

variable {m : Mark} {h : Header Mark} {b : Block Mark} {l : Lexical Mark}

/-- A frame for the variable of a loop. -/
theorem Loops.turns (hL : S.Loops s fn a fs sc m h b f) (hg : S.Good s)
    (hl : Resolve.headerLexical? h = some l) {fr : Frame} (hp : fr.parent = some f)
    (hfr : fr.Opens a m.id) :
    S.Good (s.newFrame fr).2 ∧
      (S.Made fn m.id s.frames.size → S.Turns (s.newFrame fr).2 fn a m.id f s.frames.size) := by
  have ha := S.consistent hL.holds.code
  refine ⟨hg.newFrame (fun p hp' => ?_) fun hlv => ?_, fun hmade =>
    ⟨⟨fr, Store.getElem?_newFrame_self, hp, hfr⟩, ?_⟩⟩
  · rw [hp] at hp'
    cases hp'
    exact hL.holds.stands.frame
  · have hnode : Node.header h ∈ fn.nodes := by
      refine (Node.nodes_sublist (x := .function fn) hL.node).subset (List.mem_cons_of_mem _ ?_)
      refine List.mem_append_left _ ?_
      rw [show h.nodes = (Node.header h).nodes from rfl, Node.nodes_eq]
      exact List.mem_cons_self
    have := S.levelly hlv hL.holds.code _ hnode
    rw [Node.Level, hl] at this
    cases this
  · refine .enter ha (hL.opens l hl).1 hfr hp (fun sc' hsc => ?_) nofun hmade
    cases hsc
    exact hL.holds.stands

/-- A copy of the frame of a loop. -/
theorem Turns.copy (hT : S.Turns s fn a m.id f g) (hL : S.Loops s fn a fs sc m h b f)
    (hl : Resolve.headerLexical? h = some l) (hg : S.Good s) :
    s.Later (s.copy g).2 ∧ S.Good (s.copy g).2 ∧
      (S.Made fn m.id s.frames.size → S.Turns (s.copy g).2 fn a m.id f s.frames.size) := by
  obtain ⟨fr, hfr, hp, hopens⟩ := hT.frame
  have hcopy : s.copy g = s.newFrame fr := by rw [Store.copy, hfr]; rfl
  rw [hcopy]
  exact ⟨.newFrame s fr, hL.turns hg hl hp hopens⟩

theorem scopeIn_of_lexical (sc : ScopeId) (hl : Resolve.headerLexical? h = some l) :
    h.scopeIn m.id sc = m.id := by
  rw [Header.scopeIn, hl]
  rfl

/-- The clauses of the header and the body of a loop, in a frame that stands for the scope of the
    header. -/
theorem Loops.inside (hL : S.Loops s fn a fs sc m h b f)
    (hg : s.Stands a (S.Made fn) (h.scopeIn m.id sc) g) {ms : List (Node Mark)}
    (hms : ∀ x ∈ ms, x ∈ h.nodes ∨ x ∈ b.nodes) : S.Holds s fn a (h.scopeIn m.id sc) g ms :=
  ⟨hL.holds.code, fun x hx => (Node.nodes_sublist (x := .function fn) hL.node).subset
    (List.mem_cons_of_mem _ ((hms x hx).elim (List.mem_append_left _) (List.mem_append_right _))),
    hg⟩

theorem Loops.block (hL : S.Loops s fn a fs sc m h b f)
    (hg : s.Stands a (S.Made fn) (h.scopeIn m.id sc) g) : S.IsBlock s true g (b.map Mark.span) :=
  ⟨fn, a, fs, _, b, hL.inside hg fun _ hx => .inr hx, hL.body, rfl⟩

section Counting

variable {k : Mark} {i v : Option (Stmt Mark)} {e : Option (Expr Mark)}
  (hL : S.Loops s fn a fs sc m (.counting k i e v) b f)
  (hg : s.Stands a (S.Made fn) ((Header.counting k i e v).scopeIn m.id sc) g)

include hL hg

theorem Loops.init {x : Stmt Mark} (hx : i = some x) : S.IsStmt s false g (x.map Mark.span) := by
  refine ⟨fn, a, fs, _, x, hL.inside hg fun y hy => .inl ?_,
    (Scoping.resolvedHeader_counting.1 hL.header).1 x hx, rfl⟩
  rw [Header.nodes_counting, hx]
  exact List.mem_cons_of_mem _ (List.mem_append_left _ hy)

theorem Loops.condition {x : Expr Mark} (hx : e = some x) : S.IsExpr s g (x.map Mark.span) := by
  refine ⟨fn, a, _, x, hL.inside hg fun y hy => .inl ?_,
    (Scoping.resolvedHeader_counting.1 hL.header).2.1 x hx, rfl⟩
  rw [Header.nodes_counting, hx]
  exact List.mem_cons_of_mem _ (List.mem_append_right _ (List.mem_append_left _ hy))

theorem Loops.update {x : Stmt Mark} (hx : v = some x) : S.IsStmt s false g (x.map Mark.span) := by
  refine ⟨fn, a, fs, _, x, hL.inside hg fun y hy => .inl ?_,
    (Scoping.resolvedHeader_counting.1 hL.header).2.2 x hx, rfl⟩
  rw [Header.nodes_counting, hx]
  exact List.mem_cons_of_mem _ (List.mem_append_right _ (List.mem_append_right _ hy))

end Counting

end Loops

/-! ### Loops that count -/

section Counting

variable {m : Mark} {copies : Bool} {c : Option (Expr Span)} {u : Option (Stmt Span)}
    {b : Block Span}

/-- The parts of a round. -/
theorem IsCounting.parts (h : S.IsCounting s fn m copies c u b g) :
    (∀ e, c = some e → S.IsExpr s g e) ∧ (∀ x, u = some x → S.IsStmt s false g x) ∧
      S.IsBlock s true g b := by
  obtain ⟨a, fs, sc, k, i, e, v, y, f, hL, rfl, rfl, rfl, hlex, hg⟩ := h
  have hstands : s.Stands a (S.Made fn) ((Header.counting k i e v).scopeIn m.id sc) g := by
    rw [Header.scopeIn, hlex]
    cases copies with
    | true => exact Turns.stands hg
    | false =>
      obtain rfl : g = f := hg
      exact hL.holds.stands
  refine ⟨fun e' he => ?_, fun x hx => ?_, hL.block hstands⟩
  · obtain ⟨e', rfl, rfl⟩ := Option.map_eq_some_iff.1 he
    exact hL.condition hstands rfl
  · obtain ⟨x', rfl, rfl⟩ := Option.map_eq_some_iff.1 hx
    exact hL.update hstands rfl

theorem IsCounting.enters (h : S.IsCounting s fn m copies c u b g) :
    (Task.countingLoop copies c u b g).Enters fn m.id := by
  obtain ⟨a, fs, sc, k, i, e, v, y, f, hL, he, hv, hy, -⟩ := h
  exact ⟨m, k, i, e, v, y, hL.node, rfl, he, hv, hy⟩

/-- The next round. -/
theorem IsCounting.next (h : S.IsCounting s fn m copies c u b g) (hgood : S.Good s) {next : FrameId}
    (hn : (if copies then s.copy g else (g, s)) = (next, t)) :
    s.Later t ∧ S.Good t ∧
      ((s.frames.size ≤ next → S.Made fn m.id next) → S.IsCounting t fn m copies c u b next) := by
  obtain ⟨a, fs, sc, k, i, e, v, y, f, hL, rfl, rfl, rfl, hlex, hg⟩ := h
  cases copies with
  | true =>
    obtain ⟨l, hl⟩ := Option.isSome_iff_exists.1 hlex
    obtain ⟨hlater, hgood', hturns⟩ := Turns.copy hg hL hl hgood
    rw [if_pos rfl] at hn
    obtain rfl : s.frames.size = next := congrArg Prod.fst hn
    obtain rfl : (s.copy g).2 = t := congrArg Prod.snd hn
    exact ⟨hlater, hgood', fun hmade => ⟨a, fs, sc, k, i, e, v, y, f, hL.later hlater,
      rfl, rfl, rfl, hlex, hturns (hmade (Nat.le_refl _))⟩⟩
  | false =>
    cases hn
    exact ⟨.refl s, hgood, fun _ => ⟨a, fs, sc, k, i, e, v, y, f, hL, rfl, rfl, rfl, hlex, hg⟩⟩

/-- What is copied for every round is the variable of the header. -/
theorem headerLexical?_of_copied {k : Mark} {i : Stmt Mark} {e : Option (Expr Mark)}
    {v : Option (Stmt Mark)} : copied? (some (i.map Mark.span)) =
      (Resolve.headerLexical? (.counting k (some i) e v)).map fun l => (l.name, l.kind) := by
  rw [copied?_eq, Stmt.lexical?_map, Option.map_map]
  rfl

/-- A loop with variables of its own begins in a frame for them. -/
theorem Fits.first {k : Span} {i : Stmt Span} {x : Name} {d : DeclKind} {first : FrameId}
    (h : S.Fits s jumps (.loop (.counting k (some i) c u) b f)) (hgood : S.Good s)
    (hi : copied? (some i) = some (x, d))
    (hf : enter (Frame.define ⟨some f, []⟩ x none (d == .const)) s = .done first t) :
    s.Later t ∧ S.Good t ∧ first = s.frames.size ∧
      ∃ fn m, (Task.loop (.counting k (some i) c u) b f).Enters fn m.id ∧
        (S.Made fn m.id first → S.IsStmt t false first i ∧
        S.IsCounting t fn m true c u b first) := by
  obtain ⟨fn, a, fs, sc, m, z, y, hL, hz, rfl⟩ := h
  obtain ⟨k', i', e, v, rfl, hi', rfl, rfl⟩ := Header.of_map_counting hz
  obtain ⟨j, rfl, rfl⟩ := Option.map_eq_some_iff.1 hi'
  rw [headerLexical?_of_copied (k := k') (e := e) (v := v)] at hi
  obtain ⟨l, hl, hxd⟩ := Option.map_eq_some_iff.1 hi
  cases hxd
  cases hf
  have hopens := hL.opens.opens (S.consistent hL.holds.code) hl f none
  obtain ⟨hgood', hturns⟩ := hL.turns hgood hl rfl hopens
  have hlater : s.Later (s.newFrame ⟨some f, [(l.name, ⟨none, l.kind == .const⟩)]⟩).2 :=
    .newFrame _ _
  refine ⟨hlater, hgood', rfl, fn, m, ⟨m, _, y, hL.node, rfl, hz, rfl⟩, fun hmade => ⟨?_, ?_⟩⟩
  · refine (hL.later hlater).init (g := s.frames.size) ?_ rfl
    rw [scopeIn_of_lexical sc hl]
    exact (hturns hmade).stands
  · exact ⟨a, fs, sc, k', some j, e, v, y, f, hL.later hlater, rfl, rfl, rfl, by rw [hl]; rfl,
      hturns hmade⟩

/-- A loop without variables of its own counts in the frame around it. -/
theorem Fits.plain {k : Span} {i : Option (Stmt Span)}
    (h : S.Fits s jumps (.loop (.counting k i c u) b f)) (hi : copied? i = none) :
    (∀ x, i = some x → S.IsStmt s false f x) ∧ ∃ fn m, S.IsCounting s fn m false c u b f := by
  obtain ⟨fn, a, fs, sc, m, z, y, hL, hz, rfl⟩ := h
  obtain ⟨k', i', e, v, rfl, rfl, rfl, rfl⟩ := Header.of_map_counting hz
  have hl : Resolve.headerLexical? (.counting k' i' e v) = none := by
    cases i' with
    | none => rfl
    | some j =>
      rw [Option.map_some, headerLexical?_of_copied (k := k') (e := e) (v := v),
        Option.map_eq_none_iff] at hi
      exact hi
  refine ⟨fun x hx => ?_, fn, m, a, fs, sc, k', i', e, v, y, f, hL, rfl, rfl,
    rfl, by rw [hl]; rfl, rfl⟩
  obtain ⟨j, rfl, rfl⟩ := Option.map_eq_some_iff.1 hx
  refine hL.init (g := f) ?_ rfl
  rw [Header.scopeIn, hl]
  exact hL.holds.stands

end Counting

/-! ### Other loops -/

section Others

variable {k : Span} {b : Block Span}

theorem Fits.whileTrue {c : Expr Span} (h : S.Fits s jumps (.loop (.whileTrue k c) b f)) :
    S.Fits s jumps (.whileLoop c b f) := by
  obtain ⟨fn, a, fs, sc, m, z, y, hL, hz, rfl⟩ := h
  obtain ⟨k', e, rfl, rfl⟩ := Header.of_map_whileTrue hz
  refine ⟨⟨fn, a, sc, e, hL.inside (h := .whileTrue k' e) hL.holds.stands fun x hx => .inl
    (List.mem_cons_of_mem _ hx), hL.header, rfl⟩, hL.block (h := .whileTrue k' e) hL.holds.stands⟩

theorem Fits.sequence {n : Name} {d : Option DeclKind} {e : Expr Span}
    (h : S.Fits s jumps (.loop (.forOf k n d e) b f)) (q : Sequence) :
    S.IsExpr s f e ∧ S.Fits s jumps (.forOfLoop q 0 n d b f) := by
  obtain ⟨fn, a, fs, sc, m, z, y, hL, hz, rfl⟩ := h
  obtain ⟨k', e, rfl, rfl⟩ := Header.of_map_forOf hz
  refine ⟨⟨fn, a, sc, e, ⟨hL.holds.code, fun x hx => (Node.nodes_sublist (x := .function fn)
    hL.node).subset (List.mem_cons_of_mem _ (List.mem_append_left _ (List.mem_cons_of_mem _ hx))),
    hL.holds.stands⟩, hL.header.1, rfl⟩, fn, a, fs, sc, m, k', e, y, hL, rfl⟩

theorem Fits.not_unknown {c : Text} (h : S.Fits s jumps (.loop (.unknown k c) b f)) : False := by
  obtain ⟨fn, a, fs, sc, m, z, y, hL, hz, rfl⟩ := h
  obtain ⟨k', rfl⟩ := Header.of_map_unknown hz
  exact hL.header

variable {q : Sequence} {i : Nat} {n : Name} {d : Option DeclKind}

/-- A loop over a sequence that declares no variable of its own assigns one that is found. -/
theorem Fits.forOf_assigns (h : S.Fits s jumps (.forOfLoop q i n d b f)) (hg : S.Good s)
    (hd : d = none ∨ d = some .var) :
    (∃ fn a l m e y g, S.code fn a ∧ .stmt (.loop l (.forOf m n d e) y) ∈ fn.nodes ∧
      y.map Mark.span = b ∧ S.Means fn a m.id n g ∧ S.Finds s f n (true = true) g) ∧
      S.IsBlock s true f b := by
  obtain ⟨fn, a, fs, sc, m, k, e, y, hL, rfl⟩ := h
  have hl : Resolve.headerLexical? (.forOf k n d e) = none := by
    rcases hd with rfl | rfl <;> rfl
  have hr : a.Refers S.globals sc k.id n true := by
    rcases hd with rfl | rfl
    · exact hL.header.2
    · exact hL.header.2.2
  have hstands : s.Stands a (S.Made fn) ((Header.forOf k n d e).scopeIn m.id sc) f := by
    rw [Header.scopeIn, hl]
    exact hL.holds.stands
  obtain ⟨g, hfinds, hmeans⟩ := hL.holds.finds hg hr
  exact ⟨⟨fn, a, m, k, e, y, g, hL.holds.code, hL.node, rfl, hmeans, hfinds⟩, hL.block hstands⟩

/-- The variable of a loop over a sequence gets an element. -/
theorem Fits.element (h : S.Fits s jumps (.forOfLoop q i n d b f)) (hg : S.Good s) (v : Value) :
    S.Goes false false s (elementFrame n d v f s) ∧
      ∀ {inner t}, elementFrame n d v f s = .done inner t →
        (∀ fn id, (Task.forOfLoop q i n d b f).Enters fn id → s.frames.size ≤ inner →
          S.Made fn id inner) → S.IsBlock t true inner b := by
  by_cases hd : d = none ∨ d = some .var
  · obtain ⟨⟨-, -, -, -, -, -, g, -, -, -, -, hfinds⟩, hb⟩ := h.forOf_assigns hg hd
    have hframe : elementFrame n d v f = setVariable f n v >>= fun _ => pure f := by
      rcases hd with rfl | rfl <;> rfl
    have hset : S.Goes false false s (setVariable f n v s) := hfinds.assigns rfl hg v
    rw [hframe]
    refine ⟨hset.bind fun _ _ hg => .stay hg, fun {inner t} hdone _ => ?_⟩
    rw [Process.bind_apply] at hdone
    cases hs : setVariable f n v s with
    | done u r =>
      rw [hs] at hdone
      cases hdone
      exact hb.later (hset.of_done hs).1
    | _ =>
      rw [hs] at hdone
      cases hdone
  · obtain ⟨fn, a, fs, sc, m, k, e, y, hL, rfl⟩ := h
    obtain ⟨l, hl, hln, hframe⟩ : ∃ l, Resolve.headerLexical? (.forOf k n d e) = some
      l ∧ l.name = n ∧
        elementFrame n d v f s = .done s.frames.size
          (s.newFrame ⟨some f, [(n, ⟨some v, l.kind == .const⟩)]⟩).2 := by
      rcases d with _ | _ | _ | _
      · exact absurd (.inl rfl) hd
      · exact absurd (.inr rfl) hd
      · exact ⟨_, rfl, rfl, rfl⟩
      · exact ⟨_, rfl, rfl, rfl⟩
    subst hln
    have hopens := hL.opens.opens (S.consistent hL.holds.code) hl f (some v)
    obtain ⟨hgood, hturns⟩ := hL.turns hg hl rfl hopens
    have hlater := Store.Later.newFrame s ⟨some f, [(l.name, ⟨some v, l.kind == .const⟩)]⟩
    rw [hframe]
    refine ⟨.done hlater hgood, fun {inner t} hdone hmade => ?_⟩
    cases hdone
    refine (hL.later hlater).block ?_
    rw [scopeIn_of_lexical sc hl]
    exact (hturns (hmade fn m.id ⟨m, k, e, y, hL.node, rfl, rfl⟩ (Nat.le_refl _))).stands

end Others

end FlatScope.Eval.Setting
