import FlatScope.Proofs.Safety.Good

/-!
# The parts of well-scoped pieces

The parts of a well-scoped piece are well-scoped, and where names are used, the variables are found
that they mean (`Eval.Setting.Holds.finds`).
-/

namespace FlatScope.Eval.Setting

variable {S : Setting} {s t : Store} {fn : FunctionDef Mark} {a : Scoping} {fs sc : ScopeId}
  {f g : FrameId} {ns : List (Node Mark)} {jumps : Bool} {k : Span} {n : Name}

/-! ## Names -/

/-- The variable of a frame is the one that a name means at a node: one of the outermost frame if
    the name is from outside of the function, and otherwise one of a frame that was made for the
    scope of the binding. -/
def Means (S : Setting) (fn : FunctionDef Mark) (a : Scoping) (m : NodeId) (n : Name)
    (g : FrameId) : Prop :=
  ∃ r, a.referenceAt? m = some r ∧ r.name = n ∧ (r.binding = none → g = globalFrame) ∧
    ∀ i, r.binding = some i → ∃ b, a.binding? i = some b ∧ b.name = n ∧ S.Made fn b.scope g

/-- The variable of a frame that was made for the scope of the binding that is declared at a
    node. -/
def Gives (S : Setting) (fn : FunctionDef Mark) (a : Scoping) (m : NodeId) (n : Name)
    (g : FrameId) : Prop :=
  ∃ b, a.declared? m = some b ∧ b.name = n ∧ S.Made fn b.scope g

/-- A variable is found from the frame; it is no constant if something is `assigned` to it. -/
def Finds (S : Setting) (s : Store) (f : FrameId) (n : Name) (assigned : Prop)
    (g : FrameId) : Prop :=
  ∃ c, s.find? n f = some (g, c) ∧ (assigned → c.const = false) ∧ (S.level → c.content.isSome)

/-- Where a name is used, the variable is found that it means. -/
theorem Holds.finds (h : S.Holds s fn a sc f ns) (hg : S.Good s) {m : NodeId} {w : Bool}
    (hr : a.Refers S.globals sc m n w) : ∃ g, S.Finds s f n (w = true) g ∧ S.Means fn a m n g := by
  obtain ⟨r, hr, hrn, -, hrw, hrb, hglobal⟩ := hr
  cases hl : a.lookup? sc n with
  | none =>
    rw [hl] at hrb
    have hf := h.stands.global hl (hglobal hl).2
    obtain ⟨c, hc⟩ := hf.cell?
    exact ⟨globalFrame, ⟨c, hf.find? hg.nested hc, fun _ => hg.outermost hc,
      fun hlv => hg.level hlv hc⟩, r, hr, hrn, fun _ => rfl,
      fun i hi => (by rw [hrb] at hi; cases hi)⟩
  | some b =>
    rw [hl] at hrb
    obtain ⟨g, c, hf, hc, hconst, hmade⟩ := h.stands.known hl
    obtain ⟨hmem, hname, -⟩ := (S.consistent h.code).of_lookup? hl
    have hb := (S.consistent h.code).binding?_of_mem hmem
    refine ⟨g, ⟨c, hf.find? hg.nested hc, fun hw => ?_, fun hlv => hg.level hlv hc⟩, r, hr, hrn,
      fun hn => (by rw [hrb] at hn; cases hn), fun i hi => ?_⟩
    · -- an assignment to a constant would have been refused
      have hok := S.constants h.code r (List.mem_of_find?_eq_some hr)
      rw [Scoping.violated?, hrw, if_pos hw, hrb, Option.map_some, Option.bind_some, hb,
        Option.filter_some_eq_none] at hok
      rw [Bool.eq_false_iff]
      exact fun hcc => hok (hconst hcc)
    · rw [hrb] at hi
      cases hi
      exact ⟨b, hb, hname, hmade⟩

/-- Where a name is declared, the variable of the binding is found. -/
theorem Holds.finds_declared (h : S.Holds s fn a sc f ns) (hg : S.Good s) {m : NodeId}
    {d : DeclKind} (hd : a.Declares fs sc m n d) : ∃ g, S.Finds s f n (d = .var) g ∧
    S.Gives fn a m n g := by
  obtain ⟨b, hm, hl, hb⟩ := hd
  obtain ⟨g, c, hf, hc, hconst, hmade⟩ := h.stands.known hl
  refine ⟨g, ⟨c, hf.find? hg.nested hc, fun hd => ?_, fun hlv => hg.level hlv hc⟩,
    b, hm, ((S.consistent h.code).of_lookup? hl).2.1, hmade⟩
  subst hd
  rw [Bool.eq_false_iff]
  intro hcc
  have := hconst hcc
  rw [Origin.isConst_of_isFunctionScoped hb.2] at this
  cases this

namespace Finds

variable {assigned : Prop}

/-- A read that finds its binding throws nothing that the setting calls wrong. -/
theorem get (h : S.Finds s f n assigned g) : Throws (¬ S.Wrong ·) (s.get f n) := by
  obtain ⟨⟨content, const⟩, hf, -, hc⟩ := h
  rw [Store.get, hf]
  cases content with
  | none =>
    exact .error fun hlv => absurd (hc hlv) Bool.false_ne_true
  | some v => exact .ok v

/-- An assignment that finds a binding it may write throws nothing wrong. -/
theorem setTarget (h : S.Finds s f n assigned g) (ha : assigned) :
    Throws (¬ S.Wrong ·) (s.setTarget f n) := by
  obtain ⟨⟨content, const⟩, hf, hconst, hc⟩ := h
  obtain rfl : const = false := hconst ha
  rw [Store.setTarget, hf]
  cases content with
  | none => exact .error fun hlv => absurd (hc hlv) Bool.false_ne_true
  | some v => exact .ok g

/-- An initialization that finds its binding throws nothing wrong. -/
theorem initialTarget (h : S.Finds s f n assigned g) :
    Throws (¬ S.Wrong ·) (s.initialTarget f n) := by
  obtain ⟨c, hf, -⟩ := h
  rw [Store.initialTarget, hf]
  exact .ok g

/-- An assignment. -/
theorem assigns (h : S.Finds s f n assigned g) (ha : assigned) (hg : S.Good s) (v : Value)
    {returns jumps : Bool} : S.Goes returns jumps s (setVariable f n v s) :=
  .changeAt hg (h.setTarget ha) fun i => ⟨.write s i n v, hg.write i n v⟩

/-- A declaration. -/
theorem starts (h : S.Finds s f n assigned g) (hg : S.Good s) (v : Value) {returns jumps : Bool} :
    S.Goes returns jumps s (startVariable f n v s) :=
  .changeAt hg h.initialTarget fun i => ⟨.write s i n v, hg.write i n v⟩

end Finds

/-! ## Expressions -/

namespace IsExpr

variable {x y : Expr Span}

/-- A name finds the variable that it means. -/
theorem name (h : S.IsExpr s f (.name k n)) (hg : S.Good s) :
    ∃ fn a m g, S.code fn a ∧ .expr (.name m n) ∈ fn.nodes ∧ m.span = k ∧ S.Means fn a m.id n g ∧
      S.Finds s f n (false = true) g := by
  obtain ⟨fn, a, sc, e, hh, hr, he⟩ := h
  obtain ⟨m, rfl⟩ := Expr.of_map_name he
  obtain ⟨g, hfinds, hmeans⟩ := hh.finds hg hr
  cases he
  exact ⟨fn, a, m, g, hh.code, hh.nodes _ List.mem_cons_self, rfl, hmeans, hfinds⟩

theorem unary {op : UnaryOp} (h : S.IsExpr s f (.unary k op x)) :
    S.IsExpr s f x ∧ (S.plain → ∀ t, op ≠ .other t) := by
  obtain ⟨fn, a, sc, e, hh, hr, he⟩ := h
  obtain ⟨m, e, rfl, he'⟩ := Expr.of_map_unary he
  exact ⟨⟨fn, a, sc, e, hh.sub fun _ hy => List.mem_cons_of_mem _ hy, hr, he'⟩,
    fun hp => S.plainly hp hh.code _ (hh.nodes _ List.mem_cons_self)⟩

theorem binary {op : BinaryOp} (h : S.IsExpr s f (.binary k op x y)) :
    S.IsExpr s f x ∧ S.IsExpr s f y ∧ (S.plain → ∀ t, op ≠ .other t) := by
  obtain ⟨fn, a, sc, e, hh, hr, he⟩ := h
  obtain ⟨m, l, r, rfl, hl, hr'⟩ := Expr.of_map_binary he
  exact ⟨⟨fn, a, sc, l, hh.sub fun _ hy => List.mem_cons_of_mem _ (List.mem_append_left _ hy),
    hr.1, hl⟩, ⟨fn, a, sc, r, hh.sub fun _ hy => List.mem_cons_of_mem _
    (List.mem_append_right _ hy), hr.2, hr'⟩, fun hp => S.plainly hp hh.code _
    (hh.nodes _ List.mem_cons_self)⟩

theorem call {args : List (Expr Span)} (h : S.IsExpr s f (.call k x args)) :
    S.IsExpr s f x ∧ S.AreExprs s f args := by
  obtain ⟨fn, a, sc, e, hh, hr, he⟩ := h
  obtain ⟨m, l, r, rfl, hl, hr'⟩ := Expr.of_map_call he
  exact ⟨⟨fn, a, sc, l, hh.sub fun _ hy => List.mem_cons_of_mem _ (List.mem_append_left _ hy),
    hr.1, hl⟩, fn, a, sc, r, hh.sub fun _ hy => List.mem_cons_of_mem _ (List.mem_append_right _ hy),
    hr.2, hr'⟩

theorem array {es : List (Expr Span)} (h : S.IsExpr s f (.array k es)) : S.AreExprs s f es := by
  obtain ⟨fn, a, sc, e, hh, hr, he⟩ := h
  obtain ⟨m, l, rfl, hl⟩ := Expr.of_map_array he
  exact ⟨fn, a, sc, l, hh.sub fun _ hy => List.mem_cons_of_mem _ hy, hr, hl⟩

theorem index (h : S.IsExpr s f (.index k x y)) : S.IsExpr s f x ∧ S.IsExpr s f y := by
  obtain ⟨fn, a, sc, e, hh, hr, he⟩ := h
  obtain ⟨m, l, r, rfl, hl, hr'⟩ := Expr.of_map_index he
  exact ⟨⟨fn, a, sc, l, hh.sub fun _ hy => List.mem_cons_of_mem _ (List.mem_append_left _ hy),
    hr.1, hl⟩, fn, a, sc, r, hh.sub fun _ hy => List.mem_cons_of_mem _ (List.mem_append_right _ hy),
    hr.2, hr'⟩

/-- A function that is made is well-scoped. -/
theorem function {ps : List Name} {b : Block Span} (h : S.IsExpr s f (.function k ps b)) :
    S.Represents s ⟨ps, b, f, none⟩ := by
  obtain ⟨j, ss⟩ := b
  obtain ⟨fn, a, sc, e, hh, hr, he⟩ := h
  obtain ⟨m, l, xs, rfl, hl⟩ := Expr.of_map_function he
  refine .code hh.code (.nested (hh.nodes _ List.mem_cons_self)) ?_ hr.1 hr.2 hh.stands.frame
    (fun sc' hsc => Option.some.inj hsc ▸ hh.stands) nofun
  cases he
  rfl

theorem signal {e : SignalKind} (h : S.IsExpr s f (.signal k e (some x))) : S.IsExpr s f x := by
  obtain ⟨fn, a, sc, e, hh, hr, he⟩ := h
  obtain ⟨m, e, rfl, he'⟩ := Expr.of_map_signal he
  exact ⟨fn, a, sc, e, hh.sub fun _ hy => List.mem_cons_of_mem _ hy, hr, he'⟩

theorem signalIs {e : SignalKind} (h : S.IsExpr s f (.signalIs k x e)) : S.IsExpr s f x := by
  obtain ⟨fn, a, sc, e, hh, hr, he⟩ := h
  obtain ⟨m, e, rfl, he'⟩ := Expr.of_map_signalIs he
  exact ⟨fn, a, sc, e, hh.sub fun _ hy => List.mem_cons_of_mem _ hy, hr, he'⟩

theorem signalValue (h : S.IsExpr s f (.signalValue k x)) : S.IsExpr s f x ∧ ¬ S.plain := by
  obtain ⟨fn, a, sc, e, hh, hr, he⟩ := h
  obtain ⟨m, e, rfl, he'⟩ := Expr.of_map_signalValue he
  exact ⟨⟨fn, a, sc, e, hh.sub fun _ hy => List.mem_cons_of_mem _ hy, hr, he'⟩,
    fun hp => S.plainly hp hh.code _ (hh.nodes _ List.mem_cons_self)⟩

/-- A piece of a setting has no unknown expression. -/
theorem not_unknown {c : Text} (h : S.IsExpr s f (.unknown k c)) : False := by
  obtain ⟨fn, a, sc, e, hh, hr, he⟩ := h
  obtain ⟨m, rfl⟩ := Expr.of_map_unknown he
  exact hr

end IsExpr

theorem AreExprs.cons {x : Expr Span} {xs : List (Expr Span)} (h : S.AreExprs s f (x :: xs)) :
    S.IsExpr s f x ∧ S.AreExprs s f xs := by
  obtain ⟨fn, a, sc, e, hh, hr, he⟩ := h
  obtain ⟨l, r, rfl, hl, hr'⟩ := Expr.of_mapList_cons he
  exact ⟨⟨fn, a, sc, l, hh.sub fun _ hy => List.mem_append_left _ hy, hr.1, hl⟩,
    fn, a, sc, r, hh.sub fun _ hy => List.mem_append_right _ hy, hr.2, hr'⟩

/-- Something is assigned to a variable or to an element. -/
theorem IsTarget.cases {x : Expr Span} (h : S.IsTarget s f x) (hg : S.Good s) :
    (∃ fn a m n g, x = .name m.span n ∧ S.code fn a ∧ .expr (.name m n) ∈ fn.nodes ∧
      S.Means fn a m.id n g ∧ S.Finds s f n (true = true) g) ∨
      ∃ k b i, x = .index k b i ∧ S.IsExpr s f b ∧ S.IsExpr s f i := by
  obtain ⟨fn, a, sc, e, hh, hr, rfl⟩ := h
  cases e with
  | name m n =>
    obtain ⟨g, hfinds, hmeans⟩ := hh.finds hg hr
    exact .inl ⟨fn, a, m, n, g, rfl, hh.code, hh.nodes _ List.mem_cons_self, hmeans, hfinds⟩
  | index m b i =>
    exact .inr ⟨_, _, _, rfl,
      ⟨fn, a, sc, b, hh.sub fun _ hy => List.mem_cons_of_mem _ (List.mem_append_left _ hy),
      hr.1, rfl⟩, fn, a, sc, i, hh.sub fun _ hy => List.mem_cons_of_mem _
      (List.mem_append_right _ hy), hr.2, rfl⟩
  | _ => exact hr.elim

/-! ## Statements -/

theorem AreStmts.cons {x : Stmt Span} {xs : List (Stmt Span)} (h : S.AreStmts s jumps f (x :: xs)) :
    S.IsStmt s jumps f x ∧ S.AreStmts s jumps f xs := by
  obtain ⟨fn, a, fs, sc, e, hh, hr, he⟩ := h
  obtain ⟨l, r, rfl, hl, hr'⟩ := Stmt.of_mapList_cons he
  exact ⟨⟨fn, a, fs, sc, l, hh.sub fun _ hy => List.mem_append_left _ hy, hr.1, hl⟩,
    fn, a, fs, sc, r, hh.sub fun _ hy => List.mem_append_right _ hy, hr.2, hr'⟩

namespace IsStmt

variable {x y : Expr Span}

/-- A declaration finds its variable, which is no constant if it is a `var`. -/
theorem declaration {d : DeclKind} {v : Option (Expr Span)}
    (h : S.IsStmt s jumps f (.declaration k n d v)) (hg : S.Good s) :
    (∃ fn a m w g, S.code fn a ∧ .stmt (.declaration m n d w) ∈ fn.nodes ∧ m.span = k ∧
      S.Gives fn a m.id n g ∧ S.Finds s f n (d = .var) g) ∧ ∀ e, v = some e → S.IsExpr s f e := by
  obtain ⟨fn, a, fs, sc, z, hh, hr, hz⟩ := h
  obtain ⟨m, w, rfl, rfl⟩ := Stmt.of_map_declaration hz
  have hnode : .stmt (.declaration m n d w) ∈ fn.nodes :=
    hh.nodes _ (by cases w <;> exact List.mem_cons_self)
  have hfinds : a.Declares fs sc m.id n d → ∃ fn a m w g, S.code fn a ∧
      .stmt (.declaration m n d w) ∈ fn.nodes ∧ m.span = k ∧ S.Gives fn a m.id n g ∧
      S.Finds s f n (d = .var) g := fun hd => by
    obtain ⟨g, hf, hgives⟩ := hh.finds_declared hg hd
    refine ⟨fn, a, m, w, g, hh.code, hnode, ?_, hgives, hf⟩
    cases w with
    | none => exact (Stmt.declaration.inj hz).1
    | some e => exact (Stmt.declaration.inj hz).1
  cases w with
  | none => exact ⟨hfinds hr.1, nofun⟩
  | some e =>
    refine ⟨hfinds hr.1, fun e' he => ?_⟩
    exact ⟨fn, a, sc, e, hh.sub fun _ hy => List.mem_cons_of_mem _ hy, hr.2, Option.some.inj he⟩

theorem assignment (h : S.IsStmt s jumps f (.assignment k x y)) :
    S.IsTarget s f x ∧ S.IsExpr s f y := by
  obtain ⟨fn, a, fs, sc, z, hh, hr, hz⟩ := h
  obtain ⟨m, l, r, rfl, hl, hr'⟩ := Stmt.of_map_assignment hz
  have hL : S.Holds s fn a sc f l.nodes :=
    hh.sub fun _ hy => List.mem_cons_of_mem _ (List.mem_append_left _ hy)
  have hR : S.Holds s fn a sc f r.nodes :=
    hh.sub fun _ hy => List.mem_cons_of_mem _ (List.mem_append_right _ hy)
  cases l with
  | name => exact ⟨⟨fn, a, sc, _, hL, hr.1, hl⟩, fn, a, sc, r, hR, hr.2, hr'⟩
  | index => exact ⟨⟨fn, a, sc, _, hL, ⟨hr.1, hr.2.1⟩, hl⟩, fn, a, sc, r, hR, hr.2.2, hr'⟩
  | _ => exact hr.elim

theorem expression (h : S.IsStmt s jumps f (.expression k x)) : S.IsExpr s f x := by
  obtain ⟨fn, a, fs, sc, z, hh, hr, hz⟩ := h
  obtain ⟨m, e, rfl, he⟩ := Stmt.of_map_expression hz
  exact ⟨fn, a, sc, e, hh.sub fun _ hy => List.mem_cons_of_mem _ hy, hr, he⟩

theorem block {b : Block Span} (h : S.IsStmt s jumps f (.block b)) : S.IsBlock s jumps f b := by
  obtain ⟨fn, a, fs, sc, z, hh, hr, hz⟩ := h
  obtain ⟨e, rfl, he⟩ := Stmt.of_map_block hz
  exact ⟨fn, a, fs, sc, e, hh, hr.2, he⟩

theorem branch {b : Block Span} {o : Option (Block Span)}
    (h : S.IsStmt s jumps f (.branch k x b o)) : S.IsExpr s f x ∧ S.IsBlock s jumps f b ∧
    ∀ c, o = some c → S.IsBlock s jumps f c := by
  obtain ⟨fn, a, fs, sc, z, hh, hr, hz⟩ := h
  obtain ⟨m, e, l, r, rfl, he, hl, rfl⟩ := Stmt.of_map_branch hz
  cases r with
  | none =>
    exact ⟨⟨fn, a, sc, e, hh.sub fun _ hy => List.mem_cons_of_mem _
      (List.mem_append_left _ hy), hr.1, he⟩,
      ⟨fn, a, fs, sc, l, hh.sub fun _ hy => List.mem_cons_of_mem _ (List.mem_append_right _
        (List.mem_append_left _ hy)), hr.2.2, hl⟩, nofun⟩
  | some c =>
    refine ⟨⟨fn, a, sc, e, hh.sub fun _ hy => List.mem_cons_of_mem _
      (List.mem_append_left _ hy), hr.1, he⟩,
      ⟨fn, a, fs, sc, l, hh.sub fun _ hy => List.mem_cons_of_mem _ (List.mem_append_right _
        (List.mem_append_left _ hy)), hr.2.2.1, hl⟩, fun c' hc => ?_⟩
    exact ⟨fn, a, fs, sc, c, hh.sub fun _ hy => List.mem_cons_of_mem _ (List.mem_append_right _
      (List.mem_append_right _ hy)), hr.2.2.2.2, Option.some.inj hc⟩

theorem loop {h : Header Span} {b : Block Span} (hx : S.IsStmt s jumps f (.loop k h b)) :
    S.Fits s false (.loop h b f) := by
  obtain ⟨fn, a, fs, sc, z, hh, hr, hz⟩ := hx
  obtain ⟨m, x, y, rfl, hx, hy⟩ := Stmt.of_map_loop hz
  exact ⟨fn, a, fs, sc, m, x, y, ⟨hh.sub nofun, hh.nodes _ List.mem_cons_self, hr.2.1, hr.2.2.1,
    hr.2.2.2⟩, hx, hy⟩

theorem ret (h : S.IsStmt s jumps f (.ret k (some x))) : S.IsExpr s f x := by
  obtain ⟨fn, a, fs, sc, z, hh, hr, hz⟩ := h
  obtain ⟨m, e, rfl, he⟩ := Stmt.of_map_ret hz
  exact ⟨fn, a, sc, e, hh.sub fun _ hy => List.mem_cons_of_mem _ hy, hr, he⟩

/-- A jump is inside of a loop. -/
theorem brk (h : S.IsStmt s jumps f (.brk k)) : jumps = true := by
  obtain ⟨fn, a, fs, sc, z, hh, hr, hz⟩ := h
  obtain ⟨m, rfl⟩ := Stmt.of_map_brk hz
  exact hr

theorem cont (h : S.IsStmt s jumps f (.cont k)) : jumps = true := by
  obtain ⟨fn, a, fs, sc, z, hh, hr, hz⟩ := h
  obtain ⟨m, rfl⟩ := Stmt.of_map_cont hz
  exact hr

theorem not_unknown {c : Text} (h : S.IsStmt s jumps f (.unknown k c)) : False := by
  obtain ⟨fn, a, fs, sc, z, hh, hr, hz⟩ := h
  obtain ⟨m, rfl⟩ := Stmt.of_map_unknown hz
  exact hr

end IsStmt

end FlatScope.Eval.Setting
