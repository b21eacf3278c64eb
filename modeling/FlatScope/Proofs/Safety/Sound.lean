import FlatScope.Proofs.Grammar.Sites
import FlatScope.Proofs.References
import FlatScope.Proofs.Regional.Errors

/-!
# Well-scoped programs do not go wrong

A program that is read and transformed keeps to the rules, and what it is transformed to does as
well. So neither stops by an error that has its cause in names or in the code, no jump leaves a
function, and where a name is used, the variable is found of the very binding that the name was
resolved to (`well_scoped_sound`). In the transformed program no variable is used before its
declaration has run, since all of its variables are those of functions.
-/

namespace FlatScope

open Eval Grammar

/-! ## Code that is read -/

theorem Node.plain_map {α β : Type} (f : α → β) (x : Node α) : (x.map f).Plain ↔ x.Plain := by
  cases x with
  | expr e =>
    cases e with
    | signal m k v => cases v <;> exact Iff.rfl
    | _ => exact Iff.rfl
  | _ => exact Iff.rfl

theorem Node.Legible.plain {x : Node Extent} (h : x.Legible) : x.Plain := by
  cases x with
  | expr e =>
    cases e with
    | unary | binary => exact h
    | signalValue => exact h.elim
    | _ => trivial
  | _ => trivial

/-- The nodes of a function with numbers are those of the function. -/
theorem FunctionDef.map_mem_nodes {fn : FunctionDef Span} {x : Node Mark}
    (h : x ∈ fn.number.nodes) : x.map Mark.span ∈ fn.nodes := by
  have hnodes := FunctionDef.nodes_map Mark.span fn.number
  rw [fn.number_map] at hnodes
  rw [hnodes]
  exact List.mem_map_of_mem h

/-- Besides functions and blocks, the nodes of the functions of a program, and of the one that its
    statements form, are those of the program. -/
theorem Program.IsCode.forall_nodes {p : Program Span} {P : Node Span → Prop}
    (h : ∀ x ∈ p.nodes, P x) (hfunction : ∀ fn, P (.function fn)) (hblock : ∀ b, P (.block b))
    {fn : FunctionDef Span} (hfn : p.IsCode fn) : ∀ x ∈ fn.nodes, P x := by
  simp only [nodes, List.forall_mem_append, List.forall_mem_flatMap] at h
  rcases hfn with hfn | rfl
  · exact h.1 fn hfn
  · simp only [main, FunctionDef.nodes, Block.nodes, List.forall_mem_cons]
    exact ⟨hfunction _, hblock _, h.2⟩

/-- What is read has the operators of the language. -/
theorem plain_of_parse {source : Text} {file : Option Text} {P : Program Extent}
    (h : Parser.parse source = .ok P) {fn : FunctionDef Span}
    (hfn : (P.map (Span.ofExtent file)).IsCode fn) : ∀ x ∈ fn.number.nodes, x.Plain := by
  intro x hx
  rw [← Node.plain_map Mark.span]
  refine hfn.forall_nodes (fun y hy => ?_) (fun _ => trivial) (fun _ => trivial) _
    (FunctionDef.map_mem_nodes hx)
  rw [Program.nodes_map] at hy
  obtain ⟨z, hz, rfl⟩ := List.mem_map.1 hy
  exact (Node.plain_map _ z).2 (legible_of_parse h z hz).plain

/-! ## Places -/

theorem Node.site?_map {α β : Type} (f : α → β) (x : Node α) : (x.map f).site? = x.site?.map f := by
  cases x with
  | expr e =>
    cases e with
    | signal m k v => cases v <;> rfl
    | _ => rfl
  | header h => cases h <;> rfl
  | _ => rfl

theorem sites_map {α β : Type} (f : α → β) (xs : List (Node α)) :
    sites (xs.map (Node.map f)) = (sites xs).map f := by
  rw [sites, sites, List.filterMap_map, List.map_filterMap]
  exact congrArg (List.filterMap · xs) (funext fun x => Node.site?_map f x)

theorem Span.ofExtent_injective (file : Option Text) : Function.Injective (Span.ofExtent file) := by
  rintro ⟨⟨a, b⟩, ⟨c, d⟩⟩ ⟨⟨a', b'⟩, ⟨c', d'⟩⟩ h
  simp only [Span.ofExtent, Span.mk.injEq, Option.some.injEq, Int.natCast_inj, true_and] at h
  obtain ⟨rfl, rfl, rfl, rfl⟩ := h
  rfl

/-- No two nodes of a program use a name at one place. -/
theorem Program.IsCode.site_unique {source : Text} {file : Option Text} {P : Program Extent}
    (h : Parser.parse source = .ok P) {fn fn' : FunctionDef Span}
    (hfn : (P.map (Span.ofExtent file)).IsCode fn) (hfn' : (P.map (Span.ofExtent file)).IsCode fn')
    {x y : Node Mark} (hx : x ∈ fn.number.nodes) (hy : y ∈ fn'.number.nodes) {a b : Mark}
    (ha : x.site? = some a) (hb : y.site? = some b) (hab : a.span = b.span) : fn = fn' ∧ x = y := by
  let p := P.map (Span.ofExtent file)
  have hall : ((p.functions ++ [p.main .unknown]).flatMap fun fn => sites fn.nodes).Nodup := by
    have hp : (sites p.nodes).Nodup := by
      rw [Program.nodes_map, sites_map]
      exact (sites_nodup h).map (Span.ofExtent_injective file)
    rw [Program.nodes, sites_append] at hp
    have hmain : sites (p.main .unknown).nodes = sites (Stmt.nodesOfList p.statements) := rfl
    rw [List.flatMap_append, List.flatMap_singleton, hmain]
    have hflat : ∀ fns : List (FunctionDef Span),
        fns.flatMap (fun fn => sites fn.nodes) = sites (fns.flatMap FunctionDef.nodes) :=
        fun fns => by
      rw [sites, List.filterMap_flatMap]
      rfl
    rw [hflat]
    exact hp
  obtain ⟨hone, hapart⟩ := List.nodup_flatMap.1 hall
  have hmem : ∀ {f}, p.IsCode f → f ∈ p.functions ++ [p.main .unknown] := fun hf =>
    List.mem_append.2 (hf.imp id fun he => List.mem_singleton.2 he)
  have hsite : ∀ {f : FunctionDef Span} {z : Node Mark} {c : Mark}, z ∈ f.number.nodes →
      z.site? = some c → c.span ∈ sites f.nodes := fun hz hc =>
    List.mem_filterMap.2 ⟨_, FunctionDef.map_mem_nodes hz, by rw [Node.site?_map, hc]; rfl⟩
  have he : fn = fn' := by
    by_contra hne
    have : Std.Symm (Function.onFun List.Disjoint fun fn : FunctionDef Span => sites fn.nodes) :=
      ⟨fun _ _ h _ hx hy => h hy hx⟩
    exact hapart.forall (hmem hfn) (hmem hfn') hne (hsite hx ha) (hab ▸ hsite hy hb)
  subst he
  refine ⟨rfl, ?_⟩
  by_contra hne
  have hnodes : fn.nodes = fn.number.nodes.map (Node.map Mark.span) := by
    rw [← FunctionDef.nodes_map, fn.number_map]
  have hpair := hone fn (hmem hfn)
  rw [hnodes, sites_map, sites, List.map_filterMap, List.Nodup, List.pairwise_filterMap] at hpair
  have : Std.Symm fun x y : Node Mark => ∀ b, x.site?.map Mark.span = some b →
      ∀ b', y.site?.map Mark.span = some b' →
      b ≠ b' := ⟨fun _ _ h b hb b' hb' => (h b' hb' b hb).symm⟩
  refine hpair.forall hx hy hne a.span ?_ b.span ?_ hab
  · rw [ha]
    rfl
  · rw [hb]
    rfl

/-! ## Flat code -/

/-- A node that is flat. -/
def Node.IsFlat {α : Type} : Node α → Prop
  | .expr e => e.IsFlat
  | .block b => b.IsFlat
  | .stmt s => s.IsFlat
  | .header h => h.IsFlat
  | .function fn => fn.IsFlat

theorem Stmt.isFlat_node {α : Type} (s : Stmt α) : s.node.IsFlat ↔ s.IsFlat := by
  cases s with
  | block b =>
    rw [Stmt.IsFlat]
    exact Iff.rfl
  | _ => exact Iff.rfl

theorem Expr.areFlat_iff {α : Type} {es : List (Expr α)} : Expr.AreFlat es ↔
    ∀ e ∈ es, e.IsFlat := by
  induction es with
  | nil => simp [Expr.AreFlat]
  | cons e es ih => simp only [Expr.AreFlat, ih, List.forall_mem_cons]

/-- The parts of flat code are flat. -/
theorem Node.IsFlat.children {α : Type} {x : Node α} (h : x.IsFlat) :
    ∀ c ∈ x.children, c.IsFlat := by
  cases x with
  | expr e =>
    cases e with
    | call m f args =>
      simp only [Node.IsFlat, Expr.IsFlat, Expr.areFlat_iff] at h
      simp only [Node.children, List.forall_mem_cons, List.forall_mem_map]
      exact h
    | array m es =>
      simp only [Node.IsFlat, Expr.IsFlat, Expr.areFlat_iff] at h
      simp only [Node.children, List.forall_mem_map]
      exact h
    | function m ps b =>
      obtain ⟨k, ss⟩ := b
      simpa [Node.children, Node.IsFlat, Expr.IsFlat, Block.IsFlat] using h
    | signal m k v => cases v <;> simp_all [Node.children, Node.IsFlat, Expr.IsFlat]
    | _ => simp_all [Node.children, Node.IsFlat, Expr.IsFlat]
  | block b =>
    obtain ⟨m, ss⟩ := b
    simp only [Node.IsFlat, Block.IsFlat, Stmt.areFlat_iff] at h
    simp only [Node.children, Block.statements, List.forall_mem_map, Stmt.isFlat_node]
    exact h
  | stmt s =>
    cases s with
    | declaration m n k v => cases v <;> simp_all [Node.children, Node.IsFlat, Stmt.IsFlat]
    | ret m v => cases v <;> simp_all [Node.children, Node.IsFlat, Stmt.IsFlat]
    | branch m c t e => cases e <;> simpa [Node.children, Node.IsFlat, Stmt.IsFlat] using h
    | block b =>
      obtain ⟨m, ss⟩ := b
      simp only [Node.IsFlat, Stmt.IsFlat, Block.IsFlat, Stmt.areFlat_iff] at h
      simp only [Node.children, Block.statements, List.forall_mem_map, Stmt.isFlat_node]
      exact h
    | _ => simp_all [Node.children, Node.IsFlat, Stmt.IsFlat]
  | header h' =>
    cases h' with
    | counting m i c u =>
      have hcounting : (Header.counting m i c u).IsFlat := h
      obtain ⟨hi, hc, hu⟩ := Header.isFlat_counting.1 hcounting
      simp only [Node.children, List.forall_mem_append, List.forall_mem_map, Option.mem_toList,
        Stmt.isFlat_node]
      exact ⟨⟨fun s hs => (hi s hs).2, hc⟩, fun s hs => (hu s hs).2⟩
    | _ => simp_all [Node.children, Node.IsFlat, Header.IsFlat]
  | function fn => simpa [Node.children, Node.IsFlat, FunctionDef.IsFlat] using h

/-- All nodes of flat code are flat. -/
theorem Node.IsFlat.nodes {α : Type} {x : Node α} (h : x.IsFlat) : ∀ y ∈ x.nodes, y.IsFlat := by
  induction x using Node.children_induction with
  | h x ih =>
    intro y hy
    rw [x.nodes_eq] at hy
    rcases List.mem_cons.1 hy with rfl | hy
    · cases x with
      | stmt s => exact (Stmt.isFlat_node s).2 h
      | _ => exact h
    · obtain ⟨c, hc, hy⟩ := List.mem_flatMap.1 hy
      exact ih c hc (h.children c hc) y hy

/-- Functions are the only scopes of flat code. -/
theorem Node.IsFlat.level {x : Node Mark} (h : x.IsFlat) : x.Level := by
  cases x with
  | block b => exact Block.IsFlat.lexicals h
  | header hd => exact Resolve.headerLexical?_flat h
  | _ => trivial

/-! ## Runs -/

/-- An error that has its cause in the names or in the code of a program. -/
def RunError.OfCode : RunError → Prop
  | .unknownName _ | .alreadyDefined _ | .constant _ | .target | .notSignal _ | .unknownUnary _
  | .unknownBinary _ | .unknownExpr _ | .unknownStmt _ | .unknownHeader _ => True
  | _ => False

namespace Program

/-- A program that does not go wrong: it is loaded, it does not end by an error that has its cause
    in its code, and no `break` or `continue` leaves the body of a function that is called. -/
structure Sound (p : Program Span) : Prop where
  loads : ∃ s, initialStore p = .ok s
  errors : ∀ {lines e}, p.EndsWith ⟨lines, some (.failed e)⟩ → ¬ e.OfCode
  jumps : ∀ {n k c args s}, p.Visits ⟨n, k, .callClosure c args, s⟩ → ∀ t,
    callClosure n c args s ≠ .interrupted .broke t ∧
    callClosure n c args s ≠ .interrupted .continued t

/-- In the course of a run of the program within so many steps, a piece is run. -/
def Reaches (p : Program Span) (n : Nat) (q : Point) : Prop :=
  ∃ s, initialStore p = .ok s ∧ Eval.Visits n (closure (p.main .unknown)) [] s q

/-- In the course of the run, the frame is made for the function, block or loop with the number. -/
def Makes (p : Program Span) (n : Nat) (fn : FunctionDef Mark) (id : ScopeId)
    (f : FrameId) : Prop :=
  ∃ q q', p.Reaches n q ∧ Starts q q' ∧ q.task.Enters fn id ∧ q'.task.env? = some f ∧
    q.store.frames.size ≤ f

/-- In the run, the variable of a frame is the one of the binding that the name at a node was
    resolved to; it is one of the outermost frame if the name means something from outside of the
    function. -/
def Denotes (p : Program Span) (n : Nat) (fn : FunctionDef Mark) (a : Scoping)
    (m : NodeId) (x : Name) (g : FrameId) : Prop :=
  ∃ r, a.referenceAt? m = some r ∧ r.name = x ∧ (r.binding = none → g = globalFrame) ∧
    ∀ i, r.binding = some i → ∃ b, a.binding? i = some b ∧ b.name = x ∧ p.Makes n fn b.scope g

/-- Wherever a program looks a name up in a run, it finds the variable of the binding that the name
    was resolved to. -/
structure FindsBindings (p : Program Span) : Prop where
  /-- A name that is read or assigned to. -/
  names : ∀ {n q k x env}, p.Reaches n q →
    (q.task = .expr (.name k x) env ∨ ∃ v, q.task = .assign (.name k x) v env) →
    ∃ fn a m g c, p.HasCode fn a ∧ .expr (.name m x) ∈ fn.nodes ∧ m.span = k ∧
      q.store.find? x env = some (g, c) ∧ p.Denotes n fn a m.id x g
  /-- A name that a loop over a sequence assigns to. -/
  elements : ∀ {n q r i x d b env}, p.Reaches n q → q.task = .forOfLoop r i x d b env →
    d = none ∨ d = some .var →
    ∃ fn a l m e y g c, p.HasCode fn a ∧ .stmt (.loop l (.forOf m x d e) y) ∈ fn.nodes ∧
      y.map Mark.span = b ∧ q.store.find? x env = some (g, c) ∧ p.Denotes n fn a m.id x g
  /-- A name that is declared. -/
  declarations : ∀ {n q k x d v env}, p.Reaches n q → q.task = .stmt (.declaration k x d v) env →
    ∃ fn a m w g c, p.HasCode fn a ∧ .stmt (.declaration m x d w) ∈ fn.nodes ∧ m.span = k ∧
      q.store.find? x env = some (g, c) ∧
      ∃ b, a.declared? m.id = some b ∧ b.name = x ∧ p.Makes n fn b.scope g
  /-- Names are told by their places. -/
  places : ∀ {fn fn' x y a b}, p.IsCode fn → p.IsCode fn' → x ∈ fn.number.nodes →
    y ∈ fn'.number.nodes → x.site? = some a → y.site? = some b → a.span = b.span → fn = fn' ∧ x = y

namespace WellScoped

variable {p : Program Span} (h : p.WellScoped)

include h

/-- A well-scoped program does not go wrong, if it does not stop by errors that code which is read
    does not stop by. -/
theorem sound (hforeign : ∀ {lines e}, p.EndsWith ⟨lines, some (.failed e)⟩ → ¬ e.Foreign) :
    p.Sound := by
  have hp : False → ∀ fn, p.IsCode fn → ∀ x ∈ fn.number.nodes, x.Plain := False.elim
  have hl : False → ∀ fn, p.IsCode fn → ∀ x ∈ fn.number.nodes, x.Level := False.elim
  refine ⟨h.loads.imp fun _ => And.left, fun {lines e} he => ?_, fun {n k c args s} hq t => ?_⟩
  · obtain ⟨n, hn⟩ := he
    have hwrong : ¬ (h.setting Visits.starts hp hl).Wrong e := h.not_wrong (fun _ => id) hn
    have hforeign := hforeign ⟨n, hn⟩
    intro hcode
    cases e with
    | notSignal | unknownUnary | unknownBinary => exact hforeign trivial
    | _ => first | exact hwrong trivial | exact hcode
  · obtain ⟨jumps, hready⟩ : ∃ jumps, (h.setting Visits.starts hp hl).Ready jumps _ :=
      h.ready (fun _ => id) hq
    have hgoes : Setting.Goes _ false false s (callClosure n c args s) := hready.ends
    exact ⟨fun he => Bool.false_ne_true (hgoes.leaves he), fun he => Bool.false_ne_true
      (hgoes.leaves he)⟩

/-- If names are told by their places, every lookup finds the variable of the binding. -/
theorem findsBindings (hplaces : ∀ {fn fn' x y a b}, p.IsCode fn → p.IsCode fn' →
    x ∈ fn.number.nodes → y ∈ fn'.number.nodes → x.site? = some a → y.site? = some b →
    a.span = b.span → fn = fn' ∧ x = y) : p.FindsBindings := by
  have hp : False → ∀ fn, p.IsCode fn → ∀ x ∈ fn.number.nodes, x.Plain := False.elim
  have hl : False → ∀ fn, p.IsCode fn → ∀ x ∈ fn.number.nodes, x.Level := False.elim
  have hstarts : ∀ n {q r}, p.Reaches n q → Starts q r → p.Reaches n r :=
    fun n _ _ ⟨s, hs, hv⟩ hr => ⟨s, hs, hv.tail hr⟩
  have hready : ∀ {n q}, p.Reaches n q → ∃ jumps, (h.setting (hstarts n) hp hl).Ready jumps q := by
    rintro n q ⟨s, hs, hv⟩
    obtain ⟨t, ht, hload⟩ := h.loads
    obtain rfl := Except.ok.inj (ht.symm.trans hs)
    exact (h.calls (h.good hload) (.inr rfl) ⟨t, ht, .refl⟩).visits hv
  refine ⟨fun {n q k x env} hq htask => ?_, fun {n q r i x d b env} hq htask hd => ?_,
    fun {n q k x d v env} hq htask => ?_, hplaces⟩
  all_goals
    obtain ⟨jumps, -, hg, hf⟩ := hready hq
    obtain ⟨j, code, task, s⟩ := q
    dsimp only at hg hf htask
  · rcases htask with rfl | ⟨v, rfl⟩
    · obtain ⟨fn, a, m, g, hc, hm, hk, hmeans, c, hfind, -⟩ := Setting.IsExpr.name hf hg
      exact ⟨fn, a, m, g, c, hc, hm, hk, hfind, hmeans⟩
    · obtain ⟨fn, a, m, n', g, hx, hc, hm, hmeans, c, hfind, -⟩ | ⟨_, _, _, hx, -⟩ :=
        Setting.IsTarget.cases hf hg
      · cases hx
        exact ⟨fn, a, m, g, c, hc, hm, rfl, hfind, hmeans⟩
      · cases hx
  · subst htask
    obtain ⟨⟨fn, a, l, m, e, y, g, hc, hm, hy, hmeans, c, hfind, -⟩, -⟩ :=
      Setting.Fits.forOf_assigns hf hg hd
    exact ⟨fn, a, l, m, e, y, g, c, hc, hm, hy, hfind, hmeans⟩
  · subst htask
    obtain ⟨⟨fn, a, m, w, g, hc, hm, hk, hgives, c, hfind, -⟩, -⟩ :=
      Setting.IsStmt.declaration hf hg
    exact ⟨fn, a, m, w, g, c, hc, hm, hk, hfind, hgives⟩

end WellScoped

/-! ## Transformed programs -/

variable {p : Program Span} {o : Options} {t : TransformedProgram}

/-- A program that means something is well-scoped, if its functions are told by their names. -/
theorem Means.wellScoped {fs : List Regional.Function} {main : Regional.Function}
    (h : p.Means p.globals fs main) (hdistinct : p.globals.Nodup)
    (hshape : ∀ fn, p.IsCode fn → ∀ {a}, fn.number.resolve p.globals = .ok a →
      ∃ signals, fn.Shaped signals) : p.WellScoped := by
  refine ⟨hdistinct, fun fn hfn => ?_⟩
  have hmeans : ∃ f, fn.Means p.globals f := by
    rcases hfn with hfn | rfl
    · obtain ⟨i, hi, rfl⟩ := List.getElem_of_mem hfn
      have hlt : i < fs.length := h.functions.length_eq ▸ hi
      exact ⟨fs[i], h.functions.get hi hlt⟩
    · exact ⟨main, h.main⟩
  obtain ⟨f, -, hr, hc⟩ := hmeans
  obtain ⟨signals, hs⟩ := hshape fn hfn hr
  exact ⟨signals, hs, fn.wellScoped_number.1 (FunctionDef.wellScoped_of_resolved
    (fn.shaped_number.2 hs) (fn.numberFrom_consecutive 1) hr hc)⟩

/-- A program that is read and transformed is well-scoped. -/
theorem wellScoped_of_transform (hsrc : p.IsSource) (hdistinct : p.globals.Nodup)
    (hglobals : o.globals = []) (h : p.transform o = .ok t) (hok : t.ok) : p.WellScoped := by
  obtain ⟨fs, main, hmeans⟩ := means_of_transform h hok
  have hknown : o.knownNames (p.functions.map (·.name)) = p.globals := by
    rw [Options.knownNames, hglobals, List.append_nil]
    rfl
  rw [hknown] at hmeans
  refine hmeans.wellScoped hdistinct fun fn hfn {_} _ => ⟨False, ?_⟩
  rcases hfn with hfn | rfl
  · exact hsrc.1 fn hfn
  · exact hsrc.2

/-- A function of a flat program is flat. -/
theorem IsFlat.code (h : p.IsFlat) {fn : FunctionDef Span} (hfn : p.IsCode fn) : fn.IsFlat := by
  rcases hfn with hfn | rfl
  · exact h.1 fn hfn
  · exact h.2

theorem IsFlat.level (h : p.IsFlat) {fn : FunctionDef Span} (hfn : p.IsCode fn) :
    ∀ x ∈ fn.number.nodes, x.Level := fun x hx =>
  (Node.IsFlat.nodes (x := .function fn.number) (fn.isFlat_number.2 (h.code hfn)) x hx).level

/-- What a program is transformed to is well-scoped as well. -/
theorem wellScoped_transformed (hsrc : p.IsSource) (hdistinct : p.globals.Nodup)
    (hglobals : o.globals = []) (h : p.transform o = .ok t) (hok : t.ok) :
    t.program.IsFlat ∧ t.program.WellScoped := by
  obtain ⟨hflat, u, hu, huok, -⟩ := transform_again hsrc h hok
  have hnames : t.program.functions.map (·.name) = p.functions.map (·.name) := by
    obtain ⟨functions, main, hfunctions, -, rfl⟩ := transform_eq_ok.1 h
    rw [TransformedProgram.ok, List.all_append, Bool.and_eq_true] at hok
    exact (FunctionDef.mapM_tryTransform_again hsrc.1 hfunctions hok.1).2.1
  have hsame : t.program.globals = p.globals := congrArg (Builtin.all.map (·.name) ++ ·) hnames
  obtain ⟨fs, main, hmeans⟩ := means_of_transform hu huok
  have hknown : o.knownNames (t.program.functions.map (·.name)) = t.program.globals := by
    rw [Options.knownNames, hglobals, List.append_nil]
    rfl
  rw [hknown] at hmeans
  refine ⟨hflat, hmeans.wellScoped (hsame ▸ hdistinct) fun fn hfn {a} hr => ⟨True, ?_⟩⟩
  have hnumber := fn.isFlat_number.2 (hflat.code hfn)
  exact fn.shaped_number.1 (FunctionDef.resolve_flat hnumber hr).2

end Program

/-- Well-scoped programs do not go wrong: if a program is read and transformed whose functions have
    names of their own, neither it nor the transformed program goes wrong, and every lookup of a
    name in it finds the variable of the binding that the name was resolved to. In the transformed
    program, no variable is used before its declaration has run. -/
theorem well_scoped_sound (source : Text) (file : Option Text) (p : Program Span) (o : Options)
    (t : TransformedProgram) (hp : Parser.parseFile source file = .ok p)
    (hnames : (p.functions.map (·.name)).Nodup)
    (hapart : ∀ fn ∈ p.functions, ∀ b ∈ Builtin.all, fn.name ≠ b.name) (hglobals : o.globals = [])
    (ht : p.transform o = .ok t) (hok : t.ok) :
    p.Sound ∧ p.FindsBindings ∧ t.program.Sound ∧
      ∀ lines n, ¬ t.program.EndsWith ⟨lines, some (.failed (.uninitialized n))⟩ := by
  rw [Parser.parseFile] at hp
  cases hparse : Parser.parse source with
  | error e =>
    rw [hparse] at hp
    cases hp
  | ok P =>
    rw [hparse] at hp
    obtain rfl : P.map (Span.ofExtent file) = p := Except.ok.inj hp
    have hsrc := (P.isSource_map (Span.ofExtent file)).2 (parse_isSource hparse)
    have hdistinct : (P.map (Span.ofExtent file)).globals.Nodup := by
      refine List.nodup_append.2 ⟨by decide, hnames, fun n hn m hm => ?_⟩
      obtain ⟨b, hb, rfl⟩ := List.mem_map.1 hn
      obtain ⟨fn, hfn, rfl⟩ := List.mem_map.1 hm
      exact (hapart fn hfn b hb).symm
    have hw := Program.wellScoped_of_transform hsrc hdistinct hglobals ht hok
    obtain ⟨hflat, hw'⟩ := Program.wellScoped_transformed hsrc hdistinct hglobals ht hok
    have hplain : ∀ fn, (P.map (Span.ofExtent file)).IsCode fn → ∀ x ∈ fn.number.nodes, x.Plain :=
      fun fn hfn => plain_of_parse hparse hfn
    have hnoLevel : False → ∀ fn, (P.map (Span.ofExtent file)).IsCode fn →
        ∀ x ∈ fn.number.nodes, x.Level := False.elim
    have hnotPlain : False → ∀ fn, t.program.IsCode fn →
      ∀ x ∈ fn.number.nodes, x.Plain := False.elim
    have hlevel : True → ∀ fn, t.program.IsCode fn → ∀ x ∈ fn.number.nodes, x.Level :=
      fun _ fn hfn => hflat.level hfn
    refine ⟨hw.sound fun {lines e} hends hforeign => ?_,
      hw.findsBindings fun hfn hfn' hx hy => Program.IsCode.site_unique hparse hfn hfn' hx hy,
      hw'.sound (Program.not_foreign_of_transform hsrc hplain ht hok), fun lines n hends => ?_⟩
    · obtain ⟨n, hn⟩ := hends
      have hwrong :
          ¬ (hw.setting Program.Visits.starts (fun _ : True => hplain) hnoLevel).Wrong e :=
        hw.not_wrong (fun _ => id) hn
      cases e with
      | notSignal | unknownUnary | unknownBinary => exact hwrong trivial
      | _ => exact hforeign
    · obtain ⟨k, hk⟩ := hends
      have hwrong :
          ¬ (hw'.setting Program.Visits.starts hnotPlain hlevel).Wrong (.uninitialized n) :=
        hw'.not_wrong (fun _ => id) hk
      exact hwrong trivial

/-- The theorem for a program with a function that makes a closure in a loop and reads the variable
    of the loop in it. -/
theorem well_scoped_sound_closures : ∃ p t,
    Parser.parseFile "function f(n){for(let i of[n]){n=function(){return i;};}return n;}f(1)();"
    none =
      .ok p ∧ (p.functions.map (·.name)).Nodup ∧
      (∀ fn ∈ p.functions, ∀ b ∈ Builtin.all, fn.name ≠ b.name) ∧ p.transform {} = .ok t ∧ t.ok ∧
      p.Sound ∧ p.FindsBindings ∧ t.program.Sound ∧
      ∀ lines n, ¬ t.program.EndsWith ⟨lines, some (.failed (.uninitialized n))⟩ := by
  have hok : (Parser.parseFile
      "function f(n){for(let i of[n]){n=function(){return i;};}return n;}f(1)();" none).toOption.any
        fun p => decide (p.functions.map (·.name)).Nodup &&
          decide (∀ fn ∈ p.functions, ∀ b ∈ Builtin.all, fn.name ≠ b.name) &&
          (p.transform {}).toOption.any (·.ok) := by
    decide +kernel
  cases hp : Parser.parseFile
      "function f(n){for(let i of[n]){n=function(){return i;};}return n;}f(1)();" none with
  | error e =>
    rw [hp] at hok
    cases hok
  | ok p =>
    rw [hp, Except.toOption, Option.any_some, Bool.and_eq_true, Bool.and_eq_true,
      decide_eq_true_iff, decide_eq_true_iff] at hok
    obtain ⟨⟨hnames, hapart⟩, hok⟩ := hok
    cases ht : p.transform {} with
    | error e =>
      rw [ht] at hok
      cases hok
    | ok t =>
      rw [ht, Except.toOption, Option.any_some] at hok
      exact ⟨p, t, rfl, hnames, hapart, ht, hok,
        well_scoped_sound _ none p {} t hp hnames hapart rfl ht hok⟩

end FlatScope
