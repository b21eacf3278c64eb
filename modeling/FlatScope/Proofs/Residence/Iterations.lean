import FlatScope.Proofs.Regional.Clauses
import FlatScope.Proofs.Residence.Clauses
import FlatScope.Proofs.Residence.Loops

/-!
# Loops of both programs

The machine follows a loop if it follows its body (`Joint.Looping.follows`). A loop without a
variable of its own goes round from any later states (`Joint.Since`). One that has a variable goes
round from states in which the variable lodges in the frame of an iteration (`Joint.Turn`): one that
counts copies the frame (`Joint.Looping.turning_follows`), and one over a sequence makes a new one
for every element (`Joint.Looping.declaring_follows`). The lodgers move out when the loop ends.
-/

namespace FlatScope

open Process

namespace Regional.Joint

variable {fn : FunctionDef Mark} {globals : List Name} {a : Analysis} {i : Nat} {j j' j₀ : Joint}
  {f g : FrameId} {fs sc : ScopeId} {env : Env} {pl : Place} {jumps : Bool} {m b k : Mark}
  {hd : Header Mark} {ss : List (Stmt Mark)}

/-! ## Ends of loops -/

/-- The states have gone on. -/
structure Since (j₀ j : Joint) : Prop where
  agree : j.Matches
  grows : j₀.Grows j

theorem Since.refl (hj : j.Matches) : j.Since j := ⟨hj, .refl hj⟩

/-- A loop is left. -/
def Left (j₀ : Joint) (pl : Place) (jumps : Bool) (w : Interrupt) (j : Joint) : Prop :=
  j₀.Since j ∧ Leaving pl jumps j w

/-- What leaves the body of a loop and is not for the loop leaves the loop. -/
theorem Leaving.outer {w : Interrupt} (h : Leaving { pl with inLoop := true } true j w)
    (hb : w ≠ .broke) (hc : w ≠ .continued) : Leaving pl jumps j w := by
  cases w with
  | failed e => trivial
  | returned v => exact h
  | broke => exact absurd rfl hb
  | continued => exact absurd rfl hc

/-- A part of a loop that is not left. -/
theorem Ends.either {α : Type} {φ : Joint → α → Prop} {ψ : α → Joint → Prop}
    {ι : Interrupt → Joint → Prop} {r : Except Interrupt α} (h : Ends j φ Fails r j')
    (hψ : ∀ x, j'.Matches → j.Grows j' → ψ x j')
    (hι : ∀ e, j'.Matches → j.Grows j' → ι (.failed e) j') : Either ψ ι r j' := by
  cases r with
  | ok x => exact hψ x h.agree h.grows
  | error w =>
    obtain ⟨e, rfl⟩ := h.stop w rfl
    exact hι e h.agree h.grows

/-- The condition of a loop. -/
theorem Ends.decides {J I : Joint → Prop} {ι : Interrupt → Joint → Prop}
    {φ : Joint → Bool → Prop} {r : Except Interrupt Bool} (h : Ends j φ Fails r j')
    (hJ : j'.Matches → j.Grows j' → J j') (hI : j'.Matches → j.Grows j' → I j')
    (hι : ∀ e, j'.Matches → j.Grows j' → ι (.failed e) j') : Decides J I ι r j' := by
  refine h.either (fun t => ?_) hι
  cases t with
  | true => exact hJ
  | false => exact hI

/-- A part of a loop fails. -/
theorem Since.fails (h : j₀.Since j) (e : RunError) : j₀.Left pl jumps (.failed e) j := ⟨h, trivial⟩

/-- The states have gone on once more. -/
theorem Since.later (h : j₀.Since j) (hj' : j'.Matches) (hle : j.Grows j') : j₀.Since j' :=
  ⟨hj', h.grows.trans hle⟩

/-- A loop is run as statements are. -/
theorem Follows.runs {x : Nat → FlatScope.Run Unit} {y : Nat → Run Unit}
    (h : Follows i x y j (Either (fun _ => j₀.Since) (j₀.Left pl jumps))) :
    Follows i x y j (Runs j₀ pl jumps) :=
  h.imp fun r j' hr => by
    cases r with
    | ok u => exact .ok hr.agree hr.grows trivial
    | error w => exact .error hr.1.agree hr.1.grows hr.2

namespace Looping

variable {o u : Option (Stmt Mark)} {c : Option (Expr Mark)}

/-! ## Headers -/

/-- An expression of the header. -/
theorem expr_follows (L : Looping i fn globals a fs sc m hd b ss) (hc : Calls i) {e : Expr Mark}
    (hsrc : e.IsSource) {id : ScopeId} (hres : a.scoping.ResolvedExpr globals id e)
    (hns : ∀ y ∈ e.nodes, y ∈ hd.nodes) (hj : j.Matches) {opened : ScopeId → Prop}
    (hs : j.Resides a.scoping id g env e.nodes opened) :
    Follows i (fun n => Eval.expr n (e.map Mark.span) g) (fun k => expr k a.scoping e env) j
      (Yields j) :=
  Joint.expr_follows L.settled hc hsrc hres
    (fun y hy => (L.within y (mem_header (hns y hy))).1) hj hs

/-- A statement of the header. -/
theorem stmt_follows (L : Looping i fn globals a fs sc m hd b ss) (hc : Calls i) (pl : Place)
    {s : Stmt Mark}
    (hsrc : s.isInit ∧ s.IsSource) {id : ScopeId}
    (hres : a.scoping.ResolvedStmt globals fs id false s) (hns : ∀ y ∈ s.nodes, y ∈ hd.nodes)
    (hj : j.Matches) (hs : j.Resides a.scoping id g env s.nodes (Opened fs id s.lexical?.isSome)) :
    Follows i (fun n => Eval.stmt n (s.map Mark.span) g) (fun k => stmt k a.scoping s pl env) j
      (Does j) :=
  simple_follows L.settled hc hsrc.1 hsrc.2 hres
    (fun y hy => (L.within y (mem_header (hns y hy))).1) hj hs

/-- The rounds of a `for` that counts, if the names in its header and its body mean what they should
    in every iteration. -/
theorem rounds_follows (L : Looping i fn globals a fs sc m (.counting k o c u) b ss) (hc : Calls i)
    (pl : Place) (env : Env) (copies : Bool) (J K : FrameId → Joint → Prop) (I : Joint → Prop)
    (ι : Interrupt → Joint → Prop) (hagree : ∀ {g j}, J g j → j.Matches)
    (hlater : ∀ {g j j'}, J g j → j'.Matches → j.Grows j' → J g j')
    (hI : ∀ {g j}, J g j → I j) (hι : ∀ {g j e}, J g j → ι (.failed e) j)
    (hs : ∀ {g j}, J g j → ∀ {ns : List (Node Mark)},
      (∀ y ∈ ns, y ∈ (Header.counting k o c u).nodes) →
      j.Resides a.scoping ((Header.counting k o c u).scopeIn m.id sc) g
        (Loop.headerEnv ⟨m, .counting k o c u, .mk b ss⟩ a.scoping pl env) ns (· = fs))
    (hb : ∀ {g j}, J g j → Follows i
      (fun n => Eval.goesOn (Eval.block n (.mk b.span (Stmt.mapList Mark.span ss)) g))
      (fun n => Eval.goesOn (body n a.scoping ⟨m, .counting k o c u, .mk b ss⟩ pl env)) j
      (Decides (K g) I ι))
    (hn : ∀ {g j}, K g j → ∃ g' j', (if copies then j.store.copy g else (g, j.store)) =
      (g', j'.store) ∧ j'.machine = j.machine ∧ J g' j') (h : J g j) :
    Follows i (fun n => Eval.countingLoop n copies (c.map (Expr.map Mark.span))
        (u.map (Stmt.map Mark.span)) (.mk b.span (Stmt.mapList Mark.span ss)) g)
      (fun n => rounds n a.scoping c u ⟨m, .counting k o c u, .mk b ss⟩ pl env) j
      (Either (fun _ => I) ι) := by
  obtain ⟨-, hsc, hsu⟩ := Header.shaped_counting.1 L.source
  obtain ⟨-, hrc, hru⟩ := Scoping.resolvedHeader_counting.1 L.header
  refine countingLoop_follows (fun {g j} h => ?_) hb hn (fun {g j} h => ?_) h
  · refine (condition_follows (hagree h) fun e he => ?_).imp fun r j' hr =>
      hr.decides (hlater h) (fun hj' hle => hI (hlater h hj' hle))
        fun _ hj' hle => hι (hlater h hj' hle)
    subst he
    exact L.expr_follows hc (hsc e rfl) (hrc e rfl) (fun y hy => Header.mem_nodes_condition hy)
      (hagree h) (hs h fun y hy => Header.mem_nodes_condition hy)
  · refine (update_follows (hagree h) fun s hu => ?_).imp fun r j' hr =>
      hr.either (fun _ => hlater h) fun _ hj' hle => hι (hlater h hj' hle)
    subst hu
    obtain ⟨hupdate, hsrc⟩ := hsu s rfl
    have hns : ∀ y ∈ s.nodes, y ∈ (Header.counting k o c (some s)).nodes := fun y hy =>
      Header.mem_nodes_update hy
    -- what comes last in a header declares nothing
    have hno : s.lexical? = none := by cases s <;> first | rfl | cases hupdate
    exact L.stmt_follows hc pl ⟨Resolve.isInit_of_isUpdate hupdate, hsrc⟩ (hru s rfl) hns (hagree h)
      ((hs h hns).sub (fun _ => id) fun s h => h.resolve_right (by simp [hno]))

/-! ## Loops without variables of their own -/

section Plain

variable (L : Looping i fn globals a fs sc m hd b ss) (hlex : Resolve.headerLexical? hd = none)
  (hs : j₀.Resides a.scoping sc f env (Stmt.loop m hd (.mk b ss)).nodes (· = fs))
  (hst : j₀.Stays a.scoping pl (Stmt.loop m hd (.mk b ss)).nodes)

include hlex in
/-- No scope is opened. -/
theorem scopeIn_plain : hd.scopeIn m.id sc = sc := by simp [Header.scopeIn, hlex]

include hlex in
/-- The header has no locations of its own. -/
theorem headerEnv_plain : Loop.headerEnv ⟨m, hd, .mk b ss⟩ a.scoping pl env = env :=
  funext fun x => by simp [Loop.headerEnv, Env.header, hlex]

include L hlex hs hst in
/-- The body of a loop whose header has no `let` or `const`. -/
theorem plainBody_follows (h : j₀.Since j) :
    Follows i (fun n => Eval.goesOn (Eval.block n (.mk b.span (Stmt.mapList Mark.span ss)) f))
      (fun k => Eval.goesOn (body k a.scoping ⟨m, hd, .mk b ss⟩ pl env)) j
      (Decides j₀.Since j₀.Since (j₀.Left pl jumps)) := by
  have hfresh : Loop.fresh ⟨m, hd, .mk b ss⟩ a.scoping = [] := by
    rw [Loop.fresh]
    split
    · rfl
    · simp [Scoping.freshOf, hlex]
  have hrun := L.sharedBody_follows hfresh h.agree (by
      rw [scopeIn_plain hlex, headerEnv_plain hlex]
      exact (hs.on fun y hy => mem_body hy).extends h.grows.toExtends)
    ((hst.grows h.grows).sub fun y hy => mem_body hy)
  exact hrun.goesOn (fun hr _ => h.later hr.agree hr.grows) (fun hr => h.later hr.agree hr.grows)
    fun hr hb hc => ⟨h.later hr.agree hr.grows, (hr.stop _ rfl).outer hb hc⟩

end Plain

/-- A loop while a condition holds. -/
theorem while_follows {e : Expr Mark} (L : Looping i fn globals a fs sc m (.whileTrue k e) b ss)
    (hc : Calls i) (hj : j.Matches)
    (hs : j.Resides a.scoping sc f env (Stmt.loop m (.whileTrue k e) (.mk b ss)).nodes (· = fs))
    (hst : j.Stays a.scoping pl (Stmt.loop m (.whileTrue k e) (.mk b ss)).nodes) :
    Follows i (fun n => Eval.loop n ((Header.whileTrue k e).map Mark.span)
        (.mk b.span (Stmt.mapList Mark.span ss)) f)
      (fun n => Regional.loop n a.scoping ⟨m, .whileTrue k e, .mk b ss⟩ pl env) j
      (Runs j pl jumps) := by
  have hns : ∀ y ∈ e.nodes, y ∈ (Header.whileTrue k e).nodes := fun y hy =>
    List.mem_cons_of_mem _ hy
  refine .steps rfl (fun _ => rfl) (fun _ => rfl) (whileLoop_follows (fun {j'} h => ?_)
    (L.plainBody_follows rfl hs hst) (.refl hj)).runs
  refine .right (k := j') (.step rfl fun _ => rfl) rfl ?_
  rw [headerEnv_plain rfl]
  exact (test_follows (L.expr_follows hc L.source L.header hns h.agree
    ((hs.on fun y hy => mem_header (hns y hy)).extends h.grows.toExtends))).imp fun _ _ hr =>
      hr.decides h.later h.later fun e hj' hle => (h.later hj' hle).fails e

/-- A `for` that counts without a variable of its own. -/
theorem counting_follows (L : Looping i fn globals a fs sc m (.counting k o c u) b ss)
    (hc : Calls i) (hlex : Resolve.headerLexical? (.counting k o c u) = none) (hj : j.Matches)
    (hs : j.Resides a.scoping sc f env (Stmt.loop m (.counting k o c u) (.mk b ss)).nodes (· = fs))
    (hst : j.Stays a.scoping pl (Stmt.loop m (.counting k o c u) (.mk b ss)).nodes) :
    Follows i (fun n => Eval.loop n ((Header.counting k o c u).map Mark.span)
        (.mk b.span (Stmt.mapList Mark.span ss)) f)
      (fun n => Regional.loop n a.scoping ⟨m, .counting k o c u, .mk b ss⟩ pl env) j
      (Runs j pl jumps) := by
  have hresides {j' : Joint} (h : j.Since j') {ns : List (Node Mark)}
      (hns : ∀ y ∈ ns, y ∈ (Header.counting k o c u).nodes) :
      j'.Resides a.scoping ((Header.counting k o c u).scopeIn m.id sc) f
        (Loop.headerEnv ⟨m, .counting k o c u, .mk b ss⟩ a.scoping pl env) ns (· = fs) := by
    rw [scopeIn_plain hlex, headerEnv_plain hlex]
    exact (hs.on fun y hy => mem_header (hns y hy)).extends h.grows.toExtends
  have hrounds {j' : Joint} (h : j.Since j') := (L.rounds_follows hc pl env false
    (fun g j' => g = f ∧ j.Since j') (fun g j' => g = f ∧ j.Since j') j.Since (j.Left pl jumps)
    (fun h => h.2.agree)
    (fun h hj' hle => ⟨h.1, h.2.later hj' hle⟩) (fun h => h.2) (fun h => h.2.fails _)
    (by
      rintro g j' ⟨rfl, h⟩
      exact hresides h)
    (by
      rintro g j' ⟨rfl, h⟩
      exact (L.plainBody_follows hlex hs hst h).imp fun r j'' hr => by
        cases r with
        | ok t => cases t with
          | true => exact ⟨rfl, hr⟩
          | false => exact hr
        | error w => exact hr)
    (fun {g j'} h => ⟨g, j', rfl, rfl, h⟩) ⟨rfl, h⟩).runs
  rw [Header.map_counting]
  cases o with
  | none => exact .steps rfl (fun _ => rfl) (fun _ => rfl) (hrounds (.refl hj))
  | some s =>
    have hno : s.lexical? = none := hlex
    have hfirst (n : Nat) : Eval.loop (n + 1) (.counting k.span (some (s.map Mark.span))
        (c.map (Expr.map Mark.span)) (u.map (Stmt.map Mark.span)))
        (.mk b.span (Stmt.mapList Mark.span ss)) f = Eval.stmt n (s.map Mark.span) f >>= fun _ =>
          Eval.countingLoop n false (c.map (Expr.map Mark.span)) (u.map (Stmt.map Mark.span))
            (.mk b.span (Stmt.mapList Mark.span ss)) f := by
      rw [Eval.loop_counting, Eval.copied?_eq, Stmt.lexical?_map, hno]
      rfl
    have hns : ∀ y ∈ s.nodes, y ∈ (Header.counting k (some s) c u).nodes := fun y hy =>
      Header.mem_nodes_init hy
    refine .steps rfl hfirst (fun _ => rfl) ((L.stmt_follows hc pl
      ((Header.shaped_counting.1 L.source).1 s rfl)
      ((Scoping.resolvedHeader_counting.1 L.header).1 s rfl) hns hj
      ((hresides (.refl hj) hns).sub (fun _ => id) fun s h => h.resolve_right (by simp [hno]))).bind
      (fun w j' hq => .error hq.agree hq.grows (hq.stop w rfl).leaving)
      fun _ j' hq => hrounds ⟨hq.agree, hq.grows⟩)

/-! ## Loops that count with a variable of their own -/

/-- A loop with frames for its iterations has ended. -/
def Over (j₀ : Joint) (a : Scoping) (f : FrameId) (loop : ScopeId) (j : Joint) : Prop :=
  ∃ g, j₀.Turned j a f g loop

/-- A loop with frames for its iterations is left. -/
def Quit (j₀ : Joint) (a : Scoping) (f : FrameId) (loop : ScopeId) (pl : Place) (jumps : Bool)
    (w : Interrupt) (j : Joint) : Prop := ∃ g, j₀.Turned j a f g loop ∧ Leaving pl jumps j w

/-- The lodgers of the last frame move out. -/
theorem over_runs (sco : Scoping) (f : FrameId) (loop : ScopeId) {x : Nat → FlatScope.Run Unit}
    {y : Nat → Run Unit} (h : Follows i x y j (Either (fun _ => Over j₀ sco f loop)
      (Quit j₀ sco f loop pl jumps))) : Follows i x y j (Runs j₀ pl jumps) := by
  refine h.relink fun r j' hr => ?_
  cases r with
  | ok u =>
    obtain ⟨g, hT⟩ := hr
    exact ⟨j'.forget g, rfl, rfl, .ok (hT.agree.forget g) hT.grows trivial⟩
  | error w =>
    obtain ⟨g, hT, hw⟩ := hr
    exact ⟨j'.forget g, rfl, rfl, .error (hT.agree.forget g) hT.grows hw⟩

section Turning

variable {d : Binding} {l : Location}

/-- The names in the header of a loop in an iteration. No function in the header uses the
    variable. -/
theorem header_resides (L : Looping i fn globals a fs sc m (.counting k o c u) b ss)
    (hsome : (Resolve.headerLexical? (.counting k o c u)).isSome)
    (H : Heads a.scoping m.id sc pl env
      (Loop.headerEnv ⟨m, .counting k o c u, .mk b ss⟩ a.scoping pl env) d l)
    (hs : j₀.Resides a.scoping sc f env (Stmt.loop m (.counting k o c u) (.mk b ss)).nodes (· = fs))
    (h : j₀.Turn j a.scoping f g m.id d.name l) {ns : List (Node Mark)}
    (hns : ∀ y ∈ ns, y ∈ (Header.counting k o c u).nodes) {opened : ScopeId → Prop}
    (ho : ∀ s, s ≠ m.id → opened s → s = fs) :
    j.Resides a.scoping ((Header.counting k o c u).scopeIn m.id sc) g
      (Loop.headerEnv ⟨m, .counting k o c u, .mk b ss⟩ a.scoping pl env) ns opened := by
  rw [show (Header.counting k o c u).scopeIn m.id sc = m.id from if_pos hsome]
  exact h.resides L.settled.analysed.consistent H hs (fun y hy => mem_header (hns y hy)) ho
    fun hc => L.settled.closed _ L.node _ rfl d H.mem H.scope (hc.mono hns)

/-- The rounds of a `for` that counts, from the frame of an iteration on. -/
theorem turns_follow (L : Looping i fn globals a fs sc m (.counting k o c u) b ss) (hc : Calls i)
    (hsome : (Resolve.headerLexical? (.counting k o c u)).isSome)
    (hfresh : Loop.fresh ⟨m, .counting k o c u, .mk b ss⟩ a.scoping = [] ∨
      Loop.fresh ⟨m, .counting k o c u, .mk b ss⟩ a.scoping = [d.id] ∧
        l = ⟨pl.activation, .driver d.id⟩)
    (H : Heads a.scoping m.id sc pl env
      (Loop.headerEnv ⟨m, .counting k o c u, .mk b ss⟩ a.scoping pl env) d l)
    (hs : j₀.Resides a.scoping sc f env (Stmt.loop m (.counting k o c u) (.mk b ss)).nodes (· = fs))
    (hst : j₀.Stays a.scoping pl (Stmt.loop m (.counting k o c u) (.mk b ss)).nodes)
    (hl : l.activation < j₀.machine.activations) (hfree : j₀.Free l)
    (h : j₀.Turn j a.scoping f g m.id d.name l) :
    Follows i (fun n => Eval.countingLoop n true (c.map (Expr.map Mark.span))
        (u.map (Stmt.map Mark.span)) (.mk b.span (Stmt.mapList Mark.span ss)) g)
      (fun n => rounds n a.scoping c u ⟨m, .counting k o c u, .mk b ss⟩ pl env) j
      (Either (fun _ => Over j₀ a.scoping f m.id) (Quit j₀ a.scoping f m.id pl jumps)) :=
  -- after the body, the variable may have moved, but the copy lodges where it did
  L.rounds_follows hc pl env true (fun g j => j₀.Turn j a.scoping f g m.id d.name l)
    (fun g j => j₀.Turned j a.scoping f g m.id ∧ j.Carries g d.name l) (Over j₀ a.scoping f m.id)
    (Quit j₀ a.scoping f m.id pl jumps) (fun h => h.agree) (fun h hj' hle => h.later hj' hle)
    (fun h => ⟨_, h.toTurned⟩) (fun h => ⟨_, h.toTurned, trivial⟩)
    (fun h _ hns => L.header_resides hsome H hs h hns fun _ _ => id)
    (fun h => (L.turnBody_follows hsome hfresh H h hs hst).goesOn
      (fun hr hgo => ⟨hr.toTurned, hr.carries rfl hgo⟩) (fun hr => ⟨_, hr.toTurned⟩)
      fun hr hb hc => ⟨_, hr.toTurned, (hr.leaving _ rfl).outer hb hc⟩)
    (fun h => h.1.copy h.2 hs.frame hl hfree) h

end Turning

/-- A `for` that counts with a variable of its own. -/
theorem turning_follows (L : Looping i fn globals a fs sc m (.counting k o c u) b ss)
    (hc : Calls i) {x : Lexical Mark} (hlex : Resolve.headerLexical? (.counting k o c u) = some x)
    (hj : j.Matches)
    (hs : j.Resides a.scoping sc f env (Stmt.loop m (.counting k o c u) (.mk b ss)).nodes (· = fs))
    (hst : j.Stays a.scoping pl (Stmt.loop m (.counting k o c u) (.mk b ss)).nodes) :
    Follows i (fun n => Eval.loop n ((Header.counting k o c u).map Mark.span)
        (.mk b.span (Stmt.mapList Mark.span ss)) f)
      (fun n => Regional.loop n a.scoping ⟨m, .counting k o c u, .mk b ss⟩ pl env) j
      (Runs j pl jumps) := by
  have hsome : (Resolve.headerLexical? (.counting k o c u)).isSome := by rw [hlex]; rfl
  have hscope : (Header.counting k o c u).scopeIn m.id sc = m.id := if_pos hsome
  obtain ⟨d, l, hname, -, -, H, hfresh⟩ := heads L.settled.analysed L.opens hlex pl env (.mk b ss)
  have hl : l.activation < j.machine.activations := H.activation ▸ hst.known
  have hfree : j.Free l := hst.free H.activation H.mem H.slot.symm
    ⟨_, List.mem_cons_self, H.scope.symm⟩
  obtain ⟨s, rfl⟩ : ∃ s, o = some s := by
    cases o with
    | none => cases hlex
    | some s => exact ⟨s, rfl⟩
  -- the first frame, in which the variable gets its value
  have hfirst := Turn.enter hj (.refl hj) rfl hs.frame
    (L.opens.opens L.settled.analysed.consistent hlex f none) hl hfree (n := d.name)
    fun {v c'} hv => by
      have hmem := List.mem_singleton.1 (Table.mem_of_lookup hv)
      simp at hmem
  have hns : ∀ y ∈ s.nodes, y ∈ (Header.counting k (some s) c u).nodes := fun y hy =>
    Header.mem_nodes_init hy
  have hinit := L.stmt_follows hc pl ((Header.shaped_counting.1 L.source).1 s rfl)
    ((Scoping.resolvedHeader_counting.1 L.header).1 s rfl) hns hfirst.agree
    (L.header_resides hsome H hs hfirst hns fun s hs h =>
      h.resolve_right fun h => hs (h.2.trans hscope))
  have hcopied : Eval.copied? (some (s.map Mark.span)) = some (x.name, x.kind) := by
    rw [Eval.copied?_eq, Stmt.lexical?_map, show s.lexical? = some x from hlex]
    rfl
  rw [Header.map_counting]
  refine over_runs a.scoping f m.id (.leads (.step rfl fun n => ?_) (.step rfl fun k => ?_)
    (hinit.bind (f := fun n _ => Process.make (fun s => s.copy j.store.frames.size) >>= fun env =>
      Eval.countingLoop n true (c.map (Expr.map Mark.span)) (u.map (Stmt.map Mark.span))
        (.mk b.span (Stmt.mapList Mark.span ss)) env)
    (g := fun n _ => rounds n a.scoping c u ⟨m, .counting k (some s) c u, .mk b ss⟩ pl env)
    (fun w j' hq => ?_) fun _ j' hq => ?_))
  · rw [Option.map_some, Eval.loop_counting, hcopied]
    rfl
  · rfl
  · exact ⟨_, (hfirst.later hq.agree hq.grows).toTurned, (hq.stop w rfl).leaving⟩
  · -- the rounds begin in a copy of the first frame, which the machine does not notice
    have hT := hfirst.later hq.agree hq.grows
    obtain ⟨g', j'', hnext, hm, hT'⟩ := hT.toTurned.copy hT.carries hs.frame hl hfree
    refine .leads (.of_eq fun n => ?_) (.of_eq fun n => ?_)
      (L.turns_follow hc hsome hfresh H hs hst hl hfree hT')
    · exact bind_ok (a := g') (by rw [Process.make, hnext]; rfl)
    · rw [hm]

/-! ## Loops over sequences -/

section Elements

variable {n : Name} {d : Option DeclKind} {e : Expr Mark}

/-- The sequence of a loop, which then goes over the elements. -/
theorem sequence_follows (L : Looping i fn globals a fs sc m (.forOf k n d e) b ss) (hc : Calls i)
    (hj : j.Matches)
    (hs : j.Resides a.scoping sc f env (Stmt.loop m (.forOf k n d e) (.mk b ss)).nodes (· = fs))
    (h : ∀ q j', j.Since j' → Follows i
      (fun n' => Eval.forOfLoop n' q 0 n d (.mk b.span (Stmt.mapList Mark.span ss)) f)
      (fun k' => elements k' a.scoping q 0 k n d ⟨m, .forOf k n d e, .mk b ss⟩ pl env) j'
      (Runs j pl jumps)) :
    Follows i (fun n' => Eval.loop n' ((Header.forOf k n d e).map Mark.span)
        (.mk b.span (Stmt.mapList Mark.span ss)) f)
      (fun k' => Regional.loop k' a.scoping ⟨m, .forOf k n d e, .mk b ss⟩ pl env) j
      (Runs j pl jumps) := by
  have hns : ∀ y ∈ e.nodes, y ∈ (Header.forOf k n d e).nodes := fun y hy =>
    List.mem_cons_of_mem _ hy
  have hres : a.scoping.ResolvedExpr globals sc e := L.header.1
  refine .steps rfl (fun _ => rfl) (fun _ => rfl) ((L.expr_follows hc L.source hres hns hj
    (hs.on fun y hy => mem_header (hns y hy))).bind
    (fun w j' hq => .error hq.agree hq.grows (hq.stop w rfl).leaving) fun v j₁ hq => ?_)
  refine (Joint.sequence_follows hq.agree (hq.result v rfl)).bind
    (fun w j' hw => .error hw.agree (hq.grows.trans hw.grows) (hw.stop w rfl).leaving)
    fun q j₂ hw => h q j₂ ⟨hw.agree, hq.grows.trans hw.grows⟩

/-- A loop that assigns the elements to a variable from outside of it. -/
theorem assigning_follows (L : Looping i fn globals a fs sc m (.forOf k n d e) b ss)
    (hc : Calls i) (hlex : Resolve.headerLexical? (.forOf k n d e) = none) (hj : j.Matches)
    (hs : j.Resides a.scoping sc f env (Stmt.loop m (.forOf k n d e) (.mk b ss)).nodes (· = fs))
    (hst : j.Stays a.scoping pl (Stmt.loop m (.forOf k n d e) (.mk b ss)).nodes) :
    Follows i (fun n' => Eval.loop n' ((Header.forOf k n d e).map Mark.span)
        (.mk b.span (Stmt.mapList Mark.span ss)) f)
      (fun k' => Regional.loop k' a.scoping ⟨m, .forOf k n d e, .mk b ss⟩ pl env) j
      (Runs j pl jumps) := by
  have ha := L.settled.analysed.consistent
  have hset {v : Value} {j' : Joint} (h : j.Since j') (hv : j'.Has v) {i' : Nat} :
      Follows i' (fun _ => Eval.setVariable f n v)
        (fun _ => startElement a.scoping k.id n d v env) j' (Does j') := by
    have hs' := hs.extends h.grows.toExtends
    cases d with
    | none =>
      exact assignName_follows h.agree hs' ha L.settled.analysed.constants L.header.2
        (fun x hx => ⟨_, mem_header List.mem_cons_self, k.id, rfl, hx⟩) hv
    | some d =>
      cases d with
      | var => exact declare_follows h.agree hs' L.header.2.1 rfl ha hv
      | letVar | const => cases hlex
  have hframe (v : Value) :
      Eval.elementFrame n d v f = Eval.setVariable f n v >>= fun _ => pure f := by
    cases d with
    | none => rfl
    | some d =>
      cases d with
      | var => rfl
      | letVar | const => cases hlex
  refine L.sequence_follows hc hj hs fun q j' h => (elements_follows (I := j.Since)
    (J := fun g j' => g = f ∧ j.Since j') (fun h => h.agree)
    (fun h hj' hle => ⟨h.later hj' hle, (h.later hj' hle).fails _⟩)
    (fun {j' v} h hv F G i' hi hF => ?_) ?_ h).runs
  · rw [headerEnv_plain hlex]
    simp only [hframe, bind_assoc']
    exact (hset h hv).bind (fun w j'' hq => ⟨h.later hq.agree hq.grows, (hq.stop w rfl).leaving⟩)
      fun _ j'' hq => hF f j'' ⟨rfl, h.later hq.agree hq.grows⟩
  · rintro g j' ⟨rfl, h⟩
    exact L.plainBody_follows hlex hs hst h

/-- An element gets a frame, in which its variable is at the location of the machine. -/
theorem element_enters (L : Looping i fn globals a fs sc m (.forOf k n d e) b ss)
    {x : Lexical Mark} (hlex : Resolve.headerLexical? (.forOf k n d e) = some x)
    {b' : Binding} (hdecl : a.scoping.declared? x.mark.id = some b') {l : Location}
    (H : Heads a.scoping m.id sc pl env
      (Loop.headerEnv ⟨m, .forOf k n d e, .mk b ss⟩ a.scoping pl env) b' l)
    (hf : f < j₀.store.frames.size) (hl : l.activation < j₀.machine.activations)
    (hfree : j₀.Free l) (h : j₀.Since j) {v : Value} (hv : j.Has v) : ∃ j' g,
      j₀.Turn j' a.scoping f g m.id b'.name l ∧
      Eval.elementFrame n d v f j.store = .done g j'.store ∧
      startElement a.scoping k.id n d v
        (Loop.headerEnv ⟨m, .forOf k n d e, .mk b ss⟩ a.scoping pl env) j.machine =
        .done () j'.machine := by
  -- the machine gives the location the element, then the frame is there for it
  obtain ⟨hj₁, hle⟩ := h.agree.leaves ((Leaves.refl j).set (h.grows.free hl hfree) (v := v))
  refine ⟨_, _, Turn.enter hj₁ (h.grows.trans hle) rfl (h.grows.later.lt hf)
    (L.opens.opens L.settled.analysed.consistent hlex f (some v)) hl hfree fun {u c} hu => ?_, ?_⟩
  · have hmem := List.mem_singleton.1 (Table.mem_of_lookup hu)
    obtain ⟨-, hcell⟩ := Prod.mk.inj hmem
    cases hcell
    change Value.Like _ v ((j.machine.set l v).cells l)
    rw [Machine.set_cells_same]
    exact hv
  · have hdeclare : declare a.scoping x.mark.id v (Loop.headerEnv ⟨m, .forOf k n d e, .mk b ss⟩
        a.scoping pl env) = Regional.set l v := by
      rw [declare, hdecl]
      exact congrArg (Regional.set · v) H.own
    rcases d with _ | _ | _ | _ <;> cases hlex <;> exact ⟨rfl, congrFun hdeclare j.machine⟩

/-- A loop with a variable for the elements. -/
theorem declaring_follows (L : Looping i fn globals a fs sc m (.forOf k n d e) b ss)
    (hc : Calls i) {x : Lexical Mark} (hlex : Resolve.headerLexical? (.forOf k n d e) = some x)
    (hj : j.Matches)
    (hs : j.Resides a.scoping sc f env (Stmt.loop m (.forOf k n d e) (.mk b ss)).nodes (· = fs))
    (hst : j.Stays a.scoping pl (Stmt.loop m (.forOf k n d e) (.mk b ss)).nodes) :
    Follows i (fun n' => Eval.loop n' ((Header.forOf k n d e).map Mark.span)
        (.mk b.span (Stmt.mapList Mark.span ss)) f)
      (fun n' => Regional.loop n' a.scoping ⟨m, .forOf k n d e, .mk b ss⟩ pl env) j
      (Runs j pl jumps) := by
  have hsome : (Resolve.headerLexical? (.forOf k n d e)).isSome := by rw [hlex]; rfl
  obtain ⟨b', l, hname, hdecl, -, H, hfresh⟩ :=
    heads L.settled.analysed L.opens hlex pl env (.mk b ss)
  have hl : l.activation < j.machine.activations := H.activation ▸ hst.known
  have hfree : j.Free l := hst.free H.activation H.mem H.slot.symm
    ⟨_, List.mem_cons_self, H.scope.symm⟩
  refine L.sequence_follows hc hj hs fun q j' h => (elements_follows (I := j.Since)
    (J := fun g j' => j.Turn j' a.scoping f g m.id b'.name l) (fun h => h.agree)
    (fun h hj' hle => ⟨h.later hj' hle, (h.later hj' hle).fails _⟩)
    (fun {j' v} h hv F G i' hi hF => ?_) (fun {g j'} h => ?_) h).runs
  · obtain ⟨j'', g, hturn, hframe, hstart⟩ :=
      L.element_enters hlex hdecl H hs.frame hl hfree h hv
    exact .leads (.of_eq fun n' => bind_ok hframe) (.of_eq fun k' => bind_ok hstart)
      (hF g j'' hturn)
  · -- the next element gets a new frame, so the lodgers of this one move out at once
    refine ((L.turnBody_follows hsome hfresh H h hs hst).relink (R := fun r j' => j.Since j' ∧
      ∀ w, r = .error w → Leaving { pl with inLoop := true } true j' w) fun r j' hr =>
        ⟨j'.forget g, rfl, rfl, ⟨hr.agree.forget g, hr.grows⟩, hr.leaving⟩).goesOn
      (fun hr _ => hr.1) (fun hr => hr.1) fun hr hb hc => ⟨hr.1, (hr.2 _ rfl).outer hb hc⟩

end Elements

/-- The machine follows a loop if it follows the body. -/
theorem follows (L : Looping i fn globals a fs sc m hd b ss) (hc : Calls i) (hj : j.Matches)
    (hs : j.Resides a.scoping sc f env (Stmt.loop m hd (.mk b ss)).nodes (· = fs))
    (hst : j.Stays a.scoping pl (Stmt.loop m hd (.mk b ss)).nodes) :
    Follows i (fun n => Eval.loop n (hd.map Mark.span) (.mk b.span (Stmt.mapList Mark.span ss)) f)
      (fun n => Regional.loop n a.scoping ⟨m, hd, .mk b ss⟩ pl env) j (Runs j pl jumps) := by
  cases hlex : Resolve.headerLexical? hd with
  | none =>
    cases hd with
    | whileTrue k c => exact L.while_follows hc hj hs hst
    | counting k o c u => exact L.counting_follows hc hlex hj hs hst
    | forOf k n d e => exact L.assigning_follows hc hlex hj hs hst
    | unknown => exact L.source.elim
  | some x =>
    cases hd with
    | whileTrue k c => cases hlex
    | counting k o c u => exact L.turning_follows hc hlex hj hs hst
    | forOf k n d e => exact L.declaring_follows hc hlex hj hs hst
    | unknown => cases hlex

end Looping

end Regional.Joint

end FlatScope
