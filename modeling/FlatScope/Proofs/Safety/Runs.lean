import FlatScope.Proofs.Run.Steps
import FlatScope.Proofs.Safety.Entered

/-!
# Well-scoped runs

A well-scoped piece in a good store starts well-scoped pieces in good stores
(`Eval.Setting.Ready.starts`), and so it ends as it may (`Ready.ends`). By induction on the number
of steps this holds of all pieces, and by induction on the steps from piece to piece of every moment
of a run (`Ready.visits`).
-/

namespace FlatScope.Eval

variable {p q : Point}

/-- A piece is run within one step less. -/
theorem Starts.fuel_eq (h : Starts p q) : p.fuel = q.fuel + 1 := by cases h <;> rfl

/-- Whether jumps may leave the pieces that a piece starts. -/
def Task.inside (jumps : Bool) : Task → Bool
  | .stmts .. | .block .. | .stmt .. => jumps
  | .whileLoop .. | .countingLoop .. | .forOfLoop .. => true
  | _ => false

namespace Setting

variable {S : Setting} {s t : Store} {f : FrameId} {jumps : Bool} {n : Nat} {k : Closure}

/-- A moment at which a well-scoped piece is about to run. -/
structure Ready (S : Setting) (jumps : Bool) (p : Point) : Prop where
  visited : S.visited p
  good : S.Good p.store
  fits : S.Fits p.store jumps p.task

/-- The piece ends as it may. -/
def Ends (S : Setting) (jumps : Bool) (p : Point) : Prop :=
  match p.task with
  | .expr e f => S.Goes false false p.store (expr p.fuel e f p.store)
  | .exprs es f => S.Goes false false p.store (exprs p.fuel es f p.store)
  | .call g args => S.Goes false false p.store (call p.fuel g args p.store)
  | .callClosure c args => S.Goes false false p.store (callClosure p.fuel c args p.store)
  | .stmts ss f => S.Goes true jumps p.store (stmts p.fuel ss f p.store)
  | .block b f => S.Goes true jumps p.store (block p.fuel b f p.store)
  | .stmt x f => S.Goes true jumps p.store (stmt p.fuel x f p.store)
  | .assign x v f => S.Goes false false p.store (assign p.fuel x v f p.store)
  | .loop h b f => S.Goes true false p.store (loop p.fuel h b f p.store)
  | .whileLoop c b f => S.Goes true false p.store (whileLoop p.fuel c b f p.store)
  | .countingLoop copies c u b f =>
    S.Goes true false p.store (countingLoop p.fuel copies c u b f p.store)
  | .condition c f => S.Goes false false p.store (condition p.fuel c f p.store)
  | .update u f => S.Goes true false p.store (update p.fuel u f p.store)
  | .forOfLoop r i x d b f => S.Goes true false p.store (forOfLoop p.fuel r i x d b f p.store)

/-! ## From piece to piece -/

section Starts

/-- A piece goes on to a well-scoped one in a good store. -/
abbrev Next (S : Setting) (jumps : Bool) (q : Point) : Prop :=
  S.Good q.store ∧ S.Fits q.store jumps q.task

/-- What an expression starts is a piece that the setting knows, provided what started before it
    went well. -/
theorem starts_expr {e : Expr Span} (he : S.IsExpr s f e) (hg : S.Good s)
    (go : ∀ {q}, Starts ⟨n + 1, k, .expr e f, s⟩ q → S.Next false q → S.Ends false q)
    (h : Starts ⟨n + 1, k, .expr e f, s⟩ q) : S.Next false q := by
  cases h with
  | operand => exact ⟨hg, he.unary.1⟩
  | left => exact ⟨hg, he.binary.1⟩
  | right hl =>
    obtain ⟨hlater, hg'⟩ := Goes.of_done (go .left ⟨hg, he.binary.1⟩) hl
    exact ⟨hg', he.binary.2.1.later hlater⟩
  | callee => exact ⟨hg, he.call.1⟩
  | arguments hf =>
    obtain ⟨hlater, hg'⟩ := Goes.of_done (go .callee ⟨hg, he.call.1⟩) hf
    exact ⟨hg', he.call.2.later hlater⟩
  | call hf hargs =>
    obtain ⟨hlater, hg'⟩ := Goes.of_done (go .callee ⟨hg, he.call.1⟩) hf
    exact ⟨(Goes.of_done (go (.arguments hf) ⟨hg', he.call.2.later hlater⟩) hargs).2, trivial⟩
  | elements => exact ⟨hg, he.array⟩
  | base => exact ⟨hg, he.index.1⟩
  | position hb =>
    obtain ⟨hlater, hg'⟩ := Goes.of_done (go .base ⟨hg, he.index.1⟩) hb
    exact ⟨hg', he.index.2.later hlater⟩
  | carried => exact ⟨hg, he.signal⟩
  | tested => exact ⟨hg, he.signalIs⟩
  | opened => exact ⟨hg, he.signalValue.1⟩

/-- What a statement starts is a piece that the setting knows. -/
theorem starts_stmt {x : Stmt Span} (hx : S.IsStmt s jumps f x) (hg : S.Good s)
    (go : ∀ {q}, Starts ⟨n + 1, k, .stmt x f, s⟩ q → S.Next jumps q → S.Ends jumps q)
    (h : Starts ⟨n + 1, k, .stmt x f, s⟩ q) : S.Next jumps q := by
  cases h with
  | initial => exact ⟨hg, (hx.declaration hg).2 _ rfl⟩
  | assigned => exact ⟨hg, hx.assignment.2⟩
  | target he =>
    obtain ⟨hlater, hg'⟩ := Goes.of_done (go .assigned ⟨hg, hx.assignment.2⟩) he
    exact ⟨hg', hx.assignment.1.later hlater⟩
  | expression => exact ⟨hg, hx.expression⟩
  | block => exact ⟨hg, hx.block⟩
  | test => exact ⟨hg, hx.branch.1⟩
  | consequent hc =>
    obtain ⟨hlater, hg'⟩ := Goes.of_done (go .test ⟨hg, hx.branch.1⟩) hc
    exact ⟨hg', hx.branch.2.1.later hlater⟩
  | alternative hc =>
    obtain ⟨hlater, hg'⟩ := Goes.of_done (go .test ⟨hg, hx.branch.1⟩) hc
    exact ⟨hg', (hx.branch.2.2 _ rfl).later hlater⟩
  | loop => exact ⟨hg, hx.loop⟩
  | returned => exact ⟨hg, hx.ret⟩

/-- The frame that a piece makes when it starts another one. -/
theorem made {p : Point} (hp : S.visited p) (h : Starts p q) {g : FrameId}
    (hq : q.task.env? = some g) (fn : FunctionDef Mark) (id : NodeId) (he : p.task.Enters fn id)
    (hle : p.store.frames.size ≤ g) : S.Made fn id g := ⟨p, q, hp, h, he, hq, hle⟩

/-- What a loop starts is a piece that the setting knows. -/
theorem starts_loop {hd : Header Span} {b : Block Span} (hL : S.Fits s false (.loop hd b f))
    (hg : S.Good s) (hv : S.visited ⟨n + 1, k, .loop hd b f, s⟩)
    (go : ∀ {q}, Starts ⟨n + 1, k, .loop hd b f, s⟩ q → S.Next false q → S.Ends false q)
    (h : Starts ⟨n + 1, k, .loop hd b f, s⟩ q) : S.Next false q := by
  cases h with
  | whileLoop => exact ⟨hg, hL.whileTrue⟩
  | initCopied hi hf =>
    obtain ⟨-, hg', hfirst, fn, m, he, hmade⟩ := Fits.first hL hg hi hf
    exact ⟨hg', (hmade (made hv (.initCopied hi hf) rfl fn m.id he (Nat.le_of_eq hfirst.symm))).1⟩
  | countingCopied hi hf hr =>
    obtain ⟨hlater, hg', hfirst, fn, m, he, hmade⟩ := Fits.first hL hg hi hf
    obtain ⟨hx, hc⟩ :=
      hmade (made hv (.initCopied hi hf) rfl fn m.id he (Nat.le_of_eq hfirst.symm))
    obtain ⟨hlater', hg''⟩ := Goes.of_done (go (.initCopied hi hf) ⟨hg', hx⟩) hr
    obtain ⟨-, hg₃, hnext⟩ := (hc.later hlater').next hg'' (if_pos rfl)
    refine ⟨hg₃, fn, m, hnext fun hle => made hv (.countingCopied hi hf hr) rfl fn m.id he ?_⟩
    exact Nat.le_trans (hlater.trans hlater').size_le hle
  | init hi => exact ⟨hg, (Fits.plain hL hi).1 _ rfl⟩
  | countingInit hi hs =>
    obtain ⟨hinit, fn, m, hc⟩ := Fits.plain hL hi
    obtain ⟨hlater, hg'⟩ := Goes.of_done (go (.init hi) ⟨hg, hinit _ rfl⟩) hs
    exact ⟨hg', fn, m, hc.later hlater⟩
  | counting =>
    obtain ⟨-, hc⟩ := Fits.plain hL rfl
    exact ⟨hg, hc⟩
  | sequence => exact ⟨hg, (Fits.sequence hL (.text [])).1⟩
  | forOfLoop he hq =>
    obtain ⟨hlater, hg'⟩ := Goes.of_done (go .sequence ⟨hg, (Fits.sequence hL (.text [])).1⟩) he
    obtain ⟨hlater', hg''⟩ := (Goes.sequenceOf hg' : S.Goes false false _ _).of_done hq
    exact ⟨hg'', Fits.later (Fits.sequence hL _).2 (hlater.trans hlater')⟩

theorem starts_countingLoop {copies : Bool} {c : Option (Expr Span)} {u : Option (Stmt Span)}
    {b : Block Span} (hL : S.Fits s false (.countingLoop copies c u b f)) (hg : S.Good s)
    (hv : S.visited ⟨n + 1, k, .countingLoop copies c u b f, s⟩)
    (go : ∀ {q}, Starts ⟨n + 1, k, .countingLoop copies c u b f, s⟩ q → S.Next true q →
    S.Ends true q)
    (h : Starts ⟨n + 1, k, .countingLoop copies c u b f, s⟩ q) : S.Next true q := by
  obtain ⟨fn, m, hL⟩ := hL
  -- what holds after the condition and the body
  have htest : ∀ {r}, condition n c f s = .done true r → s.Later r ∧ S.Good r := fun hc =>
    Goes.of_done (go .countingTest ⟨hg, hL.parts.1⟩) hc
  have hround : ∀ {r z}, condition n c f s = .done true r → goesOn (block n b f) r = .done true z →
      s.Later z ∧ S.Good z := fun {r z} hc hb => by
    obtain ⟨hlater, hg'⟩ := htest hc
    have hbody : S.Goes true true r (block n b f r) :=
      go (.countingBody hc) ⟨hg', hL.parts.2.2.later hlater⟩
    obtain ⟨hlater', hg''⟩ := hbody.goesOn.of_done hb
    exact ⟨hlater.trans hlater', hg''⟩
  cases h with
  | countingTest => exact ⟨hg, hL.parts.1⟩
  | countingBody hc =>
    obtain ⟨hlater, hg'⟩ := htest hc
    exact ⟨hg', hL.parts.2.2.later hlater⟩
  | countingUpdate hc hb hr =>
    obtain ⟨hlater, hg'⟩ := hround hc hb
    obtain ⟨-, hg'', hnext⟩ := (hL.later hlater).next hg' hr
    refine ⟨hg'', (hnext fun hle => made hv (.countingUpdate hc hb hr) rfl fn m.id hL.enters
      ?_).parts.2.1⟩
    exact Nat.le_trans hlater.size_le hle
  | countingAgain hc hb hr hu =>
    obtain ⟨hlater, hg'⟩ := hround hc hb
    obtain ⟨-, hg'', hnext⟩ := (hL.later hlater).next hg' hr
    have hL' := hnext fun hle => made hv (.countingUpdate hc hb hr) rfl fn m.id hL.enters
      (Nat.le_trans hlater.size_le hle)
    obtain ⟨hlater', hg₃⟩ := Goes.of_done (go (.countingUpdate hc hb hr) ⟨hg'', hL'.parts.2.1⟩) hu
    exact ⟨hg₃, fn, m, hL'.later hlater'⟩

/-- A well-scoped piece starts well-scoped pieces, if what ends before them ends as it may. -/
theorem Ready.starts (hp : S.Ready jumps p)
    (ih : ∀ {q jumps}, p.fuel = q.fuel + 1 → S.Ready jumps q → S.Ends jumps q) (h : Starts p q) :
    S.Ready (p.task.inside jumps) q := by
  have go : ∀ {q j}, Starts p q → S.Next j q → S.Ends j q := fun h hq =>
    ih h.fuel_eq ⟨S.starts hp.visited h, hq.1, hq.2⟩
  suffices hnext : S.Next (p.task.inside jumps) q from ⟨S.starts hp.visited h, hnext.1, hnext.2⟩
  obtain ⟨hv, hg, hf⟩ := hp
  obtain ⟨m, c, task, s⟩ := p
  obtain ⟨n, d, task', s'⟩ := q
  obtain rfl : m = n + 1 := h.fuel_eq
  dsimp only at hg hf
  cases task with
  | expr e f => exact starts_expr hf hg go h
  | stmt x f => exact starts_stmt hf hg go h
  | loop hd b f => exact starts_loop hf hg hv go h
  | countingLoop copies e u b f => exact starts_countingLoop hf hg hv go h
  | call g args =>
    cases h with
    | @closure _ _ i =>
      refine ⟨hg, ?_⟩
      change S.Represents s (s.closures[i]?.getD default)
      cases hi : s.closures[i]? with
      | some c => exact hg.closures hi
      | none => exact .nothing rfl
  | callClosure c args =>
    cases h with
    | body hc =>
      obtain ⟨fr, hfr, hg', hbody⟩ := Represents.enters hf hg args
      obtain rfl := Except.ok.inj (hc.symm.trans hfr)
      exact ⟨hg', hbody fun fn id he => made hv (.body hc) rfl fn id he (Nat.le_refl _)⟩
  | exprs es f =>
    cases h with
    | head => exact ⟨hg, (AreExprs.cons hf).1⟩
    | tail he =>
      obtain ⟨hlater, hg'⟩ := Goes.of_done (go (j := false) .head ⟨hg, (AreExprs.cons hf).1⟩) he
      exact ⟨hg', (AreExprs.cons hf).2.later hlater⟩
  | stmts ss f =>
    cases h with
    | first => exact ⟨hg, (AreStmts.cons (hf.resolve_left nofun)).1⟩
    | rest hx =>
      obtain ⟨hfirst, hrest⟩ := AreStmts.cons (hf.resolve_left nofun)
      obtain ⟨hlater, hg'⟩ := Goes.of_done (go (j := jumps) .first ⟨hg, hfirst⟩) hx
      exact ⟨hg', .inr (hrest.later hlater)⟩
  | block b f =>
    cases h with
    | inner hb =>
      obtain ⟨inner, t, hdone, -, hg', hss⟩ := IsBlock.enters hf hg
      cases hdone.symm.trans hb
      exact ⟨hg', .inr (hss (made hv (.inner hb) rfl))⟩
  | assign x v f =>
    obtain ⟨_, _, _, _, _, rfl, -⟩ | ⟨j, b, i, rfl, hb, hi⟩ := IsTarget.cases hf hg
    · cases h
    · cases h with
      | assignedBase => exact ⟨hg, hb⟩
      | assignedPosition hbase =>
        obtain ⟨hlater, hg'⟩ := Goes.of_done (go (j := false) .assignedBase ⟨hg, hb⟩) hbase
        exact ⟨hg', hi.later hlater⟩
  | whileLoop e b f =>
    obtain ⟨he, hb⟩ := hf
    cases h with
    | whileTest => exact ⟨hg, he⟩
    | whileBody hc =>
      obtain ⟨hlater, hg'⟩ := Goes.of_done (go (j := false) .whileTest ⟨hg, he⟩) hc
      exact ⟨hg', hb.later hlater⟩
    | whileAgain hc hv' hr =>
      obtain ⟨hlater, hg'⟩ := Goes.of_done (go (j := false) .whileTest ⟨hg, he⟩) hc
      have hbody : S.Goes true true _ _ := go (j := true) (.whileBody hc hv') ⟨hg', hb.later hlater⟩
      obtain ⟨hlater', hg''⟩ := hbody.goesOn.of_done hr
      exact ⟨hg'', he.later (hlater.trans hlater'), hb.later (hlater.trans hlater')⟩
  | condition e f =>
    cases h with
    | condition => exact ⟨hg, hf _ rfl⟩
  | update u f =>
    cases h with
    | update => exact ⟨hg, hf _ rfl⟩
  | forOfLoop r i x d b f =>
    cases h with
    | forOfBody hq hr =>
      obtain ⟨hgoes, hbody⟩ := Fits.element hf hg _
      exact ⟨(hgoes.of_done hr).2, hbody hr (made hv (.forOfBody hq hr) rfl)⟩
    | forOfAgain hq hr hb =>
      obtain ⟨hgoes, hbody⟩ := Fits.element hf hg _
      obtain ⟨hlater, hg'⟩ := hgoes.of_done hr
      have hround : S.Goes true true _ _ :=
        go (j := true) (.forOfBody hq hr) ⟨hg', hbody hr (made hv (.forOfBody hq hr) rfl)⟩
      obtain ⟨hlater', hg''⟩ := hround.goesOn.of_done hb
      exact ⟨hg'', Fits.later hf (hlater.trans hlater')⟩

end Starts

/-! ## Ends -/

section Ends

/-- A unary operator throws nothing wrong. -/
theorem unary_fine {op : UnaryOp} (h : S.plain → ∀ t, op ≠ .other t) (v : Value) :
    Throws (¬ S.Wrong ·) (v.unary s op) :=
  .mono (fun e he => by
    obtain he | ⟨t, rfl, rfl⟩ := he
    · exact not_wrong_of_values he
    · exact fun hp => h hp t rfl) (Value.unary_throws op v)

/-- A binary operator throws nothing wrong. -/
theorem binary_fine {op : BinaryOp} (h : S.plain → ∀ t, op ≠ .other t) (hop : op ≠ .and ∧ op ≠ .or)
    (v w : Value) : Throws (¬ S.Wrong ·) (v.binary s op w) :=
  .mono (fun e he => by
    obtain he | ⟨t, rfl, rfl⟩ := he
    · exact not_wrong_of_values he
    · exact fun hp => h hp t rfl) (Value.binary_throws hop v w)

theorem ends_binary {m : Span} {op : BinaryOp} {l r : Expr Span}
    (he : S.IsExpr s f (.binary m op l r))
    (sub : ∀ {q}, Starts ⟨n + 1, k, .expr (.binary m op l r) f, s⟩ q → S.Ends false q) :
    S.Goes false false s (expr (n + 1) (.binary m op l r) f s) := by
  have hl : S.Goes false false s (expr n l f s) := sub .left
  cases op with
  | and =>
    rw [expr]
    refine hl.bind fun {v t} hv _ hg' => ?_
    split
    next htruthy => exact sub (.right hv (fun _ => htruthy) fun hno => by cases hno)
    next => exact .stay hg'
  | or =>
    rw [expr]
    refine hl.bind fun {v t} hv _ hg' => ?_
    split
    next => exact .stay hg'
    next htruthy => exact sub (.right hv (fun hno => by cases hno) fun _ => htruthy)
  | _ =>
    rw [expr]
    · refine hl.bind fun {v t} hv _ hg' => ?_
      have hr : S.Goes false false t (expr n r f t) :=
        sub (.right hv (fun hno => by cases hno) fun hno => by cases hno)
      exact hr.bind fun _ _ hg'' => .operate hg'' (binary_fine he.binary.2.2 (by simp) _ _)
    all_goals simp

/-- An expression goes well when all that it starts does. -/
theorem ends_expr {e : Expr Span} (he : S.IsExpr s f e) (hg : S.Good s)
    (sub : ∀ {q}, Starts ⟨n + 1, k, .expr e f, s⟩ q → S.Ends false q) :
    S.Goes false false s (expr (n + 1) e f s) := by
  cases e with
  | literal m v => cases v <;> exact .stay hg
  | name m x =>
    obtain ⟨-, -, -, g, -, -, -, -, hfinds⟩ := he.name hg
    exact .read (k := fun s => s.get f x) hg hfinds.get
  | unary m op e =>
    rw [expr]
    have hs : S.Goes false false s (expr n e f s) := sub .operand
    exact hs.bind fun _ _ hg' => .operate hg' (unary_fine he.unary.2 _)
  | binary => exact ends_binary he sub
  | call m g args =>
    rw [expr]
    have hs : S.Goes false false s (expr n g f s) := sub .callee
    refine hs.bind fun {v t} hv _ _ => ?_
    have hargs : S.Goes false false t (exprs n args f t) := sub (.arguments hv)
    exact hargs.bind fun hvs _ _ => sub (.call hv hvs)
  | array m es =>
    rw [expr]
    have hs : S.Goes false false s (exprs n es f s) := sub .elements
    exact hs.bind fun _ _ hg' => .make hg' rfl rfl
  | index m b i =>
    rw [expr]
    have hs : S.Goes false false s (expr n b f s) := sub .base
    refine hs.bind fun {v t} hv _ _ => ?_
    have hi : S.Goes false false t (expr n i f t) := sub (.position hv)
    exact hi.bind fun _ _ hg' => .read hg' (fine (Value.element_throws _ _))
  | function m ps b =>
    rw [expr]
    exact .done (.newClosure s _) (hg.newClosure he.function)
  | signal m e v =>
    cases v with
    | none => cases e <;> exact .stay hg
    | some v =>
      rw [expr]
      have hs : S.Goes false false s (expr n v f s) := sub .carried
      refine hs.bind fun _ _ hg' => ?_
      cases e <;> exact .stay hg'
  | signalIs m e sig =>
    rw [expr]
    have hs : S.Goes false false s (expr n e f s) := sub .tested
    exact hs.bind fun _ _ hg' => .stay hg'
  | signalValue m e =>
    rw [expr]
    have hs : S.Goes false false s (expr n e f s) := sub .opened
    refine hs.bind fun {v t} _ _ hg' => ?_
    split
    · exact .stay hg'
    · exact .failWith hg' fun _ => he.signalValue.2
  | unknown m c => exact he.not_unknown.elim

/-- A statement goes well when all that it starts does. -/
theorem ends_stmt {x : Stmt Span} (hx : S.IsStmt s jumps f x) (hg : S.Good s)
    (sub : ∀ {q}, Starts ⟨n + 1, k, .stmt x f, s⟩ q → S.Ends jumps q) :
    S.Goes true jumps s (stmt (n + 1) x f s) := by
  cases x with
  | declaration m x d v =>
    cases v with
    | none =>
      obtain ⟨⟨-, -, -, -, g, -, -, -, -, hfinds⟩, -⟩ := hx.declaration hg
      cases d with
      | var => exact .stay hg
      | letVar | const => exact hfinds.starts hg _
    | some e =>
      have hs : S.Goes true jumps s (expr n e f s) := Goes.strict (sub .initial)
      have hafter : ∀ {t}, s.Later t → S.IsStmt t jumps f (.declaration m x d (some e)) := fun hl =>
        hx.later hl
      cases d with
      | var =>
        change S.Goes true jumps s ((expr n e f >>= fun v => setVariable f x v) s)
        refine hs.bind fun _ hl hg' => ?_
        obtain ⟨⟨-, -, -, -, g, -, -, -, -, hfinds⟩, -⟩ := (hafter hl).declaration hg'
        exact hfinds.assigns rfl hg' _
      | letVar | const =>
        change S.Goes true jumps s ((expr n e f >>= fun v => startVariable f x v) s)
        refine hs.bind fun _ hl hg' => ?_
        obtain ⟨⟨-, -, -, -, g, -, -, -, -, hfinds⟩, -⟩ := (hafter hl).declaration hg'
        exact hfinds.starts hg' _
  | assignment m x e =>
    rw [stmt]
    have hs : S.Goes true jumps s (expr n e f s) := Goes.strict (sub .assigned)
    exact hs.bind fun hv _ _ => Goes.strict (sub (.target hv))
  | expression m e =>
    rw [stmt]
    have hs : S.Goes true jumps s (expr n e f s) := Goes.strict (sub .expression)
    exact hs.bind fun _ _ hg' => .stay hg'
  | block b => exact sub .block
  | branch m c b o =>
    have hs : S.Goes true jumps s (expr n c f s) := Goes.strict (sub .test)
    cases o with
    | none =>
      change S.Goes true jumps s
        ((expr n c f >>= fun v => if v.truthy then block n b f else pure ()) s)
      refine hs.bind fun {v t} hv _ hg' => ?_
      split
      next htruthy => exact sub (.consequent hv htruthy)
      next => exact .stay hg'
    | some e =>
      change S.Goes true jumps s
        ((expr n c f >>= fun v => if v.truthy then block n b f else block n e f) s)
      refine hs.bind fun {v t} hv _ _ => ?_
      split
      next htruthy => exact sub (.consequent hv htruthy)
      next htruthy => exact sub (.alternative hv htruthy)
  | loop m h b => exact Goes.calm (sub .loop)
  | ret m v =>
    cases v with
    | none => exact .interrupted (.refl s) hg rfl
    | some e =>
      rw [stmt]
      have hs : S.Goes true jumps s (expr n e f s) := Goes.strict (sub .returned)
      exact hs.bind fun _ _ hg' => .interrupted (.refl _) hg' rfl
  | brk m => exact .interrupted (.refl s) hg hx.brk
  | cont m => exact .interrupted (.refl s) hg hx.cont
  | unknown m c => exact hx.not_unknown.elim

/-- A call goes well when the body does, in the frame that the call makes. -/
theorem ends_callClosure {c : Closure} {args : List Value} (hc : S.Represents s c) (hg : S.Good s)
    (sub : ∀ {q}, Starts ⟨n + 1, k, .callClosure c args, s⟩ q → S.Ends false q) :
    S.Goes false false s (callClosure (n + 1) c args s) := by
  obtain ⟨fr, hfr, -, -⟩ := hc.enters hg args
  have hbody : S.Goes true false (s.newFrame fr).2
      (stmts n c.body.statements s.frames.size (s.newFrame fr).2) := sub (.body hfr)
  rw [callClosure_succ hfr]
  cases hr : stmts n c.body.statements s.frames.size (s.newFrame fr).2 with
  | done a t =>
    obtain ⟨hl, hg'⟩ := hbody.of_done hr
    exact .done ((Store.Later.newFrame s fr).trans hl) hg'
  | interrupted w t =>
    obtain ⟨hl, hg'⟩ := hbody.later (t := t) (by rw [hr]; rfl)
    have hw := hbody.leaves hr
    cases w with
    | failed e => exact .interrupted ((Store.Later.newFrame s fr).trans hl) hg' hw
    | returned v => exact .done ((Store.Later.newFrame s fr).trans hl) hg'
    | broke | continued => cases hw
  | outOfFuel => exact .outOfFuel

/-- A loop that has a frame for its variable. -/
theorem ends_copied {m : Span} {i : Stmt Span} {c : Option (Expr Span)} {u : Option (Stmt Span)}
    {b : Block Span} {x : Name} {d : DeclKind} (hi : copied? (some i) = some (x, d))
    (hL : S.Fits s false (.loop (.counting m (some i) c u) b f)) (hg : S.Good s)
    (sub : ∀ {q}, Starts ⟨n + 1, k, .loop (.counting m (some i) c u) b f, s⟩ q → S.Ends false q) :
    S.Goes true false s (loop (n + 1) (.counting m (some i) c u) b f s) := by
  rw [loop_counting, hi]
  dsimp only
  cases hf : enter (Frame.define ⟨some f, []⟩ x none (d == .const)) s with
  | done first t =>
    obtain ⟨hl, hg', hfirst, fn, j, he, hmade⟩ := Fits.first hL hg hi hf
    have hinit : S.Goes true false t (stmt n i first t) := sub (.initCopied hi hf)
    rw [Process.bind_apply, hf]
    refine Goes.before (hinit.bind fun {_ r} hr hlr hgr => ?_) hl
    have hnext : S.Goes true false (r.copy first).2
      (countingLoop n true c u b (r.copy first).1 (r.copy first).2) :=
      sub (.countingCopied hi hf hr)
    exact Goes.before hnext (.newFrame r _)
  | _ => cases hf

/-- A loop goes well when all that it starts does. -/
theorem ends_loop {hd : Header Span} {b : Block Span} (hL : S.Fits s false (.loop hd b f))
    (hg : S.Good s) (sub : ∀ {q}, Starts ⟨n + 1, k, .loop hd b f, s⟩ q → S.Ends false q) :
    S.Goes true false s (loop (n + 1) hd b f s) := by
  cases hd with
  | whileTrue m c => exact sub .whileLoop
  | counting m i c u =>
    cases i with
    | none => exact sub .counting
    | some i =>
      cases hi : copied? (some i) with
      | some d => exact ends_copied (x := d.1) (d := d.2) hi hL hg sub
      | none =>
        rw [loop_counting, hi]
        have hinit : S.Goes true false s (stmt n i f s) := sub (.init hi)
        exact hinit.bind fun hs _ _ => sub (.countingInit hi hs)
  | forOf m x d e =>
    rw [loop]
    have hs : S.Goes true false s (expr n e f s) := Goes.strict (sub .sequence)
    exact hs.bind fun hv _ hg' => (Goes.sequenceOf hg').bind fun hq _ _ => sub (.forOfLoop hv hq)
  | unknown m c => exact (Fits.not_unknown hL).elim

theorem ends_whileLoop {c : Expr Span} {b : Block Span}
    (sub : ∀ {q}, Starts ⟨n + 1, k, .whileLoop c b f, s⟩ q → S.Ends true q) :
    S.Goes true false s (whileLoop (n + 1) c b f s) := by
  rw [whileLoop_succ]
  have hs : S.Goes true false s (expr n c f s) := Goes.strict (sub .whileTest)
  refine hs.bind fun {v t} hv _ hg' => ?_
  split
  next htruthy =>
    have hbody : S.Goes true true t (block n b f t) := sub (.whileBody hv htruthy)
    refine hbody.goesOn.bind fun {again r} hr _ hg'' => ?_
    cases again with
    | true => exact sub (.whileAgain hv htruthy hr)
    | false => exact .stay hg''
  next => exact .stay hg'

theorem ends_countingLoop {copies : Bool} {c : Option (Expr Span)} {u : Option (Stmt Span)}
    {b : Block Span}
    (sub : ∀ {q}, Starts ⟨n + 1, k, .countingLoop copies c u b f, s⟩ q → S.Ends true q) :
    S.Goes true false s (countingLoop (n + 1) copies c u b f s) := by
  rw [countingLoop_round]
  have hs : S.Goes true false s (condition n c f s) := Goes.strict (sub .countingTest)
  refine hs.bind fun {v t} hv _ hg' => ?_
  cases v with
  | false => exact .stay hg'
  | true =>
    have hbody : S.Goes true true t (block n b f t) := sub (.countingBody hv)
    refine hbody.goesOn.bind fun {again r} hr _ hg'' => ?_
    cases again with
    | false => exact .stay hg''
    | true =>
      let after := if copies then r.copy f else (f, r)
      have hafter : r.Later after.2 := by
        change r.Later (if copies then r.copy f else (f, r)).2
        split
        · exact .newFrame r _
        · exact .refl r
      have hupdate : S.Goes true false after.2 (update n u after.1 after.2) :=
        sub (.countingUpdate hv hr rfl)
      exact Goes.before (hupdate.bind fun hz _ _ => sub (.countingAgain hv hr rfl hz)) hafter

/-- A `for`-`of` goes well when all its rounds do. -/
theorem ends_forOfLoop {r : Sequence} {i : Nat} {x : Name} {d : Option DeclKind} {b : Block Span}
    (hL : S.Fits s false (.forOfLoop r i x d b f)) (hg : S.Good s)
    (sub : ∀ {q}, Starts ⟨n + 1, k, .forOfLoop r i x d b f, s⟩ q → S.Ends true q) :
    S.Goes true false s (forOfLoop (n + 1) r i x d b f s) := by
  rw [forOfLoop_succ]
  cases hq : r.at? s i with
  | none => exact .stay hg
  | some v =>
    refine (Goes.strict (Fits.element hL hg v).1).bind fun {inner t} hr _ _ => ?_
    have hbody : S.Goes true true t (block n b inner t) := sub (.forOfBody hq hr)
    refine hbody.goesOn.bind fun {again z} hz _ hg' => ?_
    cases again with
    | true => exact sub (.forOfAgain hq hr hz)
    | false => exact .stay hg'

/-- A well-scoped piece ends as it may if the pieces do that it starts. -/
theorem Ready.ends_succ (hp : S.Ready jumps p) (hn : p.fuel = n + 1)
    (sub : ∀ {q}, Starts p q → S.Ends (p.task.inside jumps) q) : S.Ends jumps p := by
  obtain ⟨-, hg, hf⟩ := hp
  obtain ⟨m, c, task, s⟩ := p
  obtain rfl : m = n + 1 := hn
  dsimp only at hg hf
  cases task with
  | expr e f => exact ends_expr hf hg sub
  | stmt x f => exact ends_stmt hf hg sub
  | callClosure c args => exact ends_callClosure hf hg sub
  | loop hd b f => exact ends_loop hf hg sub
  | whileLoop e b f => exact ends_whileLoop sub
  | countingLoop copies e u b f => exact ends_countingLoop sub
  | forOfLoop r i x d b f => exact ends_forOfLoop hf hg sub
  | exprs es f =>
    cases es with
    | nil => exact .stay hg
    | cons e es =>
      have hs : S.Goes false false s (expr n e f s) := sub .head
      refine hs.bind fun {v t} hv _ _ => ?_
      have hes : S.Goes false false t (exprs n es f t) := sub (.tail hv)
      exact hes.bind fun _ _ hg' => .stay hg'
  | call g args =>
    cases g with
    | builtin b =>
      change S.Goes false false s (call (n + 1) (.builtin b) args s)
      rw [call_builtin]
      -- functions of the language touch neither frames nor closures
      obtain ⟨hframes, hclosures⟩ := b.call_keeps s args
      have herr := Builtin.call_throws (s := s) b args
      cases hb : b.call s args with
      | mk r t =>
        rw [hb] at hframes hclosures herr
        cases r with
        | ok v => exact .done (.of_eq hframes hclosures) (hg.of_eq hframes hclosures)
        | error e =>
          exact .interrupted (.of_eq hframes hclosures) (hg.of_eq hframes hclosures)
            (not_wrong_of_values (herr e rfl))
    | closure i => exact sub .closure
    | _ => exact .failWith (e := .notCallable) hg fun _ => id
  | stmts ss f =>
    cases ss with
    | nil => exact .stay hg
    | cons x ss =>
      have hs : S.Goes true jumps s (stmt n x f s) := sub .first
      exact hs.bind fun hx _ _ => sub (.rest hx)
  | block b f =>
    obtain ⟨inner, t, hdone, hl, hg', -⟩ := IsBlock.enters hf hg
    have hs : S.Goes true jumps t (stmts n b.statements inner t) := sub (.inner hdone)
    change S.Goes true jumps s ((blockFrame b f >>= stmts n b.statements) s)
    rw [Process.bind_apply, hdone]
    exact hs.before hl
  | assign x v f =>
    obtain ⟨fn, a, j, y, g, rfl, -, -, -, hfinds⟩ | ⟨j, b, i, rfl, hb, hi⟩ := IsTarget.cases hf hg
    · exact hfinds.assigns rfl hg v
    · have hs : S.Goes false false s (expr n b f s) := sub .assignedBase
      refine hs.bind fun {w t} hw _ _ => ?_
      have hpos : S.Goes false false t (expr n i f t) := sub (.assignedPosition hw)
      exact hpos.bind fun {z r} _ _ hg' => .changeAt hg' (fine (Value.elementTarget_throws _ _))
        fun _ => ⟨.of_eq rfl rfl, hg'.of_eq rfl rfl⟩
  | condition e f =>
    cases e with
    | none => exact .stay hg
    | some e =>
      have hs : S.Goes false false s (expr n e f s) := sub .condition
      exact hs.bind fun _ _ hg' => .stay hg'
  | update u f =>
    cases u with
    | none => exact .stay hg
    | some x => exact sub .update

end Ends

/-- A well-scoped piece ends as it may. -/
theorem Ready.ends (hp : S.Ready jumps p) : S.Ends jumps p := by
  induction hn : p.fuel generalizing p jumps with
  | zero =>
    obtain ⟨m, c, task, s⟩ := p
    obtain rfl : m = 0 := hn
    cases task <;> exact .outOfFuel
  | succ n ih =>
    refine hp.ends_succ hn fun h => ih (hp.starts (fun he hq => ih hq ?_) h) ?_
    · exact Nat.succ.inj (he.symm.trans hn)
    · exact Nat.succ.inj (h.fuel_eq.symm.trans hn)

/-- Every moment of a run that begins with a well-scoped piece is one at which a well-scoped piece
    is about to run. -/
theorem Ready.visits (hp : S.Ready jumps p) (h : Relation.ReflTransGen Starts p q) :
    ∃ jumps, S.Ready jumps q := by
  induction h with
  | refl => exact ⟨jumps, hp⟩
  | tail _ h ih =>
    obtain ⟨j, hr⟩ := ih
    exact ⟨_, hr.starts (fun _ hq => hq.ends) h⟩

end Setting

end FlatScope.Eval
