import FlatScope.Eval.Session
import FlatScope.Proofs.Analysis
import FlatScope.Proofs.Regional.Machine

/-!
# Evaluation by regions

The meaning of the lowered code of a function, told from the code that it is made of. The code runs
in one activation for every function, and one for every wrapper; blocks and loops without a wrapper
have their variables in the activation around them. Inside of the loop that a wrapper belongs to, a
binding that is a new one in every iteration is at two places: the header works with the driver, and
the body with the parameter of the wrapper, which is written back as the plan of the loop demands.

Nothing here depends on the names of the lowered bindings, on signals, or on whether the wrapper of
a loop is made before the loop.

As in `FlatScope.Eval`, the first argument of the functions is a number of steps that decreases with
every call of one of them.
-/

namespace FlatScope.Regional

/-- Where code runs. -/
structure Place where
  activation : FrameId
  /-- Whether a loop of the same function or wrapper is around the code. -/
  inLoop : Bool
  /-- What is copied when the wrapper is left. -/
  writeBacks : List (Location × Location)

namespace Env

/-- The environment with the bindings of a scope in an activation. -/
def enter (env : Env) (a : Scoping) (id : ScopeId) (f : FrameId) : Env := fun b =>
  if b ∈ a.bindingIdsOf id then ⟨f, .binding b⟩ else env b

/-- The environment of the statements of a block without a wrapper of its own. -/
def block (env : Env) (a : Scoping) (b : Block Mark) (f : FrameId) : Env :=
  if b.lexicals.isEmpty then env else env.enter a b.mark.id f

/-- The environment of the header of a loop, with drivers for some of its bindings. -/
def header (env : Env) (a : Scoping) (loop : NodeId) (h : Header Mark) (drivers : List BindingId)
    (f : FrameId) : Env := fun b =>
  if (Resolve.headerLexical? h).isSome ∧ b ∈ a.bindingIdsOf loop then
    if b ∈ drivers then ⟨f, .driver b⟩ else ⟨f, .binding b⟩
  else env b

/-- The environment with the parameters of the wrapper of a loop. -/
def params (env : Env) (fresh : List BindingId) (f : FrameId) : Env := fun b =>
  if b ∈ fresh then ⟨f, .binding b⟩ else env b

end Env

/-- The value of a constant. -/
def literal : Literal → Value
  | .undefined => .undefined
  | .bool b => .bool b
  | .number n => .number n
  | .text t => .text t

/-- The binding that a name means at a node. -/
def meaning? (a : Scoping) (node : NodeId) : Option BindingId :=
  (a.referenceAt? node).bind (·.binding)

/-- The value of a name. -/
def read (a : Scoping) (node : NodeId) (n : Name) (env : Env) : Run Value :=
  match meaning? a node with
  | none => onStore (.read fun s => s.get Eval.globalFrame n)
  | some b => get (env b)

/-- Assigns to a name. -/
def assignName (a : Scoping) (node : NodeId) (n : Name) (v : Value) (env : Env) : Run Unit :=
  match meaning? a node with
  | none => onStore (Eval.setVariable Eval.globalFrame n v)
  | some b => set (env b) v

/-- Gives the binding that a node declares a value. -/
def declare (a : Scoping) (node : NodeId) (v : Value) (env : Env) : Run Unit :=
  match a.declared? node with
  | none => .fail .target
  | some b => set (env b.id) v

/-- Gives the variable of a loop over a sequence an element. -/
def startElement (a : Scoping) (node : NodeId) (n : Name) (k : Option DeclKind) (v : Value)
    (env : Env) : Run Unit :=
  match k with
  | none => assignName a node n v env
  | some _ => declare a node v env

/-- Leaves a function or wrapper. -/
def leave {α : Type} (pl : Place) (w : Interrupt) : Run α := do
  copyAll pl.writeBacks
  .interrupt w

/-- A `break` or `continue`. -/
def jump (pl : Place) (inLoop : Bool) (w : Interrupt) : Run Unit :=
  if inLoop then .interrupt w else leave pl w

/-- Goes on with what a wrapper was left by; `inLoop` says whether a loop of the same function or
    wrapper is around the call. -/
def dispatch (pl : Place) (inLoop : Bool) (body : Run Unit) : Run Unit := fun m =>
  match body m with
  | .interrupted (.returned v) m => leave pl (.returned v) m
  | .interrupted .broke m => jump pl inLoop .broke m
  | .interrupted .continued m => jump pl inLoop .continued m
  | o => o

/-- The parameters of a call with the values that they get. -/
def arguments (a : Scoping) (id : ScopeId) (f : FrameId) : List Name → List Value →
    List (Location × Value)
  | [], _ => []
  | n :: ns, args =>
    (⟨f, .binding (((a.lookup? id n).map (·.id)).getD 0)⟩, args.head?.getD .undefined) ::
      arguments a id f ns args.tail

/-- A loop by its node, its header and its body. -/
structure Loop where
  mark : Mark
  header : Header Mark
  body : Block Mark

namespace Loop

/-- The bindings of the header that have drivers. -/
def fresh (l : Loop) (a : Scoping) : List BindingId :=
  match a.loopWrapper? l.mark.id l.body with
  | none => []
  | some _ => a.freshOf l.mark.id l.header

/-- What is copied when the wrapper of the loop is left, whose activation is `f`. -/
def writeBacks (l : Loop) (a : Scoping) (pl : Place) (f : FrameId) : List (Location × Location) :=
  (a.writeBackOf l.mark.id l.header l.body).map fun b =>
    (⟨pl.activation, .driver b⟩, ⟨f, .binding b⟩)

/-- The parameters of the wrapper of the loop, whose activation is `f`, and the drivers. -/
def parameters (l : Loop) (a : Scoping) (pl : Place) (f : FrameId) : List (Location × Location) :=
  (l.fresh a).map fun b => (⟨f, .binding b⟩, ⟨pl.activation, .driver b⟩)

/-- The environment of the header. -/
def headerEnv (l : Loop) (a : Scoping) (pl : Place) (env : Env) : Env :=
  env.header a l.mark.id l.header (l.fresh a) pl.activation

end Loop

mutual

/-- Evaluates an expression. -/
def expr (fuel : Nat) (a : Scoping) (e : Expr Mark) (env : Env) : Run Value :=
  match fuel with
  | 0 => .outOfFuel
  | fuel + 1 =>
    match e with
    | .literal _ v => pure (literal v)
    | .name m n => read a m.id n env
    | .unary _ op e => do
      let v ← expr fuel a e env
      onStore (Eval.operate fun s => v.unary s op)
    | .binary _ .and l r => do
      let v ← expr fuel a l env
      if v.truthy then expr fuel a r env else return v
    | .binary _ .or l r => do
      let v ← expr fuel a l env
      if v.truthy then return v else expr fuel a r env
    | .binary _ op l r => do
      let v ← expr fuel a l env
      let w ← expr fuel a r env
      onStore (Eval.operate fun s => v.binary s op w)
    | .call _ f args => do
      let f ← expr fuel a f env
      let args ← exprs fuel a args env
      call fuel f args
    | .array _ es => do
      let vs ← exprs fuel a es env
      onStore (.make fun s => s.newArray vs.toArray)
    | .index _ b i => do
      let base ← expr fuel a b env
      let position ← expr fuel a i env
      onStore (.read fun s => base.element s position)
    | .function m ps (.mk _ ss) => close ⟨a, m.id, ps, ss, env⟩
    | .signal .. | .signalIs .. | .signalValue .. | .unknown .. => .fail .target
termination_by structural fuel

/-- Evaluates expressions from left to right. -/
def exprs (fuel : Nat) (a : Scoping) (es : List (Expr Mark)) (env : Env) : Run (List Value) :=
  match fuel with
  | 0 => .outOfFuel
  | fuel + 1 =>
    match es with
    | [] => pure []
    | e :: es => do
      let v ← expr fuel a e env
      return v :: (← exprs fuel a es env)
termination_by structural fuel

/-- Calls a value. -/
def call (fuel : Nat) (f : Value) (args : List Value) : Run Value :=
  match fuel with
  | 0 => .outOfFuel
  | fuel + 1 =>
    match f with
    | .builtin b => onStore fun s =>
      match b.call s args with
      | (.ok v, s) => .done v s
      | (.error e, s) => .interrupted (.failed e) s
    | .closure id => fun m =>
      match m.closures[id]? with
      | none => .interrupted (.failed .target) m
      | some c => callClosure fuel c args m
    | f => onStore (Eval.failWith .notCallable f)
termination_by structural fuel

/-- Calls a closure. -/
def callClosure (fuel : Nat) (c : Closure) (args : List Value) : Run Value :=
  match fuel with
  | 0 => .outOfFuel
  | fuel + 1 => do
    let f ← activate
    fun m =>
      match stmts fuel c.scoping c.code ⟨f, false, []⟩ (c.env.enter c.scoping c.scope f)
        (m.setAll (arguments c.scoping c.scope f c.params args)) with
      | .done _ m => .done .undefined m
      | .interrupted (.returned v) m => .done v m
      | .interrupted w m => .interrupted w m
      | .outOfFuel => .outOfFuel
termination_by structural fuel

/-- Runs statements one after the other. -/
def stmts (fuel : Nat) (a : Scoping) (ss : List (Stmt Mark)) (pl : Place) (env : Env) : Run Unit :=
  match fuel with
  | 0 => .outOfFuel
  | fuel + 1 =>
    match ss with
    | [] => pure ()
    | s :: ss => do
      stmt fuel a s pl env
      stmts fuel a ss pl env
termination_by structural fuel

/-- Runs a block that is not the body of a loop. -/
def block (fuel : Nat) (a : Scoping) (b : Block Mark) (pl : Place) (env : Env) : Run Unit :=
  match fuel with
  | 0 => .outOfFuel
  | fuel + 1 =>
    match a.blockWrapper? b with
    | none => stmts fuel a b.statements pl (env.block a b pl.activation)
    | some _ => do
      let f ← activate
      dispatch pl pl.inLoop
        (stmts fuel a b.statements ⟨f, false, []⟩ (env.enter a b.mark.id f))
termination_by structural fuel

/-- Runs a statement. -/
def stmt (fuel : Nat) (a : Scoping) (s : Stmt Mark) (pl : Place) (env : Env) : Run Unit :=
  match fuel with
  | 0 => .outOfFuel
  | fuel + 1 =>
    match s with
    | .declaration _ _ .var none => pure ()
    | .declaration m _ _ none => declare a m.id .undefined env
    | .declaration m _ _ (some e) => do
      let v ← expr fuel a e env
      declare a m.id v env
    | .assignment _ t e => do
      let v ← expr fuel a e env
      assign fuel a t v env
    | .expression _ e => do
      let _ ← expr fuel a e env
    | .block b => block fuel a b pl env
    | .branch _ c t e => do
      let v ← expr fuel a c env
      if v.truthy then block fuel a t pl env
      else match e with
        | none => return
        | some b => block fuel a b pl env
    | .loop m h b => loop fuel a ⟨m, h, b⟩ pl env
    | .ret _ none => leave pl (.returned .undefined)
    | .ret _ (some e) => do
      copyAll pl.writeBacks
      let v ← expr fuel a e env
      .interrupt (.returned v)
    | .brk _ => jump pl pl.inLoop .broke
    | .cont _ => jump pl pl.inLoop .continued
    | .unknown .. => .fail .target
termination_by structural fuel

/-- Assigns a value to a variable or an element. -/
def assign (fuel : Nat) (a : Scoping) (target : Expr Mark) (v : Value) (env : Env) : Run Unit :=
  match fuel with
  | 0 => .outOfFuel
  | fuel + 1 =>
    match target with
    | .name m n => assignName a m.id n v env
    | .index _ b i => do
      let base ← expr fuel a b env
      let position ← expr fuel a i env
      onStore (.changeAt (fun _ => base.elementTarget position) fun (id, i) s =>
        s.setElement id i v)
    | _ => .fail .target
termination_by structural fuel

/-- Runs a loop. -/
def loop (fuel : Nat) (a : Scoping) (l : Loop) (pl : Place) (env : Env) : Run Unit :=
  match fuel with
  | 0 => .outOfFuel
  | fuel + 1 =>
    match l.header with
    | .whileTrue _ c => rounds fuel a (some c) none l pl env
    | .counting _ none c u => rounds fuel a c u l pl env
    | .counting _ (some s) c u => do
      stmt fuel a s pl (l.headerEnv a pl env)
      rounds fuel a c u l pl env
    | .forOf m n k e => do
      let v ← expr fuel a e env
      let q ← onStore (Eval.sequenceOf v)
      elements fuel a q 0 m n k l pl env
    | .unknown .. => .fail .target
termination_by structural fuel

/-- Runs a loop while a condition holds. -/
def rounds (fuel : Nat) (a : Scoping) (c : Option (Expr Mark)) (u : Option (Stmt Mark)) (l : Loop)
    (pl : Place) (env : Env) : Run Unit :=
  match fuel with
  | 0 => .outOfFuel
  | fuel + 1 => do
    if ← condition fuel a c (l.headerEnv a pl env) then
      if ← Eval.goesOn (body fuel a l pl env) then do
        update fuel a u pl (l.headerEnv a pl env)
        rounds fuel a c u l pl env
      else return
    else return
termination_by structural fuel

/-- Whether the condition of a loop holds; a missing one does. -/
def condition (fuel : Nat) (a : Scoping) (c : Option (Expr Mark)) (env : Env) : Run Bool :=
  match fuel with
  | 0 => .outOfFuel
  | fuel + 1 =>
    match c with
    | none => pure true
    | some e => do
      let v ← expr fuel a e env
      return v.truthy
termination_by structural fuel

/-- Runs the update of a loop, if there is one. -/
def update (fuel : Nat) (a : Scoping) (u : Option (Stmt Mark)) (pl : Place) (env : Env) :
    Run Unit :=
  match fuel with
  | 0 => .outOfFuel
  | fuel + 1 =>
    match u with
    | none => pure ()
    | some s => stmt fuel a s pl env
termination_by structural fuel

/-- Runs a loop for every element of a sequence from a position on. -/
def elements (fuel : Nat) (a : Scoping) (q : Eval.Sequence) (i : Nat) (m : Mark) (n : Name)
    (k : Option DeclKind) (l : Loop) (pl : Place) (env : Env) : Run Unit :=
  match fuel with
  | 0 => .outOfFuel
  | fuel + 1 => fun s =>
    match q.at? s.store i with
    | none => .done () s
    | some v => (do
      startElement a m.id n k v (l.headerEnv a pl env)
      if ← Eval.goesOn (body fuel a l pl env) then
        elements fuel a q (i + 1) m n k l pl env
      else return : Run Unit) s
termination_by structural fuel

/-- Runs the body of a loop. A wrapper is an activation that gets the drivers as parameters. -/
def body (fuel : Nat) (a : Scoping) (l : Loop) (pl : Place) (env : Env) : Run Unit :=
  match fuel with
  | 0 => .outOfFuel
  | fuel + 1 =>
    match a.loopWrapper? l.mark.id l.body with
    | none =>
      stmts fuel a l.body.statements { pl with inLoop := true }
        ((l.headerEnv a pl env).block a l.body pl.activation)
    | some _ => do
      let f ← activate
      copyAll (l.parameters a pl f)
      dispatch pl true do
        stmts fuel a l.body.statements ⟨f, false, l.writeBacks a pl f⟩
          (((l.headerEnv a pl env).params (l.fresh a) f).block a l.body f)
        copyAll (l.writeBacks a pl f)
termination_by structural fuel

end

end FlatScope.Regional
