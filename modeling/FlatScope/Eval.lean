import FlatScope.Eval.Run
import FlatScope.Syntax.Declared
import FlatScope.Value.Builtin
import FlatScope.Value.Environment
import FlatScope.Value.Operator

/-!
# Evaluation

The meaning of programs. A call makes a frame for the parameters, for the `var`s of the whole
function, which start out undefined, and for the `let`s and `const`s of its body, which cannot be
used before their declaration has run. A block makes a frame for its own `let`s and `const`s, if it
has any. A `for` that counts with a `let` or `const` runs every iteration in a copy of the frame of
that variable, so that closures made in different iterations see different variables; a `for` over
a sequence makes a frame for every element.

The first argument of the functions below is a number of steps: it decreases with every call of one
of them, and a piece of a program that needs more steps than it is given is not finished.
-/

namespace FlatScope.Eval

/-- Runs the body of a loop, and says whether the loop goes on. -/
def goesOn {σ : Type} (body : Process σ Unit) : Process σ Bool := fun s =>
  match body s with
  | .done _ s => .done true s
  | .interrupted .continued s => .done true s
  | .interrupted .broke s => .done false s
  | .interrupted w s => .interrupted w s
  | .outOfFuel => .outOfFuel

/-- Defines the parameters of a call in a new frame; of two parameters of one name the last one
    counts. An argument that is missing is undefined. -/
def bindParams : Frame → List Name → List Value → Frame
  | f, [], _ => f
  | f, p :: ps, args =>
    let value := args.head?.getD .undefined
    let f := if f.has p then f.update p value else f.add p ⟨some value, false⟩
    bindParams f ps args.tail

/-- Defines the `var`s of a function, unless they are there already. -/
def bindVars (f : Frame) (vars : List (Name × Span)) : Frame :=
  vars.foldl (fun f (n, _) => if f.has n then f else f.add n ⟨some .undefined, false⟩) f

/-- Defines `let`s and `const`s, none of them initialized. -/
def bindLexicals (f : Frame) (lexicals : List (Lexical Span)) : Except RunError Frame :=
  lexicals.foldlM (fun f l => f.define l.name none (l.kind == .const)) f

/-- The frame of a call. -/
def callFrame (c : Closure) (args : List Value) : Except RunError Frame :=
  bindLexicals (bindVars (bindParams ⟨some c.frame, []⟩ c.params args) c.body.vars) c.body.lexicals

/-- Makes the frame that `f` yields. -/
def enter (f : Except RunError Frame) : Run FrameId := fun s =>
  match f with
  | .ok f =>
    let (id, s) := s.newFrame f
    .done id s
  | .error e => .interrupted (.failed e) s

/-- Assigns to a variable. -/
def setVariable (env : FrameId) (n : Name) (v : Value) : Run Unit :=
  Process.changeAt (·.setTarget env n) fun owner s => s.write owner n v

/-- Gives a variable the value of its declaration. -/
def startVariable (env : FrameId) (n : Name) (v : Value) : Run Unit :=
  Process.changeAt (·.initialTarget env n) fun owner s => s.write owner n v

/-- The frame in which the statements of a block run that is entered in the frame `env`. -/
def blockFrame (b : Block Span) (env : FrameId) : Run FrameId :=
  match b.lexicals with
  | [] => pure env
  | ls => enter (bindLexicals ⟨some env, []⟩ ls)

/-- The value that an operator yields. -/
def operate (f : Store → Except RunError Value) : Run Value := do
  let v ← Process.read f
  Process.make fun s => s.identify v

/-- A value that is needed as text for an error. -/
def failWith (e : Text → RunError) (v : Value) : Run α := do
  Process.fail (e (← Process.read fun s => v.render s))

/-- The elements of a sequence: the place of an array, or the code points of a text. -/
inductive Sequence where
  | array (id : Nat)
  | text (t : Text)

/-- The element of a sequence at a position, as the sequence is now. -/
def Sequence.at? (q : Sequence) (s : Store) (i : Nat) : Option Value :=
  match q with
  | .array id => (s.elements id)[i]?
  | .text t => t[i]?.map fun c => .text [c]

/-- A value as a sequence. -/
def sequenceOf (v : Value) : Run Sequence :=
  match v with
  | .array id => pure (.array id)
  | .text t => pure (.text t)
  | v => failWith .notIterable v

/-- The frame in which the body of a `for` over a sequence runs: a new one with a variable for the
    element, or the frame of the loop, where the element is assigned. -/
def elementFrame (n : Name) (k : Option DeclKind) (v : Value) (env : FrameId) : Run FrameId :=
  match k with
  | some .letVar => enter (Frame.define ⟨some env, []⟩ n (some v) false)
  | some .const => enter (Frame.define ⟨some env, []⟩ n (some v) true)
  | _ => do
    setVariable env n v
    return env

/-- The variable of a `for` that is copied for every iteration. -/
def copied? : Option (Stmt Span) → Option (Name × DeclKind)
  | some (.declaration _ n k _) => if k.isBlockScoped then some (n, k) else none
  | _ => none

mutual

/-- Evaluates an expression in a frame. -/
def expr (fuel : Nat) (e : Expr Span) (env : FrameId) : Run Value :=
  match fuel with
  | 0 => Process.outOfFuel
  | fuel + 1 =>
    match e with
    | .literal _ .undefined => pure .undefined
    | .literal _ (.bool b) => pure (.bool b)
    | .literal _ (.number n) => pure (.number n)
    | .literal _ (.text t) => pure (.text t)
    | .name _ n => Process.read fun s => s.get env n
    | .unary _ op e => do
      let v ← expr fuel e env
      operate fun s => v.unary s op
    | .binary _ .and l r => do
      let v ← expr fuel l env
      if v.truthy then expr fuel r env else return v
    | .binary _ .or l r => do
      let v ← expr fuel l env
      if v.truthy then return v else expr fuel r env
    | .binary _ op l r => do
      let v ← expr fuel l env
      let w ← expr fuel r env
      operate fun s => v.binary s op w
    | .call _ f args => do
      let f ← expr fuel f env
      let args ← exprs fuel args env
      call fuel f args
    | .array _ es => do
      let vs ← exprs fuel es env
      Process.make fun s => s.newArray vs.toArray
    | .index _ b i => do
      let base ← expr fuel b env
      let position ← expr fuel i env
      Process.read fun s => base.element s position
    | .function _ ps b => Process.make fun s => s.newClosure ⟨ps, b, env, none⟩
    | .signal _ k v => do
      let v ← match v with
        | none => pure .undefined
        | some e => expr fuel e env
      match k with
      | none => return .noSignal
      | some k => return .signal k v
    | .signalIs _ e k => do
      let v ← expr fuel e env
      return .bool (v.isSignal k)
    | .signalValue _ e => do
      let v ← expr fuel e env
      match v with
      | .signal _ v => return v
      | v => failWith .notSignal v
    | .unknown _ n => Process.fail (.unknownExpr n)
termination_by structural fuel

/-- Evaluates expressions from left to right. -/
def exprs (fuel : Nat) (es : List (Expr Span)) (env : FrameId) : Run (List Value) :=
  match fuel with
  | 0 => Process.outOfFuel
  | fuel + 1 =>
    match es with
    | [] => pure []
    | e :: es => do
      let v ← expr fuel e env
      return v :: (← exprs fuel es env)
termination_by structural fuel

/-- Calls a value. -/
def call (fuel : Nat) (f : Value) (args : List Value) : Run Value :=
  match fuel with
  | 0 => Process.outOfFuel
  | fuel + 1 =>
    match f with
    | .builtin b => fun s =>
      match b.call s args with
      | (.ok v, s) => .done v s
      | (.error e, s) => .interrupted (.failed e) s
    | .closure id => do
      let c ← Process.read fun s => .ok (s.closures[id]?.getD default)
      callClosure fuel c args
    | f => failWith .notCallable f
termination_by structural fuel

/-- Calls a closure. -/
def callClosure (fuel : Nat) (c : Closure) (args : List Value) : Run Value :=
  match fuel with
  | 0 => Process.outOfFuel
  | fuel + 1 => do
    let env ← enter (callFrame c args)
    fun s =>
      match stmts fuel c.body.statements env s with
      | .done _ s => .done .undefined s
      | .interrupted (.returned v) s => .done v s
      | .interrupted w s => .interrupted w s
      | .outOfFuel => .outOfFuel
termination_by structural fuel

/-- Runs statements one after the other. -/
def stmts (fuel : Nat) (ss : List (Stmt Span)) (env : FrameId) : Run Unit :=
  match fuel with
  | 0 => Process.outOfFuel
  | fuel + 1 =>
    match ss with
    | [] => pure ()
    | s :: ss => do
      stmt fuel s env
      stmts fuel ss env
termination_by structural fuel

/-- Runs a block. -/
def block (fuel : Nat) (b : Block Span) (env : FrameId) : Run Unit :=
  match fuel with
  | 0 => Process.outOfFuel
  | fuel + 1 => do
    let env ← blockFrame b env
    stmts fuel b.statements env
termination_by structural fuel

/-- Runs a statement. -/
def stmt (fuel : Nat) (s : Stmt Span) (env : FrameId) : Run Unit :=
  match fuel with
  | 0 => Process.outOfFuel
  | fuel + 1 =>
    match s with
    | .declaration _ _ .var none => pure ()
    | .declaration _ n .var (some e) => do
      let v ← expr fuel e env
      setVariable env n v
    | .declaration _ n _ none => startVariable env n .undefined
    | .declaration _ n _ (some e) => do
      let v ← expr fuel e env
      startVariable env n v
    | .assignment _ t e => do
      let v ← expr fuel e env
      assign fuel t v env
    | .expression _ e => do
      let _ ← expr fuel e env
    | .block b => block fuel b env
    | .branch _ c t e => do
      let v ← expr fuel c env
      if v.truthy then block fuel t env
      else match e with
        | none => return
        | some b => block fuel b env
    | .loop _ h b => loop fuel h b env
    | .ret _ none => Process.interrupt (.returned .undefined)
    | .ret _ (some e) => do
      let v ← expr fuel e env
      Process.interrupt (.returned v)
    | .brk _ => Process.interrupt .broke
    | .cont _ => Process.interrupt .continued
    | .unknown _ n => Process.fail (.unknownStmt n)
termination_by structural fuel

/-- Assigns a value to a variable or an element. -/
def assign (fuel : Nat) (target : Expr Span) (v : Value) (env : FrameId) : Run Unit :=
  match fuel with
  | 0 => Process.outOfFuel
  | fuel + 1 =>
    match target with
    | .name _ n => setVariable env n v
    | .index _ b i => do
      let base ← expr fuel b env
      let position ← expr fuel i env
      Process.changeAt (fun _ => base.elementTarget position) fun (id, i) s => s.setElement id i v
    | _ => Process.fail .target
termination_by structural fuel

/-- Runs a loop. -/
def loop (fuel : Nat) (h : Header Span) (b : Block Span) (env : FrameId) : Run Unit :=
  match fuel with
  | 0 => Process.outOfFuel
  | fuel + 1 =>
    match h with
    | .whileTrue _ c => whileLoop fuel c b env
    | .counting _ init c u =>
      match copied? init, init with
      | some (n, k), some init => do
        let first ← enter (Frame.define ⟨some env, []⟩ n none (k == .const))
        stmt fuel init first
        let env ← Process.make fun s => s.copy first
        countingLoop fuel true c u b env
      | _, some init => do
        stmt fuel init env
        countingLoop fuel false c u b env
      | _, none => countingLoop fuel false c u b env
    | .forOf _ n k e => do
      let v ← expr fuel e env
      let q ← sequenceOf v
      forOfLoop fuel q 0 n k b env
    | .unknown _ n => Process.fail (.unknownHeader n)
termination_by structural fuel

/-- Repeats a block while a condition holds. -/
def whileLoop (fuel : Nat) (c : Expr Span) (b : Block Span) (env : FrameId) (s : Store) :
    Outcome Store Unit :=
  match fuel with
  | 0 => .outOfFuel
  | fuel + 1 =>
    match expr fuel c env s with
    | .outOfFuel => .outOfFuel
    | .interrupted w s => .interrupted w s
    | .done v s =>
      if v.truthy then
        match goesOn (block fuel b env) s with
        | .outOfFuel => .outOfFuel
        | .interrupted w s => .interrupted w s
        | .done false s => .done () s
        | .done true s => whileLoop fuel c b env s
      else .done () s
termination_by structural fuel

/-- Repeats a block and an update while a condition holds. With `copies`, the update and the next
    iteration run in a copy of the frame of this one. -/
def countingLoop (fuel : Nat) (copies : Bool) (c : Option (Expr Span)) (u : Option (Stmt Span))
    (b : Block Span) (env : FrameId) (s : Store) : Outcome Store Unit :=
  match fuel with
  | 0 => .outOfFuel
  | fuel + 1 =>
    match condition fuel c env s with
    | .outOfFuel => .outOfFuel
    | .interrupted w s => .interrupted w s
    | .done false s => .done () s
    | .done true s =>
      match goesOn (block fuel b env) s with
      | .outOfFuel => .outOfFuel
      | .interrupted w s => .interrupted w s
      | .done false s => .done () s
      | .done true s =>
        let (env, s) := if copies then s.copy env else (env, s)
        match update fuel u env s with
        | .outOfFuel => .outOfFuel
        | .interrupted w s => .interrupted w s
        | .done _ s => countingLoop fuel copies c u b env s
termination_by structural fuel

/-- Whether the condition of a `for` holds; a missing one does. -/
def condition (fuel : Nat) (c : Option (Expr Span)) (env : FrameId) : Run Bool :=
  match fuel with
  | 0 => Process.outOfFuel
  | fuel + 1 =>
    match c with
    | none => pure true
    | some e => do
      let v ← expr fuel e env
      return v.truthy
termination_by structural fuel

/-- Runs the update of a `for`, if there is one. -/
def update (fuel : Nat) (u : Option (Stmt Span)) (env : FrameId) : Run Unit :=
  match fuel with
  | 0 => Process.outOfFuel
  | fuel + 1 =>
    match u with
    | none => pure ()
    | some s => stmt fuel s env
termination_by structural fuel

/-- Runs a block for every element of a sequence from a position on. -/
def forOfLoop (fuel : Nat) (q : Sequence) (i : Nat) (n : Name) (k : Option DeclKind)
    (b : Block Span) (env : FrameId) (s : Store) : Outcome Store Unit :=
  match fuel with
  | 0 => .outOfFuel
  | fuel + 1 =>
    match q.at? s i with
    | none => .done () s
    | some v =>
      match elementFrame n k v env s with
      | .outOfFuel => .outOfFuel
      | .interrupted w s => .interrupted w s
      | .done inner s =>
        match goesOn (block fuel b inner) s with
        | .outOfFuel => .outOfFuel
        | .interrupted w s => .interrupted w s
        | .done false s => .done () s
        | .done true s => forOfLoop fuel q (i + 1) n k b env s
termination_by structural fuel

end

/-- A call of a function that every program can call. -/
theorem call_builtin (n : Nat) (b : Builtin) (args : List Value) (s : Store) :
    call (n + 1) (.builtin b) args s = match b.call s args with
      | (.ok v, s) => .done v s
      | (.error e, s) => .interrupted (.failed e) s := rfl

/-- A call ends where the statements of the function end or return. -/
theorem callClosure_succ {n : Nat} {c : Closure} {args : List Value} {s : Store} {f : Frame}
    (h : callFrame c args = .ok f) : callClosure (n + 1) c args s =
      match stmts n c.body.statements s.frames.size (s.newFrame f).2 with
      | .done _ s => .done .undefined s
      | .interrupted (.returned v) s => .done v s
      | .interrupted w s => .interrupted w s
      | .outOfFuel => .outOfFuel := by
  rw [callClosure, h]
  rfl

end FlatScope.Eval
