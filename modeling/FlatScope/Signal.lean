import FlatScope.Rejection

/-!
# Signals

A wrapper is a function, so a `return`, `break` or `continue` inside of it cannot reach what it is
for. It becomes a `return` of a *signal*, and the place where the wrapper is called tests the signal
and goes on with it: a `break` or `continue` is done there if its loop is around the call in the
same function or wrapper, a `return` is done there if the call is in a real function, and everything
else is handed on to the next call outwards by returning the signal itself.

A wrapper that may be left early and is not returns a marker, so that a function that returns
nothing is still told apart from one that was not left early.

Wherever a wrapper is left, its parameters are first written back as its loop demands
(`writeBack`).
-/

namespace FlatScope

/-- What the call of a wrapper does about a signal. -/
inductive ExitAction where
  /-- Breaks or continues the loop around the call. -/
  | jump
  /-- Returns the value that the signal carries. -/
  | returnValue
  /-- Returns the signal. -/
  | propagate
  deriving DecidableEq, Repr

/-- Where a wrapper is called: whether inside of another wrapper, and whether inside of a loop of
    the same function or wrapper. -/
structure CallSite where
  inWrapper : Bool
  inLoop : Bool
  deriving DecidableEq, Repr

/-- What a call does about one signal. -/
def planExit (site : CallSite) (e : Exit) : Except Rejection ExitAction :=
  match e with
  | .ret => .ok (if site.inWrapper then .propagate else .returnValue)
  | e =>
    if site.inLoop then .ok .jump
    else if site.inWrapper then .ok .propagate
    else .error ⟨.signalOutsideLoop e, .unknown⟩

/-- What a call does about each of the signals that the wrapper may return, in the order in which
    it tests for them. -/
def planDispatch (exits : List Exit) (site : CallSite) :
    Except Rejection (List (Exit × ExitAction)) :=
  (Exit.all.filter exits.contains).mapM fun e => do return (e, ← planExit site e)

/-! ## Statements -/

/-- Variables and the parameters whose values they get. -/
abbrev WriteBacks := List (Name × Name)

/-- The assignments that write parameters back. -/
def writeBackStmts (ws : WriteBacks) : List (Stmt Span) :=
  ws.map fun (driver, param) =>
    .assignment .unknown (.name .unknown driver) (.name .unknown param)

/-- What takes the place of an early exit inside of a wrapper. -/
def exitStmts (kind : SignalKind) (value : Option (Expr Span)) (ws : WriteBacks) (span : Span) :
    List (Stmt Span) :=
  writeBackStmts ws ++ [.ret span (some (.signal span kind value))]

/-- The end of a wrapper that may be left early. -/
def epilogue (ws : WriteBacks) : List (Stmt Span) := exitStmts none none ws .unknown

/-- The statements by which a call handles one signal. -/
def actionStmts (signal : Name) (ws : WriteBacks) (span : Span) (e : Exit) :
    ExitAction → List (Stmt Span)
  | .jump => [if e = .brk then .brk span else .cont span]
  | .returnValue => [.ret span (some (.signalValue span (.name span signal)))]
  | .propagate => writeBackStmts ws ++ [.ret span (some (.name span signal))]

/-- The test for a signal and what is done about it. -/
def handleSignal (signal : Name) (ws : WriteBacks) (span : Span) (e : Exit) (action : ExitAction) :
    Stmt Span :=
  .branch span (.signalIs span (.name span signal) (some e))
    (.mk span (actionStmts signal ws span e action)) none

/-- Returns whatever signal there is. -/
def propagateAll (signal : Name) (ws : WriteBacks) (span : Span) : Stmt Span :=
  .branch span (.unary span .not (.signalIs span (.name span signal) none))
    (.mk span (writeBackStmts ws ++ [.ret span (some (.name span signal))])) none

/-- The statements that test the variable `signal` after the call of a wrapper. If all signals are
    handed on, one test suffices. -/
def dispatchStmts (signal : Name) (exits : List Exit) (site : CallSite) (ws : WriteBacks)
    (span : Span) : Except Rejection (List (Stmt Span)) := do
  let plan ← planDispatch exits site
  if !plan.isEmpty && plan.all (·.2 = .propagate) then return [propagateAll signal ws span]
  else return plan.map fun (e, action) => handleSignal signal ws span e action

/-- The call of a wrapper that cannot be left early. -/
def plainCall (call : Expr Span) (span : Span) : List (Stmt Span) := [.expression span call]

/-- The call of a wrapper that may be left early; its result goes into the variable `signal`. -/
def signalCall (call : Expr Span) (signal : Name) (exits : List Exit) (site : CallSite)
    (ws : WriteBacks) (span : Span) : Except Rejection (List (Stmt Span)) := do
  return .declaration span signal .var (some call) :: (← dispatchStmts signal exits site ws span)

end FlatScope
