import Suspension.Evaluation.Fault
import Suspension.Evaluation.Host
import Suspension.Evaluation.LabelIndex
import Suspension.Evaluation.Store

/-!
# Evaluations

An evaluation changes a `Frame`, everything that one run of a body can see or change, and ends with
a value or an `Exit`. Three kinds of exit are part of the tree language and may be caught on the way
out: jumps, returns and exceptions. The fourth, `Exit.stop`, ends the run at once; a fault is one
reason for it, and running out of fuel is kept apart from all that the language itself can do.
-/

namespace Suspension

/-- Why a run ends at once. -/
inductive Stop
  | fault (f : Fault)
  /-- The opposite of the least number was asked for, which no number is. -/
  | negationOverflow
  /-- The bound on the length of the run was too small. -/
  | outOfFuel
  deriving DecidableEq, Repr

/-- How control leaves a node other than with a value. -/
inductive Exit
  | jump (label : SymbolId)
  | ret (value : Value)
  | thrown (value : Value)
  | stop (reason : Stop)
  deriving DecidableEq, Repr

/-- What an evaluation did, for those who ask how it came to its end. -/
inductive Event
  /-- It came to a node, seeking a label or not. -/
  | visit (node : NodeId) (seek : Option SymbolId)
  /-- It called an operation that the host has. -/
  | call (name : String) (args : List Value)
  /-- It assigned to a variable. -/
  | store (v : Variable) (value : Value)
  /-- It bound the variable of a clause to an exception. -/
  | bind (v : Variable) (value : Value)
  /-- It handed an awaiter to the driver. -/
  | handOver (awaiter : Value)
  /-- It came to a jump, a return or a throw, its value computed. -/
  | exit (e : Exit)
  deriving DecidableEq, Repr

/-- An event, and what the variables held right before it. -/
structure Moment where
  event : Event
  persisted : Store
  locals : Store
  deriving Repr

/-- What one run of a body sees and changes. -/
structure Frame where
  /-- The variables that outlive the run. -/
  persisted : Store
  /-- The variables of the run. -/
  locals : Store := {}
  host : Host
  /-- The exceptions being handled, the innermost first. -/
  handling : List Value := []
  /-- The awaiters handed over, in order. -/
  awaiters : Array Value := #[]
  /-- What happened, the latest first. Empty unless events are recorded. -/
  moments : List Moment := []
  deriving Inhabited

/-- How evaluations are run. -/
structure Setting where
  /-- Whether a label is defined at or beneath a node. -/
  labels : Node → SymbolId → Bool
  /-- Whether a suspend point waits for its future. Otherwise it is a fault, for a lowered body has
  none. -/
  waits : Bool := false
  /-- Whether events are recorded. It makes no difference to anything else. -/
  records : Bool := false

/-- Computations that run in a frame. -/
abbrev Eval := ExceptT Exit (StateM Frame)

namespace Eval

/-- Runs an evaluation and answers how it ended, whichever way it did. -/
def attempt {α : Type} (x : Eval α) : Eval (Except Exit α) :=
  fun σ ↦
    let (r, σ) := x.run σ
    (.ok r, σ)

/-- Ends as an attempt ended. -/
def conclude {α : Type} : Except Exit α → Eval α
  | .ok a => pure a
  | .error e => throw e

/-- Stops with a fault at a node. -/
def fault {α : Type} (cause : FaultCause) (n : Node) : Eval α :=
  throw (.stop (.fault ⟨cause, some n.id⟩))

/-- What was found out about a node, or a fault there. -/
def orFault {α : Type} (x : Except FaultCause α) (n : Node) : Eval α :=
  match x with
  | .ok a => pure a
  | .error cause => fault cause n

/-- Notes an event, if events are recorded. -/
def note (s : Setting) (e : Event) : Eval Unit :=
  if s.records then
    modify fun σ ↦ { σ with moments := ⟨e, σ.persisted, σ.locals⟩ :: σ.moments }
  else pure ()

/-- Starts an exit. -/
def leave {α : Type} (s : Setting) (e : Exit) : Eval α := do
  note s (.exit e)
  throw e

/-! ### Variables -/

/-- The value of a variable. Variables of the run hide those that outlive it. -/
def load (v : Variable) (n : Node) : Eval Value := do
  let σ ← get
  match σ.locals.get? v.id with
  | some value => return value
  | none =>
    match σ.persisted.get? v.id with
    | some value => return value
    | none => fault (.unbound v) n

/-- Gives a new value to a variable that has one. -/
def store (s : Setting) (v : Variable) (value : Value) (n : Node) : Eval Unit := do
  let σ ← get
  if σ.locals.contains v.id then
    note s (.store v value)
    modify fun σ ↦ { σ with locals := σ.locals.insert v.id value }
  else if σ.persisted.contains v.id then
    note s (.store v value)
    modify fun σ ↦ { σ with persisted := σ.persisted.insert v.id value }
  else fault (.unbound v) n

/-- Binds the variable of a clause: in its slot, if it outlives the run. -/
def bind (s : Setting) (v : Variable) (value : Value) : Eval Unit := do
  note s (.bind v value)
  modify fun σ ↦
    if σ.persisted.contains v.id then { σ with persisted := σ.persisted.insert v.id value }
    else { σ with locals := σ.locals.insert v.id value }

/-- Starts the variables of a block. -/
def declare (vs : List Variable) : Eval Unit :=
  modify fun σ ↦ { σ with locals := σ.locals.declare vs }

/-! ### The host -/

/-- Hands an awaiter to the driver. -/
def handOver (s : Setting) (awaiter : Value) : Eval Unit := do
  note s (.handOver awaiter)
  modify fun σ ↦ { σ with awaiters := σ.awaiters.push awaiter }

/-- Calls a host operation. -/
def callHost (s : Setting) (name : String) (args : List Value) (n : Node) : Eval Value := do
  let answer ← modifyGet fun σ ↦
    let (answer, host) := σ.host.call name args
    (answer, { σ with host })
  match answer with
  | .unknown => fault (.unknownOperation name) n
  | .value v => do
    note s (.call name args)
    return v
  | .raised ex => do
    note s (.call name args)
    throw (.thrown ex)

/-- The cell of a future. -/
def cell (v : Value) (n : Node) : Eval (Nat × Future) := do
  match v with
  | .future i =>
    match (← get).host.future? i with
    | some f => return (i, f)
    | none => fault (.notAwaitable v.type) n
  | _ => fault (.notAwaitable v.type) n

/-- The outcome of a future: its value, or the exception it failed with. -/
def result (f : Future) (n : Node) : Eval Value :=
  match f.outcome? with
  | some (.ok value) => pure value
  | some (.error ex) => throw (.thrown ex)
  | none => fault .incomplete n

/-- Waits until a future is completed, which takes as many steps as it has left. -/
def wait (i : Nat) (f : Future) : Eval Future := do
  modify fun σ ↦ { σ with host := σ.host.changeFuture i Future.complete }
  return f.complete

end Eval

end Suspension
