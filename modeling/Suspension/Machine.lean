import Suspension.Evaluation.Evaluator
import Suspension.Lowering.Lowered

/-!
# State machines

A state machine owns what outlives the runs of a lowered body: the state, the hoisted variables and
the awaiters. Each move runs the body once from the top. A body that ends without an exit and with a
state that is not negative has stopped to wait for the last awaiter it handed over.

`Session.drive` moves until the body is completed and completes every future it waits for, up to a
limit on the number of resumptions. The limit counts all resumptions of the machine, earlier drives
included, so what it still allows is what the recursion counts down.
-/

namespace Suspension

/-- What a move of a machine came to. -/
inductive Progress
  | completed (value : Value)
  /-- The body waits for an awaiter. -/
  | suspended (awaiter : Value)
  deriving DecidableEq, Repr

/-- A lowered body with the storage that outlives its runs. -/
structure Machine where
  body : Node
  /-- The variable that holds the state. -/
  stateVar : Variable
  labels : LabelIndex
  persisted : Store
  /-- How many awaiters were handed over, by all runs that were not stopped. -/
  callbacks : Nat := 0
  resumptions : Nat := 0

namespace Machine

/-- The machine of a lowered body before its first move. -/
def start (l : Lowered) : Machine where
  body := l.body
  stateVar := l.contract.state
  labels := LabelIndex.build l.body
  persisted := (({} : Store).declare l.persisted).insert l.contract.state.id (.int running)

/-- The state. -/
def state (m : Machine) : Int64 :=
  match m.persisted.get? m.stateVar.id with
  | some (.int n) => n
  | _ => running

/-- Gives a variable of the storage a value, such as a parameter before the first move. -/
def withArgument (m : Machine) (v : Variable) (value : Value) : Machine :=
  { m with persisted := m.persisted.insert v.id value }

/-- Runs the body once. What happens in the run is recorded if asked for. -/
def run (m : Machine) (fuel : Nat) (host : Host) (records : Bool := false) :
    Except Stop Completion × Frame :=
  runBody { labels := m.labels, records } fuel m.body m.persisted host

end Machine

/-- A machine at work on a host. -/
structure Session where
  machine : Machine
  host : Host := {}

namespace Session

/-- A fault that is found outside of the body. -/
def faultAt {α : Type} (cause : FaultCause) (node : Option NodeId) : Except Stop α :=
  .error (.fault ⟨cause, node⟩)

/-- What a run that was not stopped came to. -/
def progress (m : Machine) (host : Host) (awaiters : Array Value) :
    Completion → Except Stop Progress
  | .threw ex => faultAt (.unhandled (ex.text host.futures)) (some m.body.id)
  | .returned value => .ok (.completed value)
  | .normal value =>
    if m.state < 0 then .ok (.completed value)
    else
      match awaiters.back? with
      | some awaiter => .ok (.suspended awaiter)
      | none => faultAt (.missingAwaiter m.state) (some m.body.id)

/-- Runs the body once, and sees what it came to. -/
def moveNext (fuel : Nat) (s : Session) : Except Stop Progress × Session :=
  let m := s.machine
  let (r, σ) := m.run fuel s.host
  let moved := { m with persisted := σ.persisted }
  match r with
  | .error reason => (.error reason, ⟨moved, σ.host⟩)
  | .ok c =>
    let moved := { moved with callbacks := m.callbacks + σ.awaiters.size }
    (progress moved σ.host σ.awaiters c, ⟨moved, σ.host⟩)

/-- Counts a resumption, and completes the future that the body waits for. -/
def resume (awaiter : Value) (s : Session) : Session where
  machine := { s.machine with resumptions := s.machine.resumptions + 1 }
  host := match awaiter with
    | .future cell => s.host.changeFuture cell Future.complete
    | _ => s.host

/-- Moves until the body is completed, with at most `allowed` more resumptions. -/
def driveWithin (fuel : Nat) : Nat → Session → Except Stop Value × Session
  | allowed, s =>
    match s.moveNext fuel with
    | (.error reason, s) => (.error reason, s)
    | (.ok (.completed value), s) => (.ok value, s)
    | (.ok (.suspended awaiter), s) =>
      match allowed with
      | 0 => (faultAt (.resumeLimit s.machine.resumptions) none, s)
      | allowed + 1 => driveWithin fuel allowed (s.resume awaiter)

/-- Moves until the body is completed, unless the machine would be resumed more than `limit` times
in all. -/
def drive (fuel limit : Nat) (s : Session) : Except Stop Value × Session :=
  s.driveWithin fuel (limit - s.machine.resumptions)

end Session

/-- The limit on resumptions where none is given. -/
def defaultLimit : Nat := 10000

/-- Fuel for runs that nobody can wait for to use it up. -/
def ampleFuel : Nat := Nat.pow 2 60

/-- Why a body has no value. -/
inductive Failure
  | rejected (r : Rejection)
  | stopped (reason : Stop)
  deriving DecidableEq, Repr

/-- Lowers a body and drives it on a fresh host. -/
def Node.execute (fuel : Nat) (options : LoweringOptions) (limit : Nat) (body : Node)
    (supply : Supply) : Except Failure Value × Host :=
  let (c, supply) := Contract.fresh onCompleted supply
  match body.lower options c supply with
  | .error r => (.error (.rejected r), {})
  | .ok (l, _) =>
    let (r, s) := ({ machine := Machine.start l } : Session).drive fuel limit
    (r.mapError .stopped, s.host)

end Suspension
