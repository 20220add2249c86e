import Suspension.Evaluation.Value

/-!
# The host

A body acts on the world through named host operations. The standard host keeps a log of lines and
the heap of futures, and offers operations to write a line, to make futures that complete or fail
after a number of steps, to make and to raise exceptions, and to acquire an awaiter.
-/

namespace Suspension

/-- The world as the standard host sees it. -/
structure Host where
  futures : Futures := #[]
  /-- The lines that were traced. -/
  trace : Array String := #[]
  deriving Inhabited

namespace Host

/-- A new future. -/
def newFuture (h : Host) (f : Future) : Value × Host :=
  (.future h.futures.size, { h with futures := h.futures.push f })

/-- The cell of a future. -/
def future? (h : Host) (cell : Nat) : Option Future :=
  h.futures[cell]?

/-- A change of the cell of a future. -/
def changeFuture (h : Host) (cell : Nat) (f : Future → Future) : Host :=
  { h with futures := h.futures.modify cell f }

/-- How often a future has to be advanced, from the argument at a position: a number that is not
positive means not at all, and a positive one counts modulo the range of the counter. Anything else
means once. -/
def pollsArg (args : List Value) (position : Nat) : UInt32 :=
  match args[position]? with
  | some (.int n) => if 0 < n then n.toUInt64.toUInt32 else 0
  | _ => 1

/-- The first argument as a message. -/
def messageArg (h : Host) (args : List Value) : String :=
  match args with
  | a :: _ => a.text h.futures
  | [] => ""

/-- The first argument, or the unit value. -/
def valueArg (args : List Value) : Value :=
  args.head?.getD .unit

/-- Writes a line. -/
def traceLine (h : Host) (line : String) : Host :=
  { h with trace := h.trace.push line }

/-- What an operation came to: a value, an exception that it raised, or nothing if there is no such
operation. -/
inductive Answer
  | value (v : Value)
  | raised (ex : Value)
  | unknown
  deriving DecidableEq, Repr

/-- A new value as the answer of an operation. -/
def answer (r : Value × Host) : Answer × Host :=
  (.value r.1, r.2)

/-- The operation `name`. -/
def call (h : Host) (name : String) (args : List Value) : Answer × Host :=
  match name with
  | "trace" => answer (.unit, h.traceLine (" ".intercalate (args.map (Value.text h.futures))))
  | "ready" => answer (h.newFuture ⟨0, .ok (valueArg args)⟩)
  | "pending" => answer (h.newFuture ⟨pollsArg args 1, .ok (valueArg args)⟩)
  | "yield" => answer (h.newFuture ⟨1, .ok .unit⟩)
  | "fail" =>
    let polls := if 1 < args.length then pollsArg args 1 else 0
    answer (h.newFuture ⟨polls, .error (.error (h.messageArg args))⟩)
  | "error" => (.value (.error (h.messageArg args)), h)
  | "raise" => (.raised (.error (h.messageArg args)), h)
  | "awaiter_of" =>
    match args with
    | .future cell :: _ => (.value (.future cell), h)
    | other :: _ => (.raised (.error (other.type.name ++ " is not awaitable")), h)
    | [] => (.raised (.error "awaiter_of expects one argument"), h)
  | _ => (.unknown, h)

end Host

end Suspension
