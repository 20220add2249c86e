import Suspension.Evaluation.Value
import Suspension.Report

/-!
# Faults

A fault ends an evaluation for good: no clause catches it and no finally body runs after it. It has
a cause, which says all that its text needs, and mostly a node. Causes fall into a few kinds.
-/

namespace Suspension

/-- What a fault is about. -/
inductive FaultKind
  | invalidJump
  | unboundVariable
  | unknownOperation
  | typeMismatch
  /-- A suspend point was evaluated that was not lowered. -/
  | unloweredAwait
  /-- An exception left the body. -/
  | unhandled
  /-- A body stopped to wait and did not say for what. -/
  | missingAwaiter
  /-- A body was resumed too often. -/
  | resumeLimit
  deriving DecidableEq, Repr

/-- What went wrong. -/
inductive FaultCause
  /-- A jump to a label that nothing defines. -/
  | undefinedLabel (label : SymbolId)
  /-- A jump into an operand, past one that has a value already. -/
  | intoOperand
  /-- A jump into a protected region. -/
  | intoRegion
  /-- A jump into a lock. -/
  | intoLock
  /-- A variable without a slot. -/
  | unbound (v : Variable)
  /-- A call of an operation that the host does not have. -/
  | unknownOperation (name : String)
  /-- A switch over something other than a number. -/
  | switchOver (found : ValueType)
  /-- A condition that is neither true nor false. -/
  | conditionOn (found : ValueType)
  /-- An operand that has no opposite. -/
  | negationOf (found : ValueType)
  /-- Operands that do not fit an operator. -/
  | operands (op : BinaryOp) (left right : ValueType)
  /-- Something other than a future where one is waited for. -/
  | notAwaitable (found : ValueType)
  /-- The result of a future that is not completed. -/
  | incomplete
  | unloweredAwait
  /-- A bare rethrow where no exception is being handled. -/
  | rethrowOutsideHandler
  /-- An exception that left the body, as it is printed. -/
  | unhandled (shown : String)
  | missingAwaiter (state : Int64)
  | resumeLimit (resumptions : Nat)
  deriving DecidableEq, Repr

/-- A fault. -/
structure Fault where
  cause : FaultCause
  /-- The node it arose at, if it has a place. -/
  node : Option NodeId
  deriving DecidableEq, Repr

/-- The name of an operator in messages. -/
def BinaryOp.name : BinaryOp → String
  | .eq => "Eq"
  | .ne => "Ne"
  | .lt => "Lt"
  | .le => "Le"
  | .gt => "Gt"
  | .ge => "Ge"
  | .add => "Add"
  | .sub => "Sub"
  | .mul => "Mul"
  | .div => "Div"
  | .mod => "Mod"
  | .and => "And"
  | .or => "Or"

namespace FaultCause

/-- What a cause is about. -/
def kind : FaultCause → FaultKind
  | undefinedLabel _ => .invalidJump
  | intoOperand => .invalidJump
  | intoRegion => .invalidJump
  | intoLock => .invalidJump
  | unbound _ => .unboundVariable
  | unknownOperation _ => .unknownOperation
  | switchOver _ => .typeMismatch
  | conditionOn _ => .typeMismatch
  | negationOf _ => .typeMismatch
  | operands .. => .typeMismatch
  | notAwaitable _ => .typeMismatch
  | incomplete => .typeMismatch
  | unloweredAwait => .unloweredAwait
  | rethrowOutsideHandler => .unhandled
  | unhandled _ => .unhandled
  | missingAwaiter _ => .missingAwaiter
  | resumeLimit _ => .resumeLimit

/-- The sentence for a cause. -/
def message : FaultCause → String
  | undefinedLabel label => "Jump to undefined label #" ++ toString label.toNat
  | intoOperand => "Jump into an operand after a partially evaluated one"
  | intoRegion => "Jump into a protected region"
  | intoLock => "Jump into a lock body"
  | unbound v => "Variable " ++ v.text ++ " is not declared"
  | unknownOperation name => "Unknown host operation " ++ name
  | switchOver found => "Switch over " ++ found.name
  | conditionOn found => "Condition on " ++ found.name
  | negationOf found => "Cannot negate " ++ found.name
  | operands op left right =>
    "Operator " ++ op.name ++ " on " ++ left.name ++ " and " ++ right.name
  | notAwaitable found => found.name ++ " is not awaitable"
  | incomplete => "Result requested from an incomplete awaiter"
  | unloweredAwait => "Suspend point reached the evaluator without being lowered"
  | rethrowOutsideHandler => "Rethrow with no exception being handled"
  | unhandled shown => "Unhandled exception " ++ shown
  | missingAwaiter state =>
    "Suspended in state " ++ toString state.toInt ++ " without registering an awaiter"
  | resumeLimit resumptions => "Gave up after " ++ toString resumptions ++ " resumptions"

/-- Whether it is the driver that finds a cause, and not the evaluator. -/
def isDrivers : FaultCause → Bool
  | unhandled _ => true
  | missingAwaiter _ => true
  | resumeLimit _ => true
  | _ => false

end FaultCause

/-- The report of a fault. -/
def Fault.report (f : Fault) : Report where
  severity := match f.cause with
    | .resumeLimit _ => .critical
    | _ => .error
  issuer := if f.cause.isDrivers then "resumable.driver" else "resumable.interp"
  node := f.node
  message := f.cause.message

end Suspension
