import Suspension.Report

/-!
# Rejected bodies

Why a body cannot be lowered, and the node that is the reason. Any rejection ends the whole
lowering.
-/

namespace Suspension

/-- What is wrong with a body. -/
inductive Objection
  /-- A suspend point inside an exception filter. -/
  | awaitInFilter
  /-- A suspend point inside a lock, guard or body. -/
  | awaitInLock
  /-- A suspend point inside a handler body, where those are not moved out of their region. -/
  | awaitInHandler
  /-- A bare rethrow outside of every catch body. -/
  | rethrowOutsideHandler
  /-- A variable that two suspending blocks declare. -/
  | hoistedTwice (v : Variable)
  deriving DecidableEq, Repr

/-- A rejected body: the objection and the node it is raised at. -/
structure Rejection where
  objection : Objection
  node : NodeId
  deriving DecidableEq, Repr

/-- The sentence for an objection. -/
def Objection.message : Objection → String
  | .awaitInFilter => "Cannot suspend inside an exception filter"
  | .awaitInLock => "Cannot suspend inside a lock statement"
  | .awaitInHandler => "Cannot suspend inside a handler body without handler reduction"
  | .rethrowOutsideHandler => "Rethrow is only valid inside a catch body"
  | .hoistedTwice v => "Variable " ++ v.text ++ " is already hoisted"

/-- The report of a rejection. A variable hoisted twice means that the body was corrupt before it
came here; the other objections are raised by the static check. -/
def Rejection.report (r : Rejection) : Report :=
  match r.objection with
  | .hoistedTwice _ => ⟨.critical, "resumable.lower.scope", some r.node, r.objection.message⟩
  | _ => ⟨.error, "resumable.lower.check", some r.node, r.objection.message⟩

end Suspension
