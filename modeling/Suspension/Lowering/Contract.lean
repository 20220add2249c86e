import Suspension.Supply

/-!
# The contract with the driver

A lowered body and what drives it share three symbols: the state slot, which outlives a run, its
copy inside the body, and the label at the end of the body that hands control back. The state is the
index of the suspend point that the body waits at, and `running` while it waits nowhere.
-/

namespace Suspension

open Build

/-- The state of a body that does not wait. -/
def running : Int64 := -1

/-- The host operation that hands an awaiter to the driver. -/
def onCompleted : String := "await_on_completed"

/-- What a lowered body shares with its driver. -/
structure Contract where
  /-- The state, in storage that the driver keeps. -/
  state : Variable
  /-- The state inside the body, always assigned together with `state`. -/
  localState : Variable
  /-- Where the body hands control back. -/
  exit : Label
  /-- The host operation that is called with the awaiter of a suspend point that has to wait. -/
  notify : String := onCompleted

namespace Contract

/-- A contract over fresh symbols. -/
def fresh (notify : String) : Build Contract := do
  let state ← newVariable "__state" .int
  let localState ← newVariable "__localState" .int
  let exit ← newLabel "__exit"
  return ⟨state, localState, exit, notify⟩

/-- Assigns both copies of the state. -/
def updateState (c : Contract) (value : Int64) : Build Node := do
  node (.assign c.localState (← node (.assign c.state (← node (.const (.int value))))))

/-- Tests that the body is not on its way out to wait. -/
def notSuspended (c : Contract) : Build Node := do
  let state ← node (.var c.localState)
  node (.binary .lt state (← node (.const (.int 0))))

/-- Hands an awaiter to the driver. -/
def handOver (c : Contract) (awaiter : Variable) : Build Node := do
  node (.call c.notify [← node (.var awaiter)])

end Contract

end Suspension
