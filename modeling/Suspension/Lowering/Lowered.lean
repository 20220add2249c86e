import Suspension.Lowering.Expansion
import Suspension.Lowering.Handlers
import Suspension.Lowering.Legality
import Suspension.Lowering.Spill

/-!
# Lowered bodies

Lowering turns a body with suspend points into one that can be left at any of them and entered again
from the top. A body is checked, its operands are spilled, its handlers are reduced, its suspend
points are expanded, and the result is put behind a dispatch on the state:

```
block [local state]
  local state = state
  switch local state: the resumption table, or go on
  return the expanded body
  exit:
```
-/

namespace Suspension

open Build

/-- Which of the optional passes run. -/
structure LoweringOptions where
  /-- Store operands that stand before a suspend point. -/
  spill : Bool := true
  /-- Move handler bodies that suspend out of their regions. Without it they are rejected. -/
  reduceHandlers : Bool := true
  deriving DecidableEq, Repr

/-- A lowered body and what its driver has to know. -/
structure Lowered where
  body : Node
  contract : Contract
  /-- The variables of suspending blocks, in hoisting order. -/
  hoisted : List Variable
  /-- The variables that hold awaiters. -/
  fields : List Variable
  /-- The cases of the outermost dispatch. -/
  resume : Table
  /-- The number of suspend points. -/
  stateCount : Nat

/-- Every variable that outlives a run, the state first. -/
def Lowered.persisted (l : Lowered) : List Variable :=
  l.contract.state :: l.hoisted ++ l.fields

/-- Puts an expanded body behind its dispatch. -/
def assemble (c : Contract) (body : Node) (resume : Table) : Build Node := do
  let load ← node (.assign c.localState (← node (.var c.state)))
  let dispatch ← node (.switch (← node (.var c.localState)) resume (some (← empty)))
  let run ← node (.ret (some body))
  node (.block [c.localState] [load, dispatch, run, ← node (.label c.exit)])

/-- The tree whose suspend points are expanded. -/
def Node.prepare (options : LoweringOptions) (body : Node) : Build Node := do
  let body ← if options.spill then body.spill else pure body
  if options.reduceHandlers then body.reduceHandlers else pure body

/-- Lowers a body under a contract. -/
def Node.lower (options : LoweringOptions) (c : Contract) (body : Node) :
    StateT Supply (Except Rejection) Lowered := fun supply ↦ do
  body.check options.reduceHandlers
  let (prepared, supply) := body.prepare options supply
  let (expanded, r) ← prepared.expand c { supply }
  let (lowered, supply) := assemble c expanded r.resumption.root r.supply
  return ({ body := lowered, contract := c, hoisted := r.scopes.hoisted, fields := r.fields,
            resume := r.resumption.root, stateCount := r.resumption.next }, supply)

end Suspension
