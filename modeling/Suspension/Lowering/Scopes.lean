import Suspension.Lowering.Rejection

/-!
# Hoisting by scope

A variable of a block that suspends has to outlive the run that declared it. Which blocks those are
is known when they are closed: a flag for each open block says whether a suspend point was met
inside, and closing a block passes its flag on to the one around it.

All variables of a suspending block are hoisted, those that no suspend point separates from their
use included.
-/

namespace Suspension

/-- The open blocks and the variables hoisted so far. -/
structure Scopes where
  /-- For each open block, the innermost first, whether it suspends. -/
  suspends : List Bool := []
  /-- In the order they were hoisted. -/
  hoisted : List Variable := []
  deriving Repr

namespace Scopes

/-- The number of open blocks. -/
def depth (s : Scopes) : Nat :=
  s.suspends.length

/-- Opens a block. -/
def enter (s : Scopes) : Scopes :=
  { s with suspends := false :: s.suspends }

/-- Notes a suspend point in the innermost open block, if there is one. -/
def mark (s : Scopes) : Scopes :=
  { s with suspends := s.suspends.modifyHead fun _ ↦ true }

/-- Adds variables one by one, up to the first that is there already. That one comes back. -/
def hoist (hoisted : List Variable) : List Variable → List Variable × Option Variable
  | [] => (hoisted, none)
  | v :: vs =>
    if hoisted.any v.same then (hoisted, some v) else hoist (hoisted ++ [v]) vs

/-- Closes the innermost block, given what it declares and its number. Answers whether its
declarations were hoisted and leave the block, or why the body is rejected. -/
def exit (s : Scopes) (declared : List Variable) (block : NodeId) :
    Except Rejection Bool × Scopes :=
  let outer := { s with suspends := s.suspends.tail }
  if s.suspends.head?.getD false then
    match hoist s.hoisted declared with
    | (hoisted, some v) => (.error ⟨.hoistedTwice v, block⟩, { outer with hoisted })
    | (hoisted, none) => (.ok !declared.isEmpty, { outer with hoisted }.mark)
  else (.ok false, outer)

end Scopes

end Suspension
