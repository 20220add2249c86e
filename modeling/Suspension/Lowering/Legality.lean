import Suspension.Lowering.Rejection
import Suspension.Tree.Basic

/-!
# Legal bodies

The static check of a body before anything is changed. It visits the nodes from the root down, in
the order of `Node.walk`, and carries the `Position` of a node: what kinds of places enclose it. The
first node whose position forbids it is the one that is reported.
-/

namespace Suspension

/-- What encloses a node. -/
structure Position where
  inFilter : Bool := false
  inLock : Bool := false
  inCatch : Bool := false
  /-- Inside a finally or a fault body. -/
  inCleanup : Bool := false
  deriving DecidableEq, Repr

namespace Position

/-- What is wrong with a suspend point at a position, if anything is. `handlersMove` says whether
handler bodies that suspend are going to be moved out of their regions. -/
def awaitObjection? (handlersMove : Bool) (p : Position) : Option Objection :=
  if p.inFilter then some .awaitInFilter
  else if p.inLock then some .awaitInLock
  else if !handlersMove && (p.inCatch || p.inCleanup) then some .awaitInHandler
  else none

/-- What is wrong with a layer at a position, if anything is. -/
def objection? {α : Type} (handlersMove : Bool) (p : Position) : Shape α → Option Objection
  | .await .. => p.awaitObjection? handlersMove
  | .raise none => if p.inCatch then none else some .rethrowOutsideHandler
  | _ => none

end Position

/-- Visits the children of a layer, each at its own position. -/
def Shape.visitAt {ε : Type} (p : Position) :
    Shape (Position → Except ε Unit) → Except ε Unit
  | .region body clauses cleanup fault => do
    body p
    clauses.forM fun c ↦ do
      c.filter.toList.forM fun filter ↦ filter { p with inFilter := true }
      c.body { p with inCatch := true }
    (cleanup.toList ++ fault.toList).forM fun body ↦ body { p with inCleanup := true }
  | .lock guard body => do
    guard { p with inLock := true }
    body { p with inLock := true }
  | s => s.children.forM fun child ↦ child p

/-- Checks a tree that stands at a position. -/
def Node.checkAt (handlersMove : Bool) : Node → Position → Except Rejection Unit :=
  Node.fold fun n layer p ↦
    match p.objection? handlersMove layer with
    | some objection => throw ⟨objection, n.id⟩
    | none => layer.visitAt p

/-- Checks a body. -/
def Node.check (handlersMove : Bool) (body : Node) : Except Rejection Unit :=
  body.checkAt handlersMove {}

end Suspension
