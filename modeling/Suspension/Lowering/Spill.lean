import Suspension.Supply
import Suspension.Tree.Query

/-!
# Operand spilling

A resumed body jumps to the middle of an expression, to the operand that suspended. What was
computed of the operands before it is lost by then. So wherever an operand suspends, each operand
before it that is not a plain constant is first stored in a variable of a new block around the
expression, and the expression reads the variable.

Operands after the last suspending one stay where they are.
-/

namespace Suspension

/-- Whether an operand in front of a suspend point has to be stored. -/
def Node.needsSpill (n : Node) : Bool :=
  match n.shape with
  | .const _ => false
  | .defaultOf _ => false
  | _ => true

namespace Spill

/-- Operands with those taken out that have to be stored. -/
structure Spilled where
  /-- The new variables. -/
  declared : List Variable
  /-- The assignments that store the operands. -/
  stores : List Node
  /-- The operands that stand in the expression. -/
  operands : List Node

/-- Stores every operand that stands before a suspending one. -/
def spillOperands : List Node → Build Spilled
  | [] => return ⟨[], [], []⟩
  | operand :: rest => do
    if rest.any Node.containsAwait && operand.needsSpill then
      let temp ← Build.newVariable "__spill" .any
      let store ← Build.node (.assign temp operand)
      let use ← Build.node (.var temp)
      let spilled ← spillOperands rest
      return ⟨temp :: spilled.declared, store :: spilled.stores, use :: spilled.operands⟩
    else
      let spilled ← spillOperands rest
      return { spilled with operands := operand :: spilled.operands }

/-- A layer whose children are spilled already. -/
def spillLayer : Shape Node → Build Node
  | .binary op left right => do
    if right.containsAwait && left.needsSpill then
      let temp ← Build.newVariable "__spill" .any
      let store ← Build.node (.assign temp left)
      let value ← Build.node (.binary op (← Build.node (.var temp)) right)
      Build.node (.block [temp] [store, value])
    else Build.node (.binary op left right)
  | .call callee args => do
    let spilled ← spillOperands args
    let value ← Build.node (.call callee spilled.operands)
    if spilled.declared.isEmpty then return value
    Build.node (.block spilled.declared (spilled.stores ++ [value]))
  | shape => Build.node shape

end Spill

/-- Stores operands that stand before a suspend point, everywhere in a tree. -/
def Node.spill : Node → Build Node :=
  Node.fold fun _ layer ↦ do Spill.spillLayer (← layer.sequence)

end Suspension
