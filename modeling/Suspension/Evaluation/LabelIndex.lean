import Suspension.Tree.Query

/-!
# Label indices

A jump asks of many nodes whether they define its label. A label index answers from a table, by the
number of the node: it is built once for a tree, from the leaves up, and holds the labels at or
beneath each node that has any. In a tree whose nodes are numbered apart it agrees with
`Node.labelsWithin`.
-/

namespace Suspension

/-- For each number of a node, the labels at or beneath it. -/
structure LabelIndex where
  entries : Array (List SymbolId) := #[]
  deriving Inhabited

namespace LabelIndex

/-- Sets the labels of a node. The table grows to hold its number. -/
def insert (t : LabelIndex) (id : NodeId) (labels : List SymbolId) : LabelIndex :=
  ⟨(t.entries ++ Array.replicate (id + 1 - t.entries.size) []).setIfInBounds id labels⟩

/-- The labels of a node. -/
def labels (t : LabelIndex) (id : NodeId) : List SymbolId :=
  t.entries[id]?.getD []

/-- Whether a label is defined at or beneath a node. -/
def contains (t : LabelIndex) (n : Node) (label : SymbolId) : Bool :=
  (t.labels n.id).contains label

/-- An index answers which nodes define which labels. -/
instance : Coe LabelIndex (Node → SymbolId → Bool) := ⟨contains⟩

/-- Enters the nodes of a tree, each after those beneath it, and gives back the labels of the
tree. -/
def collect : Node → StateM LabelIndex (List SymbolId) :=
  Node.fold fun n layer ↦ do
    let below ← layer.children.mapM fun child ↦ child
    let labels := layer.ownLabels ++ below.flatten
    unless labels.isEmpty do modify fun t ↦ t.insert n.id labels
    return labels

/-- The index of a tree. -/
def build (root : Node) : LabelIndex :=
  (collect root {}).2

@[simp] theorem labels_insert (t : LabelIndex) (i j : NodeId) (ls : List SymbolId) :
    (t.insert i ls).labels j = if i = j then ls else t.labels j := by
  simp only [insert, labels, Array.getElem?_setIfInBounds]
  split
  · rename_i h
    subst h
    rw [if_pos (by simp; omega)]
    rfl
  · grind

end LabelIndex

end Suspension
