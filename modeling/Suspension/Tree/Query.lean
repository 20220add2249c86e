import Suspension.Tree.Basic

/-!
# Questions about trees

What passes and the evaluator ask of a tree without changing it: which nodes it has, whether it
suspends, which labels it defines, which symbols it mentions. Each question has a part that looks at
one layer and a part that gathers the answers of the children in evaluation order.
-/

namespace Suspension

namespace Shape

variable {α : Type}

/-- The labels that a layer defines itself: a label node its target, a loop the places where it is
left and where its next round starts. -/
def ownLabels : Shape α → List SymbolId
  | .label target => [target.id]
  | .loop _ breakLabel continueLabel =>
    (breakLabel.toList ++ continueLabel.toList).map Label.id
  | _ => []

/-- The symbols that a layer mentions itself, as a declaration, a target or a use. -/
def ownSymbols : Shape α → List SymbolId
  | .block declared _ => declared.map Variable.id
  | .region _ clauses _ _ => (clauses.filterMap Clause.binder).map Variable.id
  | .loop _ breakLabel continueLabel =>
    (breakLabel.toList ++ continueLabel.toList).map Label.id
  | .label target => [target.id]
  | .goto target => [target.id]
  | .assign target _ => [target.id]
  | .var v => [v.id]
  | _ => []

/-- Whether the layer is a suspend point. -/
def isAwait (s : Shape α) : Bool :=
  s.kind == .await

end Shape

namespace Node

/-- Every node of a tree, each before the nodes beneath it. -/
def walk : Node → List Node :=
  fold fun n layer ↦ n :: layer.children.flatten

/-- Whether there is a suspend point in a tree, the root included. -/
def containsAwait : Node → Bool :=
  fold fun _ layer ↦ layer.isAwait || layer.children.any fun suspends ↦ suspends

/-- The labels that a tree defines, those of loops included. -/
def labelsWithin : Node → List SymbolId :=
  fold fun _ layer ↦ layer.ownLabels ++ layer.children.flatten

/-- The symbols that a tree mentions anywhere. -/
def symbols (n : Node) : List SymbolId :=
  n.walk.flatMap fun m ↦ m.shape.ownSymbols

/-- The largest number of a symbol in a tree, or zero where there is none. -/
def maxSymbolId (n : Node) : SymbolId :=
  n.symbols.foldl max 0

/-- How many nodes of a tree have a given form. -/
def countKind (k : Kind) (n : Node) : Nat :=
  n.walk.countP fun m ↦ m.kind == k

/-- Whether a node may be evaluated a second time in place of keeping its value: constants, and
reads of variables that nothing assigns in between. -/
def isStable (n : Node) : Bool :=
  match n.shape with
  | .const _ => true
  | .defaultOf _ => true
  | .var _ => true
  | _ => false

theorem walk_eq (n : Node) : n.walk = n :: n.children.flatMap walk := by
  rw [walk, fold_eq, Shape.children_map, List.flatMap_def]
  rfl

theorem labelsWithin_eq (n : Node) :
    n.labelsWithin = n.shape.ownLabels ++ n.children.flatMap labelsWithin := by
  have own (f : Node → List SymbolId) : (n.shape.map f).ownLabels = n.shape.ownLabels := by
    cases n.shape <;> rfl
  rw [labelsWithin, fold_eq, Shape.children_map, List.flatMap_def, own]
  rfl

theorem labelsWithin_mk (i : NodeId) (sh : Shape Node) :
    labelsWithin ⟨i, sh⟩ = sh.ownLabels ++ sh.children.flatMap labelsWithin :=
  labelsWithin_eq ⟨i, sh⟩

theorem containsAwait_eq (n : Node) :
    n.containsAwait = (n.kind == .await || n.children.any containsAwait) := by
  rw [containsAwait, fold_eq, Shape.children_map, Shape.isAwait, Shape.kind_map, List.any_map]
  rfl

end Node

end Suspension
