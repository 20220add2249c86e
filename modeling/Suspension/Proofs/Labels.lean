import Mathlib.Data.List.Nodup
import Suspension.Evaluation.LabelIndex

/-!
# What a label index answers

In a tree where nodes with one number are one node, the index of the tree answers for each of its
nodes what `Node.labelsWithin` says (`LabelIndex.build_contains_of_numbered`). The induction carries
two facts: what `collect` enters for the nodes of a tree, and that it changes nothing elsewhere.
-/

namespace Suspension

namespace Node

/-- The numbers of the nodes of a tree. -/
def ids (n : Node) : List NodeId :=
  n.walk.map id

theorem ids_eq (n : Node) : n.ids = n.id :: n.children.flatMap ids := by
  rw [ids, walk_eq, List.map_cons, List.map_flatMap]
  rfl

theorem ids_mk (i : NodeId) (sh : Shape Node) :
    ids ⟨i, sh⟩ = i :: sh.children.flatMap ids :=
  ids_eq ⟨i, sh⟩

theorem mem_walk_self (n : Node) : n ∈ n.walk := by
  rw [walk_eq]
  exact List.mem_cons_self

theorem mem_walk_of_mem_children {m c n : Node} (h : m ∈ c.walk) (child : c ∈ n.children) :
    m ∈ n.walk := by
  rw [walk_eq]
  exact List.mem_cons_of_mem _ (List.mem_flatMap.2 ⟨c, child, h⟩)

/-- Nodes beneath a node of a tree are nodes of the tree. -/
theorem mem_walk_trans {k m n : Node} (h : k ∈ m.walk) (h' : m ∈ n.walk) : k ∈ n.walk := by
  induction n using Node.induction with
  | step n ih =>
    rw [walk_eq] at h'
    rcases List.mem_cons.1 h' with rfl | below
    · exact h
    · obtain ⟨c, child, within⟩ := List.mem_flatMap.1 below
      exact mem_walk_of_mem_children (ih c child within) child

theorem mem_children_walk {c m n : Node} (h : c ∈ m.children) (h' : m ∈ n.walk) : c ∈ n.walk :=
  mem_walk_trans (mem_walk_of_mem_children (mem_walk_self c) h) h'

/-- A tree defines the labels that its parts define. -/
theorem labelsWithin_subset {m n : Node} (h : m ∈ n.walk) :
    m.labelsWithin ⊆ n.labelsWithin := by
  induction n using Node.induction with
  | step n ih =>
    rw [walk_eq] at h
    rcases List.mem_cons.1 h with rfl | inside
    · exact List.Subset.refl _
    · obtain ⟨d, child, within⟩ := List.mem_flatMap.1 inside
      rw [n.labelsWithin_eq]
      intro label found
      exact List.mem_append_right _ (List.mem_flatMap.2 ⟨d, child, ih d child within found⟩)

/-- Nodes with one number are one node, which may stand in several places of the tree. -/
def Numbered (n : Node) : Prop :=
  ∀ m ∈ n.walk, ∀ m' ∈ n.walk, m.id = m'.id → m = m'

theorem numbered_of_nodup {n : Node} (distinct : n.ids.Nodup) : n.Numbered :=
  fun _ within _ within' ↦ List.inj_on_of_nodup_map distinct within within'

end Node

namespace LabelIndex

theorem collect_eq (n : Node) :
    collect n = (do
      let below ← n.children.mapM collect
      let labels := n.shape.ownLabels ++ below.flatten
      unless labels.isEmpty do modify fun t ↦ t.insert n.id labels
      return labels) := by
  have own (f : Node → StateM LabelIndex (List SymbolId)) :
      (n.shape.map f).ownLabels = n.shape.ownLabels := by
    cases n.shape <;> rfl
  rw [collect, Node.fold_eq, Shape.children_map, List.mapM_map, own]
  rfl

/-- What is entered for one node. -/
def entered (t : LabelIndex) (n : Node) : LabelIndex :=
  if n.labelsWithin.isEmpty then t else t.insert n.id n.labelsWithin

theorem labels_entered (t : LabelIndex) (n : Node) (j : NodeId) :
    (entered t n).labels j =
      if n.id = j ∧ n.labelsWithin ≠ [] then n.labelsWithin else t.labels j := by
  rw [entered]
  cases h : n.labelsWithin with
  | nil => simp
  | cons l ls => simp

/-- What `collect` does to an index, for the nodes it enters. Those with one number overwrite each
other. -/
structure Collects (nodes : List Node) (t t' : LabelIndex) : Prop where
  others : ∀ j, t'.labels j = t.labels j ∨ ∃ m ∈ nodes, m.id = j ∧ t'.labels j = m.labelsWithin
  nodes : ∀ m ∈ nodes, m.labelsWithin ≠ [] →
    ∃ m' ∈ nodes, m'.id = m.id ∧ t'.labels m.id = m'.labelsWithin

/-- The labels of trees, and the index with their nodes entered. -/
theorem collect_children {ns : List Node}
    (h : ∀ n ∈ ns, ∀ t, (collect n t).1 = n.labelsWithin ∧ Collects n.walk t (collect n t).2)
    (t : LabelIndex) : (ns.mapM collect t).1 = ns.map Node.labelsWithin ∧
      Collects (ns.flatMap Node.walk) t (ns.mapM collect t).2 := by
  induction ns generalizing t with
  | nil => exact ⟨rfl, fun _ ↦ .inl rfl, fun _ member ↦ nomatch member⟩
  | cons n ns ih =>
    obtain ⟨first, others, nodes⟩ := h n List.mem_cons_self t
    obtain ⟨rest, others', nodes'⟩ :=
      ih (fun m member ↦ h m (List.mem_cons_of_mem n member)) (collect n t).2
    have run : (n :: ns).mapM collect t =
        ((collect n t).1 :: (ns.mapM collect (collect n t).2).1,
          (ns.mapM collect (collect n t).2).2) := by
      rw [List.mapM_cons]
      rfl
    have later {P : Node → Prop} (h : ∃ m ∈ ns.flatMap Node.walk, P m) :
        ∃ m ∈ (n :: ns).flatMap Node.walk, P m :=
      h.imp fun m ⟨member, holds⟩ ↦ ⟨List.mem_append_right _ member, holds⟩
    have earlier {P : Node → Prop} (h : ∃ m ∈ n.walk, P m) :
        ∃ m ∈ (n :: ns).flatMap Node.walk, P m :=
      h.imp fun m ⟨member, holds⟩ ↦ ⟨List.mem_append_left _ member, holds⟩
    rw [run]
    refine ⟨by rw [first, rest]; rfl, fun j ↦ ?_, fun m member some ↦ ?_⟩
    · rcases others' j with same | new
      · dsimp only
        rw [same]
        exact (others j).imp_right earlier
      · exact .inr (later new)
    · rcases List.mem_append.1 member with member | member
      · rcases others' m.id with same | new
        · dsimp only
          rw [same]
          exact earlier (nodes m member some)
        · exact later new
      · exact later (nodes' m member some)

/-- The labels of a tree, and the index with its nodes entered. -/
theorem collect_run (n : Node) (t : LabelIndex) :
    (collect n t).1 = n.labelsWithin ∧ Collects n.walk t (collect n t).2 := by
  induction n using Node.induction generalizing t with
  | step n ih =>
    obtain ⟨below, others, nodes⟩ := collect_children (fun c child ↦ ih c child) t
    have labels : n.shape.ownLabels ++ (n.children.mapM collect t).1.flatten = n.labelsWithin := by
      rw [below, Node.labelsWithin_eq, List.flatMap_def]
    have run : collect n t = (n.labelsWithin, entered (n.children.mapM collect t).2 n) := by
      have bound (x : StateM LabelIndex (List (List SymbolId)))
          (k : List (List SymbolId) → StateM LabelIndex (List SymbolId)) :
          (x >>= k) t = k (x t).1 (x t).2 := rfl
      rw [collect_eq, bound]
      dsimp only
      rw [labels, entered]
      cases n.labelsWithin <;> rfl
    have beneath {P : Node → Prop} (h : ∃ m ∈ n.children.flatMap Node.walk, P m) :
        ∃ m ∈ n :: n.children.flatMap Node.walk, P m :=
      h.imp fun m ⟨member, holds⟩ ↦ ⟨List.mem_cons_of_mem _ member, holds⟩
    rw [run, Node.walk_eq]
    refine ⟨rfl, fun j ↦ ?_, fun m member some ↦ ?_⟩
    · rw [labels_entered]
      split
      · rename_i here
        exact .inr ⟨n, List.mem_cons_self, here.1, rfl⟩
      · exact (others j).imp_right beneath
    · rw [labels_entered]
      split
      · rename_i here
        exact ⟨n, List.mem_cons_self, here.1, rfl⟩
      · rename_i elsewhere
        rcases List.mem_cons.1 member with rfl | member
        · exact absurd ⟨rfl, some⟩ elsewhere
        · exact beneath (nodes m member some)

/-- The index of a tree answers for its nodes what labels they hold. -/
theorem build_contains_of_numbered {root n : Node} (numbered : root.Numbered) (h : n ∈ root.walk)
    (label : SymbolId) :
    (build root).contains n label = n.labelsWithin.contains label := by
  obtain ⟨others, nodes⟩ := (collect_run root {}).2
  suffices labels : (build root).labels n.id = n.labelsWithin by rw [contains, labels]
  by_cases none : n.labelsWithin = []
  · rcases others n.id with same | ⟨m, within, same, found⟩
    · rw [none]
      exact same
    · rw [build, found, numbered m within n h same]
  · obtain ⟨m, within, same, found⟩ := nodes n h none
    rw [build, found, numbered m within n h same]

/-- The index of a tree whose nodes are numbered apart. -/
theorem build_contains {root n : Node} (distinct : root.ids.Nodup) (h : n ∈ root.walk)
    (label : SymbolId) :
    (build root).contains n label = n.labelsWithin.contains label :=
  build_contains_of_numbered (Node.numbered_of_nodup distinct) h label

end LabelIndex

end Suspension
