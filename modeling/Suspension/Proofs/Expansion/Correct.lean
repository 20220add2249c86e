import Suspension.Proofs.Expansion.Unfolding

/-!
# The expansion makes twins

Where every suspend point can be come back to, what a tree unfolds to is a twin of its settled form
(`Unfolds.twin`). Suspend points stand in the bodies of regions only then, so nothing but the body
of a region adds to what is around it.
-/

namespace Suspension

theorem Node.settle_eq (n : Node) :
    n.settle = match n.shape.map settle with
      | .block declared statements =>
        ⟨n.id, .block (if n.containsAwait then [] else declared) statements⟩
      | .await operand acquire result =>
        let wait : Node := ⟨n.id, .await ⟨n.id, .block [] [operand]⟩ acquire result⟩
        if result = .unit then ⟨n.id, .block [] [wait, ⟨n.id, .defaultOf .unit⟩]⟩ else wait
      | .region body clauses cleanup fault =>
        if n.containsAwait then
          ⟨n.id, .block [] [⟨n.id, .region ⟨n.id, .block [] [body]⟩ clauses cleanup fault⟩]⟩
        else ⟨n.id, .region body clauses cleanup fault⟩
      | layer => ⟨n.id, layer⟩ :=
  fold_eq _ n

/-- Settling keeps operands what they are. -/
theorem Node.Kept.settle {keeps : SymbolId → Prop} {n : Node} (h : n.Kept keeps) :
    n.settle.Kept keeps := by
  obtain ⟨i, sh⟩ := n
  rw [Node.settle_eq]
  cases sh <;> first | exact h | exact h.elim

/-- A tree with its expansion, settled. -/
def settled (t : Node × Node × Added) : Node × Node × Added :=
  (t.1.settle, t.2)

/-- A tree, settled, and its expansion. -/
def tree (t : Node × Node × Added) : Node × Node :=
  (t.1.settle, t.2.1)

section Twins

variable {keeps : SymbolId → Prop} {c : Contract} {n e : Node} {X : Added}

/-- Layers of one form over trees and their expansions. -/
theorem Twin.of_layer {x : Shape (Node × Node × Added)}
    (below : ∀ y ∈ x.children, Unfolds c y.1 y.2.1 y.2.2)
    (twins : ∀ y ∈ x.children, Twin keeps c y.1.settle y.2.1 y.2.2) (kind : x.kind ≠ .await)
    (closed : x.kind = .region ∨ x.kind = .lock → ∀ y ∈ x.children, y.1.containsAwait = false)
    (undeclared : x.declared ≠ [] → ∀ y ∈ x.children, y.1.containsAwait = false)
    (kept : ∀ {before y after}, x.operands = before ++ y :: after → y.1.containsAwait = true →
      ∀ z ∈ before, z.1.Kept keeps) (i i' : NodeId) :
    Twin keeps c ⟨i, x.map fun y ↦ y.1.settle⟩ ⟨i', x.map (·.2.1)⟩
      (.join (x.children.map (·.2.2))) := by
  have quiet (h : ∀ y ∈ x.children, y.1.containsAwait = false) :
      ∀ y ∈ x.children, y.2.2.table = [] := fun y member ↦ by
    rw [(below y member).empty (h y member)]
  have same := @Twin.same keeps c i i' (x.map settled)
  simp only [Shape.children_map, Shape.kind_map, Shape.declared_map, Shape.operands_map,
    Shape.map_map, List.map_map, List.forall_mem_map] at same
  refine same twins kind (fun h ↦ quiet (closed h)) (fun h ↦ quiet (undeclared h)) ?_
  intro before y after split suspends z member
  obtain ⟨before, rest, split', rfl, eq⟩ := List.map_eq_append_iff.1 split
  obtain ⟨y, after, rfl, rfl, rfl⟩ := List.map_eq_cons_iff.1 eq
  obtain ⟨w, inside, rfl⟩ := List.mem_map.1 member
  have awaits := (below y (Shape.mem_operands (by rw [split']; simp))).containsAwait suspends
  exact (kept split' awaits w inside).settle

/-- Of a region whose suspend points can be come back to, nothing but the body suspends. -/
theorem Twin.of_region {i l : NodeId} {y : Node × Node × Added}
    {cs : List (Clause (Node × Node × Added))} {cleanup fault : Option (Node × Node × Added)}
    {cleanup' fault' : Option Node} {entry : Label}
    (below : ∀ z ∈ (Shape.region y cs cleanup fault).children, Unfolds c z.1 z.2.1 z.2.2)
    (twins : ∀ z ∈ (Shape.region y cs cleanup fault).children, Twin keeps c z.1.settle z.2.1 z.2.2)
    (resumable : Node.Resumable keeps ⟨i, (Shape.region y cs cleanup fault).map Prod.fst⟩)
    (parts : .join ((Shape.region y cs cleanup fault).children.map (·.2.2)) = X)
    (suspends : X.table ≠ []) (guarded : Option.Rel (IsGuarded c) (cleanup.map (·.2.1)) cleanup')
    (guarded' : Option.Rel (IsGuarded c) (fault.map (·.2.1)) fault')
    (entered : IsEntered c entry X.table y.2.1 (cs.map (Clause.map (·.2.1))) cleanup' fault' e) :
    Twin keeps c (Node.settle ⟨i, (Shape.region y cs cleanup fault).map Prod.fst⟩) e
      (X.ofRegion entry ⟨l, .goto entry⟩) := by
  have children : (Shape.region y cs cleanup fault).children =
      y :: (cs.flatMap Clause.children ++ cleanup.toList ++ fault.toList) := rfl
  rw [children] at below twins parts
  -- Only the body suspends, so nothing was moved out of the handlers and the parts.
  have quiet : ∀ z ∈ cs.flatMap Clause.children ++ cleanup.toList ++ fault.toList,
      z.1.containsAwait = false := by
    intro z member
    refine resumable.region rfl _ ?_
    have := List.mem_map_of_mem (f := Prod.fst) member
    rwa [List.map_append, List.map_append, ← Clause.flatMap_children, ← Option.toList_map,
      ← Option.toList_map] at this
  have nothing : ∀ z ∈ cs.flatMap Clause.children ++ cleanup.toList ++ fault.toList,
      z.2.2 = {} := fun z member ↦ (below z (List.mem_cons_of_mem y member)).empty (quiet z member)
  rw [List.map_cons, Added.join_eq (List.forall_mem_map.2 nothing)] at parts
  subst parts
  have awaits : Node.containsAwait ⟨i, (Shape.region y cs cleanup fault).map Prod.fst⟩ = true := by
    rw [(Node.books_of_parts i ((Shape.region y cs cleanup fault).map Prod.fst) nofun nofun).2,
      Shape.children_map, children, List.map_cons, List.any_cons,
      (below y List.mem_cons_self).containsAwait suspends]
    rfl
  have others : ∀ z ∈ cs.flatMap Clause.children ++ cleanup.toList ++ fault.toList,
      Twin keeps c z.1.settle z.2.1 {} := fun z member ↦
    nothing z member ▸ twins z (List.mem_cons_of_mem y member)
  have clauses : ∀ z ∈ (cs.map (Clause.map tree)).flatMap Clause.children,
      Twin keeps c z.1 z.2 {} := by
    rw [Clause.flatMap_children]
    exact List.forall_mem_map.2 fun z member ↦ others z (by simp [member])
  have cleanups : ∀ z ∈ (cleanup.map tree).toList ++ (fault.map tree).toList,
      Twin keeps c z.1 z.2 {} := by
    rw [Option.toList_map, Option.toList_map, ← List.map_append]
    refine List.forall_mem_map.2 fun z member ↦ others z ?_
    rw [List.append_assoc]
    exact List.mem_append_right _ member
  have twin := fun g g' ↦ @Twin.region keeps c i i i l _ _ e _ entry _ _ _ cleanup' fault'
    (twins y List.mem_cons_self) suspends clauses cleanups g g'
  simp only [List.map_map, Option.map_map, Clause.map_comp] at twin
  have settles := (Node.settle_eq ⟨i, (Shape.region y cs cleanup fault).map Prod.fst⟩).trans
    (if_pos awaits)
  simp only [List.map_map, Option.map_map, Clause.map_comp] at settles
  rw [settles]
  exact twin guarded guarded' entered

/-- What a tree unfolds to is a twin of its settled form where suspend points can be come back
to. -/
theorem Unfolds.twin (h : Unfolds c n e X) (resumable : ∀ m ∈ n.walk, m.Resumable keeps) :
    Twin keeps c n.settle e X := by
  have inside {i : NodeId} {x : Shape (Node × Node × Added)}
      (resumable : ∀ m ∈ Node.walk ⟨i, x.map Prod.fst⟩, m.Resumable keeps) :
      ∀ y ∈ x.children, ∀ m ∈ y.1.walk, m.Resumable keeps := by
    intro y member m within
    refine resumable m (Node.mem_walk_of_mem_children within ?_)
    rw [Node.children, Node.shape, Shape.children_map]
    exact List.mem_map_of_mem member
  induction h with
  | @block i i' declared xs below ih =>
    have twins (y) (member : y ∈ xs) : Twin keeps c y.1.settle y.2.1 y.2.2 :=
      ih y member (inside (x := .block declared xs) resumable y member)
    -- The settled block has given up what it declares if it suspends.
    let x : Shape (Node × Node × Added) :=
      .block (if (xs.map Prod.fst).any Node.containsAwait then [] else declared) xs
    have twin := Twin.of_layer (x := x) below twins (by rintro ⟨⟩) ?_ ?_ ?_ i i'
    · rw [Node.settle_eq, Node.containsAwait_eq]
      simp only [Node.shape, Shape.map, List.map_map]
      exact twin
    · rintro (isRegion | isLock)
      · cases isRegion
      · cases isLock
    · intro declares y member
      cases quiet : (xs.map Prod.fst).any Node.containsAwait with
      | true => exact absurd (if_pos quiet) declares
      | false =>
        simp only [List.any_map, List.any_eq_false, Function.comp_apply, Bool.not_eq_true] at quiet
        exact quiet y member
    · intro before y after split
      simp [x, Shape.operands] at split
  | point below isPoint isReturn interest ih =>
    have twin := ih fun m within ↦ resumable m
      (Node.mem_walk_of_mem_children within List.mem_cons_self)
    rw [Node.settle_eq]
    simp only [Node.shape, Shape.map]
    split
    · rename_i unit
      exact .unitPoint twin isPoint isReturn (interest.2 unit)
    · rename_i other
      exact .point twin isPoint isReturn fun none ↦ other (interest.1 none)
  | region below parts suspends guarded guarded' entered ih =>
    exact .of_region below (fun y member ↦ ih y member (inside resumable y member))
      (resumable _ (Node.mem_walk_self _)) parts suspends guarded guarded' entered
  | @same i i' x below notBlock notAwait quiet ih =>
    have here := resumable _ (Node.mem_walk_self _)
    have undeclared : x.declared = [] := by
      cases x <;> first | rfl | exact absurd rfl notBlock
    have awaits := (Node.books_of_parts i (x.map Prod.fst) (by rwa [Shape.kind_map])
      (by rwa [Shape.kind_map])).2
    -- What is left are the layers that are settled child by child.
    have settles : Node.settle ⟨i, x.map Prod.fst⟩ = ⟨i, x.map fun y ↦ y.1.settle⟩ := by
      rw [Node.settle_eq, Node.shape, Shape.map_map]
      cases x with
      | block => exact absurd rfl notBlock
      | await => exact absurd rfl notAwait
      | region body cs cleanup fault =>
        have none : Node.containsAwait ⟨i, (Shape.region body cs cleanup fault).map Prod.fst⟩ =
            false := by
          rw [awaits, Shape.children_map, List.any_map]
          exact List.any_eq_false.2 fun y member ↦ Bool.eq_false_iff.1 (quiet rfl y member)
        exact if_neg (none ▸ Bool.false_ne_true)
      | _ => rfl
    rw [settles]
    refine .of_layer below (fun y member ↦ ih y member (inside resumable y member)) notAwait ?_
      (fun declares ↦ absurd undeclared declares) ?_ i i'
    · rintro (isRegion | isLock)
      · exact quiet isRegion
      · cases x with
        | lock guard body =>
          obtain ⟨guards, bodies⟩ := here.lock rfl
          intro y member
          rcases List.mem_pair.1 member with rfl | rfl
          · exact guards
          · exact bodies
        | _ => cases isLock
    · intro before y after split suspends z member
      have operands : (Node.shape ⟨i, x.map Prod.fst⟩).operands =
          before.map Prod.fst ++ y.1 :: after.map Prod.fst := by
        rw [Node.shape, Shape.operands_map, split]
        simp
      exact here.operands operands suspends z.1 (List.mem_map_of_mem member)

end Twins

end Suspension
