import Suspension.Proofs.Expansion.Twin
import Suspension.Proofs.Labels

/-!
# Where the dispatches lead

A case of a resumption table leads to a label: that of a suspend point, with the state back at
running, or the entry of a region, whose own dispatch goes on from there (`Leads`). The labels of an
expanded body are those of the settled one and the ones that were added (`Twin.mem_labels`), so a
label that a case leads to is defined in one place only, and what is sought is found there.
-/

namespace Suspension

/-- A case leads to a label, and leaves a state behind: `i` at the entry of a region. -/
inductive Leads (c : Contract) (i : Int64) : Node → Label → Int64 → Prop
  | back {label : Label} {body : Node} (isReturn : IsReturn c label body) :
    Leads c i body label running
  | into (l : NodeId) (entry : Label) : Leads c i ⟨l, .goto entry⟩ entry i

variable {keeps : SymbolId → Prop} {c : Contract} {p e : Node} {X : Added}

/-! ### Labels of the pieces -/

section Pieces

/-- There is no label in an update of the state. -/
theorem IsUpdate.labelsWithin {value : Int64} {n : Node} (h : IsUpdate c value n) :
    n.labelsWithin = [] := by
  cases h
  rfl

/-- There is no label in a jump back. -/
theorem IsReturn.labelsWithin {label : Label} {n : Node} (h : IsReturn c label n) :
    n.labelsWithin = [] := by
  cases h with
  | mk _ _ update =>
    simp [Node.labelsWithin_mk, Shape.children, Shape.ownLabels, update.labelsWithin]

/-- There is no label in a way out. -/
theorem IsSuspension.labelsWithin {q : Point} {n : Node} (h : IsSuspension c q n) :
    n.labelsWithin = [] := by
  cases h with
  | mk _ _ _ _ update =>
    simp [Node.labelsWithin_mk, Shape.children, Shape.ownLabels, update.labelsWithin]

/-- There is no label in what leads out of the body. -/
theorem Node.Departs.labelsWithin {n : Node} (h : n.Departs c) : n.labelsWithin = [] := by
  obtain ⟨p, suspension⟩ := h
  exact suspension.labelsWithin

/-- There is no label in a question for an outcome. -/
theorem IsOutcome.labelsWithin {q : Point} {n : Node} (h : IsOutcome q n) :
    n.labelsWithin = [] := by
  cases h <;> rfl

/-- There is no label in a case. -/
theorem Leads.labelsWithin {i j : Int64} {body : Node} {label : Label}
    (h : Leads c i body label j) : body.labelsWithin = [] := by
  cases h with
  | back isReturn => exact isReturn.labelsWithin
  | into => rfl

/-- Acquiring an awaiter adds no label to its operand. -/
theorem labelsWithin_acquire (i : NodeId) (acquire : Option String) (o : Node) :
    Node.labelsWithin ⟨i, Expand.acquireShape acquire o⟩ = o.labelsWithin := by
  cases acquire <;>
    simp [Node.labelsWithin_mk, Expand.acquireShape, Shape.children, Shape.ownLabels]

/-- A suspend point has the labels of its operand and its own. -/
theorem IsPoint.labelsWithin {acquire : Option String} {q : Point} {o : Node}
    (h : IsPoint c acquire q o e) : e.labelsWithin = o.labelsWithin ++ [q.label.id] := by
  cases h with
  | mk _ _ i _ _ _ _ _ _ _ j suspension outcomes update =>
    have acquired := labelsWithin_acquire i acquire o
    have value : Node.labelsWithin ⟨j, q.valueShape⟩ = [] := by
      rw [Point.valueShape]
      cases q.result <;> rfl
    generalize (⟨i, Expand.acquireShape acquire o⟩ : Node) = a at acquired
    generalize (⟨j, q.valueShape⟩ : Node) = v at value
    simp [Node.labelsWithin_mk, Shape.children, Shape.ownLabels, acquired, value,
      suspension.labelsWithin, outcomes.labelsWithin, update.labelsWithin]

/-- A guarded part has the labels of the part. -/
theorem IsGuarded.labelsWithin {part n : Node} (h : IsGuarded c part n) :
    n.labelsWithin = part.labelsWithin := by
  cases h
  simp [Node.labelsWithin_mk, Shape.children, Shape.ownLabels]

end Pieces

/-- A case leads to one label only. -/
theorem Leads.unique {i j j' : Int64} {body : Node} {label label' : Label}
    (h : Leads c i body label j) (h' : Leads c i body label' j') : label = label' ∧ j = j' := by
  cases h with
  | back isReturn =>
    cases isReturn
    cases h' with
    | back isReturn' =>
      cases isReturn'
      exact ⟨rfl, rfl⟩
  | into =>
    cases h' with
    | back isReturn' => cases isReturn'
    | into => exact ⟨rfl, rfl⟩

/-- Every case leads to a label that is added together with it. -/
theorem Twin.leads (h : Twin keeps c p e X) (i : Int64) {case : Case Node}
    (member : case ∈ X.table) :
    ∃ label ∈ X.labels, ∃ q, Leads c i case.body label q := by
  induction h with
  | same x below kind closed undeclared kept ih =>
    obtain ⟨Y, inside, member⟩ := List.mem_flatMap.1 member
    obtain ⟨y, child, rfl⟩ := List.mem_map.1 inside
    obtain ⟨label, among, leads⟩ := ih y child member
    exact ⟨label, List.mem_flatMap.2 ⟨y.2.2, inside, among⟩, leads⟩
  | point operand isPoint isReturn interest ih =>
    rcases List.mem_append.1 member with member | member
    · obtain ⟨label, among, leads⟩ := ih member
      exact ⟨label, List.mem_append_left _ among, leads⟩
    · cases List.mem_singleton.1 member
      exact ⟨_, List.mem_append_right _ List.mem_cons_self, _, .back isReturn⟩
  | unitPoint operand isPoint isReturn interest ih =>
    rcases List.mem_append.1 member with member | member
    · obtain ⟨label, among, leads⟩ := ih member
      exact ⟨label, List.mem_append_left _ among, leads⟩
    · cases List.mem_singleton.1 member
      exact ⟨_, List.mem_append_right _ List.mem_cons_self, _, .back isReturn⟩
  | region bodies suspends clauses parts guarded guarded' entered ih =>
    cases List.mem_singleton.1 member
    exact ⟨_, List.mem_append_right _ List.mem_cons_self, _, .into _ _⟩

/-- Guarding parts keeps their labels. -/
theorem guarded_labels {part part' : Option Node} (h : Option.Rel (IsGuarded c) part part') :
    part'.toList.flatMap Node.labelsWithin = part.toList.flatMap Node.labelsWithin := by
  cases h with
  | none => rfl
  | some guarded => simp [guarded.labelsWithin]

/-- The cases of a table define no labels. -/
theorem Twin.table_labels (h : Twin keeps c p e X) :
    (X.table.map Case.body).flatMap Node.labelsWithin = [] := by
  simp only [List.flatMap_eq_nil_iff, List.forall_mem_map]
  intro case member
  obtain ⟨_, _, _, leads⟩ := h.leads 0 member
  exact leads.labelsWithin

/-- How often labels occur in several expansions. -/
theorem count_labels {l : SymbolId} {ys : List (Node × Node × Added)}
    (h : ∀ y ∈ ys, y.2.1.labelsWithin.count l =
      y.1.labelsWithin.count l + (y.2.2.labels.map Label.id).count l) :
    ((ys.map (·.2.1)).flatMap Node.labelsWithin).count l =
      ((ys.map Prod.fst).flatMap Node.labelsWithin).count l +
        ((Added.join (ys.map (·.2.2))).labels.map Label.id).count l := by
  induction ys with
  | nil => rfl
  | cons y ys ih =>
    have head := h y List.mem_cons_self
    have tail := ih fun z member ↦ h z (List.mem_cons_of_mem y member)
    simp only [List.map_cons, List.flatMap_cons, List.count_append, Added.join_cons,
      Added.append_labels, List.map_append]
    omega

/-- The labels of an expansion: those of the settled tree, and those that were added. -/
theorem Twin.count_labels (h : Twin keeps c p e X) (l : SymbolId) :
    e.labelsWithin.count l = p.labelsWithin.count l + (X.labels.map Label.id).count l := by
  induction h with
  | same x below kind closed undeclared kept ih =>
    have own {α : Type} (f : Node × Node × Added → α) : (x.map f).ownLabels = x.ownLabels := by
      cases x <;> rfl
    have children := Suspension.count_labels ih
    simp only [Node.labelsWithin_mk, own, Shape.children_map, List.count_append]
    omega
  | point operand isPoint isReturn interest ih =>
    rw [isPoint.labelsWithin]
    simp [Node.labelsWithin_mk, Shape.children, Shape.ownLabels, ih, Added.ofPoint, Nat.add_assoc]
  | unitPoint operand isPoint isReturn interest ih =>
    rw [isPoint.labelsWithin]
    simp [Node.labelsWithin_mk, Shape.children, Shape.ownLabels, ih, Added.ofPoint, Nat.add_assoc]
  | region bodies suspends clauses parts guarded guarded' entered ih ihs ihs' =>
    cases entered with
    | mk i i₁ i₂ i₃ i₄ i₅ =>
      rename_i cs cleanup fault cleanup' fault'
      have dispatch := bodies.table_labels
      have same {ys : List (Node × Node)}
          (h : ∀ y ∈ ys, y.2.labelsWithin.count l = y.1.labelsWithin.count l) :
          ((ys.map Prod.snd).flatMap Node.labelsWithin).count l =
            ((ys.map Prod.fst).flatMap Node.labelsWithin).count l := by
        rw [List.flatMap_map, List.flatMap_map, List.count_flatMap, List.count_flatMap]
        exact congrArg List.sum (List.map_congr_left h)
      have clauses := same fun y member ↦ ihs y member
      have cleanups := same fun y member ↦ ihs' y (List.mem_append_left fault.toList member)
      have faults := same fun y member ↦ ihs' y (List.mem_append_right cleanup.toList member)
      rw [← Clause.flatMap_children, ← Clause.flatMap_children] at clauses
      simp only [Node.labelsWithin_mk, Shape.children, Shape.ownLabels, Added.ofRegion,
        List.flatMap_cons, List.flatMap_append, List.cons_append, List.count_append,
        List.count_cons, List.count_nil, List.nil_append, List.append_nil, List.flatMap_nil,
        dispatch, clauses, guarded_labels guarded, guarded_labels guarded', Option.toList_map,
        cleanups, faults, ih, List.map_append, List.map_cons, List.map_nil, Option.toList_none]
      omega

end Suspension
