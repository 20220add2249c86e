import Mathlib.Data.List.Nodup
import Suspension.Proofs.Expansion.Routes
import Suspension.Proofs.Steps.Layer

/-!
# A clear way

A resumed body finds its way by the states in the tables and by labels. `Clear` says that both are
unambiguous at a place of an expanded body: no state stands in two cases, and a label that was added
is defined once. What is clear at a place is clear further inside.
-/

namespace Suspension

open Steps

variable {keeps : SymbolId → Prop} {c : Contract} {p e : Node} {X : Added}

/-! ### Labels that occur once -/

/-- A label occurs beneath a node at least as often as beneath its child. -/
theorem Node.count_labels_le {d n : Node} (child : d ∈ n.children) (l : SymbolId) :
    d.labelsWithin.count l ≤ n.labelsWithin.count l := by
  obtain ⟨before, after, split⟩ := List.append_of_mem child
  rw [n.labelsWithin_eq, split]
  simp only [List.flatMap_append, List.flatMap_cons, List.count_append]
  omega

/-- A label that is defined once beneath a node is not defined beside the child that has it. -/
theorem Node.sole_beside {n d : Node} {before after : List Node} {l : SymbolId}
    (once : n.labelsWithin.count l = 1) (split : n.children = before ++ d :: after)
    (inside : l ∈ d.labelsWithin) :
    l ∉ n.shape.ownLabels ∧ ∀ m ∈ before ++ after, l ∉ m.labelsWithin := by
  rw [n.labelsWithin_eq, split] at once
  have pos := List.count_pos_iff.2 inside
  simp only [List.flatMap_append, List.flatMap_cons, List.count_append] at once
  refine ⟨List.count_eq_zero.1 (by omega), fun m member found ↦ ?_⟩
  have more : 0 < (before.flatMap labelsWithin ++ after.flatMap labelsWithin).count l := by
    rw [← List.flatMap_append]
    exact List.count_pos_iff.2 (List.mem_flatMap.2 ⟨m, member, found⟩)
  rw [List.count_append] at more
  omega

theorem Twin.mem_labelsWithin (h : Twin keeps c p e X) {l : SymbolId}
    (added : l ∈ X.labels.map Label.id) : l ∈ e.labelsWithin := by
  have pos := List.count_pos_iff.2 added
  have count := h.count_labels l
  exact List.count_pos_iff.1 (by omega)

/-- The way to the suspend points beneath an expansion is clear. -/
structure Clear (keeps : SymbolId → Prop) (c : Contract) (p e : Node) (X : Added) : Prop where
  twin : Twin keeps c p e X
  tests : (X.table.flatMap Case.tests).Nodup
  sole : ∀ l ∈ X.labels.map Label.id, e.labelsWithin.count l = 1

theorem Table.tests_subset {T T' : Table} (h : T ⊆ T') :
    T.flatMap Case.tests ⊆ T'.flatMap Case.tests := by
  intro i inside
  obtain ⟨case, member, selects⟩ := List.mem_flatMap.1 inside
  exact List.mem_flatMap.2 ⟨case, h member, selects⟩

/-- A state stands in one case only. -/
theorem Table.case_unique {table : Table} (distinct : (table.flatMap Case.tests).Nodup) {i : Int64}
    {a b : Case Node} (member : a ∈ table) (member' : b ∈ table) (selects : i ∈ a.tests)
    (selects' : i ∈ b.tests) : a = b := by
  induction table with
  | nil => cases member
  | cons first rest ih =>
    rw [List.flatMap_cons, List.nodup_append] at distinct
    obtain ⟨-, tail, apart⟩ := distinct
    rcases List.mem_cons.1 member with rfl | inside <;>
      rcases List.mem_cons.1 member' with rfl | inside'
    · rfl
    · exact absurd rfl (apart i selects i (List.mem_flatMap.2 ⟨b, inside', selects'⟩))
    · exact absurd rfl (apart i selects' i (List.mem_flatMap.2 ⟨a, inside, selects⟩))
    · exact ih tail inside inside'

/-- The case of a state is the one that is found. -/
theorem Table.find_eq {table : Table} (distinct : (table.flatMap Case.tests).Nodup) {i : Int64}
    {case : Case Node} (member : case ∈ table) (selects : i ∈ case.tests) :
    table.find? (fun c ↦ c.tests.contains i) = some case := by
  cases found : table.find? fun c ↦ c.tests.contains i with
  | none =>
    have := List.find?_eq_none.1 found case member
    simp [selects] at this
  | some other =>
    have selects' : i ∈ other.tests := by simpa using List.find?_some found
    rw [Table.case_unique distinct (List.mem_of_find?_eq_some found) member selects' selects]

namespace Clear

/-- What is clear around a part of an expansion is clear in the part. -/
theorem part {q d : Node} {Y : Added} (h : Clear keeps c p e X) (twin : Twin keeps c q d Y)
    (tests : (Y.table.flatMap Case.tests).Sublist (X.table.flatMap Case.tests))
    (labels : Y.labels ⊆ X.labels)
    (count : ∀ l, d.labelsWithin.count l ≤ e.labelsWithin.count l) : Clear keeps c q d Y where
  twin := twin
  tests := h.tests.sublist tests
  sole l added := by
    have pos := List.count_pos_iff.2 (twin.mem_labelsWithin added)
    have once := h.sole l (List.map_subset _ labels added)
    have := count l
    omega

theorem child {i i' : NodeId} {x : Shape (Node × Node × Added)} {y : Node × Node × Added}
    (h : Clear keeps c ⟨i, x.map Prod.fst⟩ ⟨i', x.map (·.2.1)⟩ (.join (x.children.map (·.2.2))))
    (twin : Twin keeps c y.1 y.2.1 y.2.2) (member : y ∈ x.children) :
    Clear keeps c y.1 y.2.1 y.2.2 := by
  have among : y.2.2 ∈ x.children.map (·.2.2) := List.mem_map_of_mem member
  refine h.part twin ?_ ?_ fun l ↦ ?_
  · rw [Added.join, List.flatMap_assoc]
    rw [List.flatMap_def]
    exact List.sublist_flatten_of_mem (List.mem_map_of_mem among)
  · exact fun l inside ↦ List.mem_flatMap.2 ⟨_, among, inside⟩
  · refine Node.count_labels_le ?_ l
    change _ ∈ (x.map (·.2.1)).children
    rw [Shape.children_map]
    exact List.mem_map_of_mem member

theorem operand {acquire : Option String} {q : Point} {p' o entry : Node}
    (h : Clear keeps c p e (X ++ .ofPoint q entry)) (twin : Twin keeps c p' o X)
    (isPoint : IsPoint c acquire q o e) : Clear keeps c p' o X := by
  refine h.part twin ?_ (List.subset_append_left _ _) fun l ↦ ?_
  · rw [Added.append_table, List.flatMap_append]
    exact List.sublist_append_left _ _
  · rw [isPoint.labelsWithin, List.count_append]
    exact Nat.le_add_right _ _

theorem body {entry : Label} {enter p' body : Node} {cs : List (Clause Node)}
    {cleanup fault : Option Node} (h : Clear keeps c p e (X.ofRegion entry enter))
    (twin : Twin keeps c p' body X)
    (entered : IsEntered c entry X.table body cs cleanup fault e) : Clear keeps c p' body X := by
  refine h.part twin ?_ (List.subset_append_left _ _) fun l ↦ ?_
  · change List.Sublist _ (X.table.flatMap Case.tests ++ [])
    rw [List.append_nil]
  · cases entered with
    | mk i i₁ i₂ i₃ i₄ i₅ =>
      let dispatch : Node := ⟨i₄, .switch ⟨i₅, .var c.localState⟩ X.table none⟩
      let inner : Node := ⟨i₃, .block [] [dispatch, body]⟩
      let region : Node := ⟨i₂, .region inner cs cleanup fault⟩
      have first : body.labelsWithin.count l ≤ inner.labelsWithin.count l :=
        Node.count_labels_le (List.mem_cons_of_mem dispatch List.mem_cons_self) l
      have second : inner.labelsWithin.count l ≤ region.labelsWithin.count l :=
        Node.count_labels_le List.mem_cons_self l
      exact Nat.le_trans first (Nat.le_trans second
        (Node.count_labels_le (List.mem_cons_of_mem _ List.mem_cons_self) l))

end Clear

end Suspension
