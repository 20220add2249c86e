import Suspension.Proofs.Expansion.Correct
import Suspension.Proofs.Expansion.Hoisting

/-!
# Hoisting by containment

Which blocks give up their variables is decided by flags while the tree is rebuilt. What comes out
is a matter of containment alone (`Node.expand_by_containment`): the blocks that contain a suspend
point are rebuilt without declarations, the others with the declarations that they have, and the
list of hoisted variables is what the former declare, in postorder. If a variable is in that list
twice, there is no expansion, and the rejection names the first that is, with its block.

`Rebuilt` is the shape of an expansion, of a tree with suspend points in any place: in the operand
of another, in handlers, in locks.
-/

namespace Suspension

/-- What a tree becomes when its suspend points are expanded. -/
inductive Rebuilt (c : Contract) : Node → Node → Prop
  /-- A block keeps its declarations where there is no suspend point in it, and has none
  otherwise. -/
  | block {i i' : NodeId} {declared : List Variable} {xs : List (Node × Node)}
    (below : ∀ y ∈ xs, Rebuilt c y.1 y.2) :
    Rebuilt c ⟨i, .block declared (xs.map Prod.fst)⟩
      ⟨i', .block (if (xs.map Prod.fst).any Node.containsAwait then [] else declared)
        (xs.map Prod.snd)⟩
  /-- A suspend point is taken apart, around its rebuilt operand. -/
  | point {i : NodeId} {operand operand' e : Node} {acquire : Option String} {result : Ty}
    {p : Point} (below : Rebuilt c operand operand') (isPoint : IsPoint c acquire p operand' e)
    (interest : p.result = none ↔ result = .unit) :
    Rebuilt c ⟨i, .await operand acquire result⟩ e
  /-- A region with suspend points is entered through a label, and its finally and fault bodies are
  guarded. -/
  | region {i : NodeId} {body : Node × Node} {cs : List (Clause (Node × Node))}
    {cleanup fault : Option (Node × Node)} {cleanup' fault' : Option Node} {entry : Label}
    {table : Table} {e : Node}
    (below : ∀ y ∈ (Shape.region body cs cleanup fault).children, Rebuilt c y.1 y.2)
    (suspends : ∃ y ∈ (Shape.region body cs cleanup fault).children, y.1.containsAwait = true)
    (guarded : Option.Rel (IsGuarded c) (cleanup.map Prod.snd) cleanup')
    (guarded' : Option.Rel (IsGuarded c) (fault.map Prod.snd) fault')
    (entered : IsEntered c entry table body.2 (cs.map (Clause.map Prod.snd)) cleanup' fault' e) :
    Rebuilt c ⟨i, (Shape.region body cs cleanup fault).map Prod.fst⟩ e
  /-- Everything else keeps its form. -/
  | same {i i' : NodeId} {x : Shape (Node × Node)} (below : ∀ y ∈ x.children, Rebuilt c y.1 y.2)
    (notBlock : x.kind ≠ .block) (notAwait : x.kind ≠ .await)
    (quiet : x.kind = .region → ∀ y ∈ x.children, y.1.containsAwait = false) :
    Rebuilt c ⟨i, x.map Prod.fst⟩ ⟨i', x.map Prod.snd⟩

/-- A tree and its expansion. -/
def rebuilding (t : Node × Node × Added) : Node × Node :=
  (t.1, t.2.1)

/-- What a tree unfolds to is what it is rebuilt as. -/
theorem Unfolds.rebuilt {c : Contract} {n e : Node} {X : Added} (h : Unfolds c n e X) :
    Rebuilt c n e := by
  induction h with
  | @block i i' declared xs below ih =>
    have block := @Rebuilt.block c i i' declared (xs.map rebuilding) (List.forall_mem_map.2 ih)
    simp only [List.map_map] at block
    exact block
  | point below isPoint isReturn interest ih => exact .point ih isPoint interest
  | @region i l body cs cleanup fault cleanup' fault' entry e X below parts suspends guarded
      guarded' entered ih =>
    have region := @Rebuilt.region c i (rebuilding body) (cs.map (Clause.map rebuilding))
      (cleanup.map rebuilding) (fault.map rebuilding) cleanup' fault' entry X.table e
    have sources : Shape.region (rebuilding body) (cs.map (Clause.map rebuilding))
        (cleanup.map rebuilding) (fault.map rebuilding) =
        (Shape.region body cs cleanup fault).map rebuilding := rfl
    rw [sources, Shape.children_map, Shape.map_map] at region
    simp only [List.map_map, Option.map_map, Clause.map_comp] at region
    refine region (List.forall_mem_map.2 ih) ?_ guarded guarded' entered
    by_contra none
    refine suspends ?_
    have empty : ∀ y ∈ (Shape.region body cs cleanup fault).children, y.2.2 = {} := by
      intro y member
      refine (below y member).empty (Bool.eq_false_iff.2 fun awaits ↦ none ?_)
      exact ⟨rebuilding y, List.mem_map_of_mem member, awaits⟩
    rw [← parts, Added.join_eq_empty empty]
  | @same i i' x below notBlock notAwait quiet ih =>
    have same := @Rebuilt.same c i i' (x.map rebuilding)
    simp only [Shape.children_map, Shape.kind_map, Shape.map_map, List.forall_mem_map] at same
    exact same ih notBlock notAwait quiet

/-- **Hoisting goes by containment.** Where the variables of the blocks that contain a suspend point
are distinct, every tree is expanded: these variables are hoisted, in the order in which the blocks
stand in postorder, and each block is rebuilt without declarations if there is a suspend point in
it, and with its declarations otherwise. Where they are not distinct there is no expansion: the
first variable that repeats one before it is rejected, at the block that declares it. -/
theorem Node.expand_by_containment (c : Contract) (n : Node) (s : Supply) :
    if (n.hoistings.map (·.1.id)).Nodup then
      ∃ e r, runs (n.expand c) { supply := s } e r ∧
        r.scopes.hoisted = n.hoistings.map Prod.fst ∧ Rebuilt c n e
    else
      ∃ v block, FirstRepeat [] n.hoistings (v, block) ∧
        n.expand c { supply := s } = .error ⟨.hoistedTwice v, block⟩ := by
  rcases n.expand_hoists c { supply := s } .nil with
    ⟨e, r, run, scopes, distinct⟩ | ⟨v, block, failed, first⟩
  · have hoisted : r.scopes.hoisted = n.hoistings.map Prod.fst := by
      rw [scopes]
      rfl
    rw [hoisted, List.map_map] at distinct
    replace distinct : (n.hoistings.map (·.1.id)).Nodup := distinct
    obtain ⟨_, made⟩ := n.expand_unfolds run
    rw [if_pos distinct]
    exact ⟨e, r, run, hoisted, made.unfolds.rebuilt⟩
  · have twice : ¬(n.hoistings.map (·.1.id)).Nodup := first.not_nodup
    rw [if_neg twice]
    exact ⟨v, block, first, failed⟩

end Suspension
