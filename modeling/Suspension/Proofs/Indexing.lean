import Suspension.Proofs.Layout
import Suspension.Proofs.Reading.Numbers

/-!
# Label indices of read and lowered trees

A jump asks the label index of the tree that runs, by the numbers of nodes. So it finds its way only
where no two nodes have one number, whatever has been moved, shared or copied on the way to that
tree. Reading takes every number from the supply (`Node.read_ids`), and so does the expansion that
ends every lowering (`Node.lower_ids`).
-/

namespace Suspension

open Build

/-- Whether the nodes of a tree are numbered apart, and the index of the tree answers for each of
them which labels are defined at or beneath it. -/
structure Node.Indexed (root : Node) : Prop where
  distinct : root.ids.Nodup
  agrees : ∀ n ∈ root.walk, ∀ label,
    (LabelIndex.build root).contains n label = true ↔ label ∈ n.labelsWithin

namespace Node

theorem indexed_of_nodup {root : Node} (distinct : root.ids.Nodup) : root.Indexed where
  distinct := distinct
  agrees n within label := by
    rw [LabelIndex.build_contains distinct within, List.contains_iff_mem]

/-- **The label index agrees with the labels of the tree**, for a tree that was read and for
whatever it is lowered to: with any of the passes, under any contract, and from any supply. -/
theorem read_indexed {text : String} {s s' : Supply} {n : Node}
    (reads : read text s = some (n, s')) : n.Indexed ∧
      ∀ options c s₁ l s₂, n.lower options c s₁ = .ok (l, s₂) → l.body.Indexed := by
  obtain ⟨-, taken⟩ := read_ids reads
  exact ⟨indexed_of_nodup (taken.nodup_iff.2 List.nodup_range'),
    fun _ _ _ _ _ lowers ↦ indexed_of_nodup (lower_ids lowers)⟩

/-- A loop around a protected suspend point, whose handler jumps out of it. -/
theorem read_indexed_loop : ∃ text s n c s₁ l s₂, read text {} = some (n, s) ∧
    n.lower {} c s₁ = .ok (l, s₂) ∧ n.Indexed ∧ l.body.Indexed := by
  let await : Json := .arr [.str "await", .arr [.str "call", .str "pending",
    .arr [.arr [.str "constant", .obj [("int", .int 5)]]]]]
  let out : Json := .arr [.int 8, .str "out"]
  let clause : Json := .arr [.null, .null, .arr [.str "goto", out]]
  let value : Json := .arr [.str "loop", .arr [.str "try", await, .arr [clause]], out]
  have parsed : Json.read? value.print = some value := Json.read?_print (by decide) (by decide)
  -- the contract takes its symbols behind those of the text
  let fresh (n : Node) (s : Supply) := Contract.fresh onCompleted (reserveThrough n.maxSymbolId s).2
  have made : ((ofJson value {}).any fun p ↦
      (p.1.lower {} (fresh p.1 p.2).1 (fresh p.1 p.2).2).toOption.isSome) = true := by
    decide +kernel
  obtain ⟨⟨n, s⟩, reads, lowered⟩ := (Option.any_eq_true _ _).1 made
  obtain ⟨⟨l, s'⟩, lowered⟩ := Option.isSome_iff_exists.1 lowered
  have lowers : n.lower {} (fresh n s).1 (fresh n s).2 = .ok (l, s') := ok_of_toOption lowered
  have text := read_of_ofJson parsed reads
  obtain ⟨own, all⟩ := read_indexed text
  exact ⟨_, _, n, _, _, l, s', text, lowers, own, all _ _ _ _ _ lowers⟩

end Node

end Suspension
