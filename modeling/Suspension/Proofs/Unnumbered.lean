import Mathlib.Logic.Basic
import Suspension.Tree.Query
import Suspension.Tree.Writer

/-!
# Trees up to the numbers of their nodes

Passes and readers build trees anew, and every node that is built takes a number of its own. What
they are to keep is everything else: `Node.unnumbered` is a tree with every number struck out, so
two trees with the same image agree in every other field at every node. Whatever is computed from
the leaves up without looking at the numbers is a function of that image (`Node.fold_unnumbered`).
-/

namespace Suspension

namespace Shape

variable {α β : Type}

theorem map_congr {f g : α → β} {sh : Shape α} (h : ∀ a ∈ sh.children, f a = g a) :
    sh.map f = sh.map g := by
  have option {o : Option α} (h : ∀ a ∈ o, f a = g a) : o.map f = o.map g :=
    Option.map_congr h
  have clauses {cs : List (Clause α)} (h : ∀ a ∈ cs.flatMap Clause.children, f a = g a) :
      cs.map (Clause.map f) = cs.map (Clause.map g) := by
    refine List.map_congr_left fun c member ↦ ?_
    have inner : ∀ a ∈ c.children, f a = g a :=
      fun a inside ↦ h a (List.mem_flatMap_of_mem member inside)
    rw [Clause.map, Clause.map, inner c.body (by simp [Clause.children]),
      option fun a inside ↦ inner a (by simp [Clause.children, Option.mem_def.1 inside])]
  have cases' {cs : List (Case α)} (h : ∀ a ∈ cs.map Case.body, f a = g a) :
      cs.map (Case.map f) = cs.map (Case.map g) := by
    refine List.map_congr_left fun c member ↦ ?_
    rw [Case.map, Case.map, h c.body (List.mem_map_of_mem member)]
  cases sh with
  | block declared ns => exact congrArg (block declared) (List.map_congr_left h)
  | call callee args => exact congrArg (call callee) (List.map_congr_left h)
  | region body cs cleanup fault =>
    simp only [children, List.cons_append, List.forall_mem_cons, List.forall_mem_append,
      Option.mem_toList] at h
    rw [map, map, h.1, clauses h.2.1.1, option h.2.1.2, option h.2.2]
  | switch value cs otherwise =>
    simp only [children, List.cons_append, List.forall_mem_cons, List.forall_mem_append,
      Option.mem_toList] at h
    rw [map, map, h.1, cases' h.2.1, option h.2.2]
  | branch test yes no =>
    simp only [children, List.forall_mem_cons, Option.mem_toList] at h
    rw [map, map, h.1, h.2.1, option h.2.2]
  | ret value => exact congrArg ret (option fun a inside ↦ h a (Option.mem_toList.2 inside))
  | raise value => exact congrArg raise (option fun a inside ↦ h a (Option.mem_toList.2 inside))
  | _ => simp_all [map, children]

end Shape

namespace Node

variable {β : Type}

/-- The tree with zero for the number of every node. -/
def unnumbered : Node → Node :=
  fold fun _ layer ↦ ⟨0, layer⟩

theorem unnumbered_eq (n : Node) : n.unnumbered = ⟨0, n.shape.map unnumbered⟩ := by
  rw [unnumbered, fold_eq]

theorem shape_unnumbered (n : Node) : n.unnumbered.shape = n.shape.map unnumbered := by
  rw [unnumbered_eq]
  rfl

/-- A result that does not depend on the numbers of nodes is that of the tree without them. -/
theorem fold_unnumbered (f : Shape β → β) (n : Node) :
    n.unnumbered.fold (fun _ layer ↦ f layer) = n.fold fun _ layer ↦ f layer := by
  induction n using induction with
  | step n ih =>
    rw [fold_eq, fold_eq _ n, shape_unnumbered, Shape.map_map]
    exact congrArg f (Shape.map_congr ih)

/-- Trees that agree up to the numbers of nodes are written as the same value. -/
theorem toJson_eq_of_unnumbered {n n' : Node} (h : n'.unnumbered = n.unnumbered) :
    n'.toJson = n.toJson := by
  rw [toJson, toJson, ← fold_unnumbered, h, fold_unnumbered]

end Node

end Suspension
