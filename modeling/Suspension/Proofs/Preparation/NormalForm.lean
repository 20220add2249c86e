import Suspension.Proofs.Binding.Jumps
import Suspension.Proofs.Unsuspended.Copies
import Suspension.Tree.Alike

/-!
# The normal form of handler reduction

The reduction takes every tree to one whose handler bodies do not suspend, and moves code for that,
but neither drops nor repeats any of it: suspend points, calls and labels are as many afterwards as
before, except that a moved finally body may add a label for the end of its region. Reducing once
more copies the tree (`Node.reduce_normal`).

None of this asks anything of the tree: suspend points may stand in filters and in locks, and
symbols may repeat.
-/

namespace Suspension

/-! ### Structural equality of copies -/

namespace Shape

variable {α β : Type} {t : α → β → Bool}

theorem alikeList_map (ys : List (α × β)) (h : ∀ y ∈ ys, t y.1 y.2 = true) :
    alikeList (ys.map fun y ↦ t y.1) (ys.map Prod.snd) = true := by
  induction ys with
  | nil => rfl
  | cons y ys ih =>
    obtain ⟨head, tail⟩ := List.forall_mem_cons.1 h
    rw [List.map_cons, List.map_cons, alikeList, head, ih tail]
    rfl

theorem alikeOption_map {o : Option (α × β)} (h : ∀ y ∈ o.toList, t y.1 y.2 = true) :
    alikeOption (o.map fun y ↦ t y.1) (o.map Prod.snd) = true := by
  cases o with
  | none => rfl
  | some y => exact h y List.mem_cons_self

theorem alikeClauses_map {cs : List (Clause (α × β))}
    (h : ∀ y ∈ cs.flatMap Clause.children, t y.1 y.2 = true) :
    alikeClauses (cs.map (Clause.map fun y ↦ t y.1)) (cs.map (Clause.map Prod.snd)) = true := by
  induction cs with
  | nil => rfl
  | cons c cs ih =>
    rw [List.flatMap_cons, List.forall_mem_append] at h
    obtain ⟨filter, body⟩ := List.forall_mem_append.1 h.1
    have bodies : t c.body.1 c.body.2 = true := body _ List.mem_cons_self
    simp [alikeClauses, Clause.map, alikeOption_map filter, bodies, ih h.2]

theorem alikeCases_map {cs : List (Case (α × β))} (h : ∀ y ∈ cs.map Case.body, t y.1 y.2 = true) :
    alikeCases (cs.map (Case.map fun y ↦ t y.1)) (cs.map (Case.map Prod.snd)) = true := by
  induction cs with
  | nil => rfl
  | cons c cs ih =>
    obtain ⟨head, tail⟩ := List.forall_mem_cons.1 h
    simp [alikeCases, Case.map, head, ih tail]

/-- Two layers of one form are alike if their children are, each with its counterpart. -/
theorem alike_map {x : Shape (α × β)} (h : ∀ y ∈ x.children, t y.1 y.2 = true) :
    (x.map fun y ↦ t y.1).alike (x.map Prod.snd) = true := by
  cases x with
  | region body cs cleanup fault =>
    simp only [children, List.forall_mem_append, List.cons_append, List.forall_mem_cons] at h
    obtain ⟨body, ⟨clauses, cleanups⟩, faults⟩ := h
    simp [map, alike, body, alikeClauses_map clauses, alikeOption_map cleanups,
      alikeOption_map faults]
  | switch value cs otherwise =>
    simp only [children, List.forall_mem_append, List.cons_append, List.forall_mem_cons] at h
    obtain ⟨value, cases, others⟩ := h
    simp [map, alike, value, alikeCases_map cases, alikeOption_map others]
  | branch test yes no =>
    simp only [children, List.forall_mem_cons] at h
    obtain ⟨test, yes, no⟩ := h
    simp [map, alike, test, yes, alikeOption_map no]
  | block declared ns =>
    have statements := alikeList_map ns h
    simp [map, alike, sameVariables, statements]
  | call callee args =>
    have arguments := alikeList_map args h
    simp [map, alike, arguments]
  | ret value | raise value => exact alikeOption_map h
  | _ => simp_all [map, alike, children, Label.same, Variable.same, sameLabel]

end Shape

/-- The operation that a layer calls. -/
def Shape.callee? {α : Type} : Shape α → Option String
  | .call callee _ => some callee
  | _ => none

/-- The weight that counts the calls of an operation. -/
def calleeWeight (name : String) (sh : Shape Unit) : Nat :=
  if sh.callee? = some name then 1 else 0

theorem plain_calleeWeight (name : String) : Plain (calleeWeight name) := by
  intro sh plumbing
  cases sh <;> first | rfl | cases plumbing

namespace Node

open Handlers Build

theorem alike_eq (m n : Node) : m.alike n = (m.shape.map alike).alike n.shape := by
  rw [alike, fold_eq]
  rfl

/-- A copy is structurally equal to the original. -/
theorem alike_of_copy {n n' : Node} {s s' : Supply} (h : runs n.copy s n' s') :
    n.alike n' = true := by
  induction n using Node.induction generalizing s n' s' with
  | step n ih =>
    rw [copy_eq, runs_bind] at h
    obtain ⟨sh, s₁, children, step⟩ := h
    obtain ⟨x, source, rfl, threads⟩ := Runs.shape (f := copy)
      (Q := fun n _ n' _ (_ : Unit) ↦ n.alike n' = true)
      (fun a child _ _ _ run ↦ ⟨(), ih a child run⟩) children
    cases step
    rw [alike_eq, ← source, shape, Shape.map_map]
    have pairs := Shape.alike_map (t := alike) (x := x.map fun y ↦ (y.1, y.2.1)) ?_
    · rwa [Shape.map_map, Shape.map_map] at pairs
    · rw [Shape.children_map, List.forall_mem_map]
      intro y member
      obtain ⟨_, _, same⟩ := threads.of_mem member
      exact same

theorem alike_refl (n : Node) : n.alike n = true := by
  induction n using Node.induction with
  | step n ih =>
    rw [alike_eq]
    have pairs := Shape.alike_map (t := alike) (x := n.shape.map fun m ↦ (m, m)) ?_
    · rw [Shape.map_map, Shape.map_map] at pairs
      rwa [show n.shape.map (Prod.snd ∘ fun m ↦ (m, m)) = n.shape from n.shape.map_id] at pairs
    · rw [Shape.children_map]
      exact List.forall_mem_map.2 ih

/-- Trees that agree up to the numbers of nodes are structurally equal. -/
theorem alike_of_unnumbered {n n' : Node} (h : n'.unnumbered = n.unnumbered) :
    n.alike n' = true := by
  have first (m : Node) : m.unnumbered.alike n' = m.alike n' :=
    congrFun
      (fold_unnumbered (fun (tests : Shape (Node → Bool)) other ↦ tests.alike other.shape) m) n'
  rw [← first n, ← h, first n']
  exact n'.alike_refl

/-! ### What is counted -/

/-- The operations that the calls of a tree name; acquiring an awaiter is none of them. -/
def callees (n : Node) : List String :=
  n.walk.filterMap fun m ↦ m.shape.callee?

/-- How often a call names an operation is a weight. -/
theorem count_callees (n : Node) (name : String) :
    n.callees.count name = n.weight (calleeWeight name) := by
  have each (ns : List Node) : (ns.filterMap fun m ↦ m.shape.callee?).count name =
      total (fun m ↦ calleeWeight name m.shape.form) ns := by
    induction ns with
    | nil => rfl
    | cons n ns ih =>
      have own : calleeWeight name n.shape.form = if n.shape.callee? = some name then 1 else 0 := by
        obtain ⟨i, sh⟩ := n
        cases sh <;> rfl
      rw [total_cons, own, ← ih]
      cases called : n.shape.callee? with
      | none => simp [called]
      | some callee => simp [called, List.count_cons, Nat.add_comm]
  exact each n.walk

/-- **Handler reduction reaches its normal form without losing or copying code.** For every tree and
every supply: no handler body of the result suspends; the result has as many suspend points as the
tree, and calls the same operations as often; it defines the same labels as often, and besides them
only fresh labels for the ends of protected bodies; and reducing it again, with whatever supply,
gives a tree that is structurally equal. -/
theorem reduce_normal (n : Node) (s : Supply) : ∃ n' s', runs n.reduceHandlers s n' s' ∧
    n'.Reduced ∧ n'.countKind .await = n.countKind .await ∧ n'.callees.Perm n.callees ∧
    (∃ leaves : List Label, n'.labelsWithin.Perm (n.labelsWithin ++ leaves.map Label.id) ∧
      (leaves.map Label.id).Sublist (s.fresh s') ∧ ∀ l ∈ leaves, l.name = "__leave") ∧
    ∀ s₁, n'.alike (n'.reduceHandlers s₁).1 = true := by
  generalize result : n.reduceHandlers s = p
  obtain ⟨n', s'⟩ := p
  have run : runs n.reduceHandlers s n' s' := result
  have reduced := reduce_reduced run
  obtain ⟨leaves, weighs⟩ := reduce_weighs run
  refine ⟨n', s', run, reduced, ?_, ?_, ⟨leaves, ?_, weighs.fresh, weighs.named⟩, ?_⟩
  · have none : total (fun l ↦ Kind.weight .await (.label l)) leaves = 0 :=
      total_eq_zero fun _ _ ↦ rfl
    rw [countKind_eq_weight, countKind_eq_weight, weighs.weight (Kind.plain_weight rfl), none,
      Nat.add_zero]
  · rw [List.perm_iff_count]
    intro name
    have none : total (fun l ↦ calleeWeight name (.label l)) leaves = 0 :=
      total_eq_zero fun _ _ ↦ rfl
    rw [count_callees, count_callees, weighs.weight (plain_calleeWeight name), none, Nat.add_zero]
  · rw [List.perm_iff_count]
    intro id
    rw [List.count_append, count_labelsWithin, count_labelsWithin,
      weighs.weight (plain_labelWeight id), total_labelWeight]
  · intro s₁
    rw [reduceHandlers_eq_copy reduced]
    exact alike_of_copy rfl

end Node

end Suspension
