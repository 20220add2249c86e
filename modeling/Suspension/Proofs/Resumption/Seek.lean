import Suspension.Proofs.Resumption.Voyage
import Suspension.Proofs.Steps.Reaching

/-!
# Seeking a label

A label that is defined once is found without anything but visits on the way. `Opens` tells in which
stage a layer then waits for the child that holds the label, and `Opens.seek` that it gets there.
-/

namespace Suspension

open Steps Eval TransitionSystem

/-- A layer that seeking a label in a child enters, and the stage where it waits for the child. -/
inductive Opens (keeps : SymbolId → Prop) (slots : SymbolId → Option Value) (n d : Node) :
    Stage → Prop
  | statements {before rest : List Node} (shape : n.shape = .block [] (before ++ d :: rest)) :
    Opens keeps slots n d (.statements rest)
  | round {breakLabel continueLabel : Option Label}
    (shape : n.shape = .loop d breakLabel continueLabel) : Opens keeps slots n d .round
  | operand (same : SameUnary n.shape n.shape d d) (notAwait : n.kind ≠ .await) :
    Opens keeps slots n d .operand
  | operands {before after : List Node} {done : List Value}
    (same : SameOperands n.shape n.shape (before ++ d :: after) (before ++ d :: after))
    (reread : List.Forall₂ (Reread keeps slots) before done) :
    Opens keeps slots n d (.operands done (after.map fun o ↦ (o, none)))
  | test (test : testOf n = some d) : Opens keeps slots n d .test
  | arm {before after : List Node} (notLock : n.kind ≠ .lock)
    (arms : armsOf n = before ++ d :: after) : Opens keeps slots n d .arm

namespace Opens

variable {keeps : SymbolId → Prop} {slots : SymbolId → Option Value} {n d : Node} {st : Stage}

/-- The child is one of the children. -/
theorem child (h : Opens keeps slots n d st) : d ∈ n.children := by
  obtain ⟨i, shape⟩ := n
  cases h with
  | statements shape =>
    rw [Node.children, shape]
    simp [Shape.children]
  | round shape =>
    rw [Node.children, shape]
    simp [Shape.children]
  | operand same =>
    cases same <;> simp [Node.children, Node.shape, Shape.children]
  | operands same =>
    rw [Node.children]
    generalize (⟨i, shape⟩ : Node).shape = sh at same
    generalize eq : _ ++ d :: _ = os at same
    cases same <;> simp [Shape.children, ← eq]
  | test test =>
    cases shape <;> cases test <;> simp [Node.children, Node.shape, Shape.children]
  | arm notLock arms =>
    have member : d ∈ armsOf ⟨i, shape⟩ := by simp [arms]
    cases shape <;> first | exact List.mem_cons_of_mem _ member | cases member

end Opens

section Operands

variable {V : Voyage} {outer inner : Int64} {K : List Steps.Task} {σ : Frame}

/-- An operand that is read again is stable. -/
theorem Reread.isStable {keeps : SymbolId → Prop} {slots : SymbolId → Option Value} {o : Node}
    {v : Value} (h : Reread keeps slots o v) : o.isStable = true := by
  obtain ⟨i, shape⟩ := o
  cases shape <;> first | rfl | exact h.elim

/-- An operand that is read again comes to its value once more. -/
theorem Reread.reaches (law : V.Lawful) {o : Node} {v : Value}
    (h : Reread V.keeps V.origin.persisted.get? o v) (within : o ∈ V.root.walk)
    (here : V.At outer inner σ) :
    ∃ σ', V.At outer inner σ' ∧
      (system V.s).Reaches ⟨.enter o none, K, σ⟩ ⟨.leave (.ok v), K, σ'⟩ := by
  have quiet : ∀ step i w, o.shape ≠ .awaiter step ⟨i, .var w⟩ := by
    intro _ _ _ shape
    rw [Reread, shape] at h
    exact h
  have stays : ¬ o.Departs V.c := by
    rintro ⟨p, ⟨⟩⟩
    exact h
  refine ⟨_, here.visit law within ⟨quiet, stays⟩ none, ?_⟩
  obtain ⟨i, shape⟩ := o
  cases shape with
  | const value =>
    cases h
    exact reaches_enter rfl (.refl _)
  | defaultOf ty =>
    cases h
    exact reaches_enter rfl (.refl _)
  | var w =>
    obtain ⟨kept, slot⟩ := h
    exact reaches_load ((here.lookup_kept law kept).trans slot)
  | _ => exact h.elim

/-- Operands that are read again come to their values once more. -/
theorem reaches_operands (law : V.Lawful) (n : Node) (done : List Value) {before : List Node}
    {values : List Value}
    (h : List.Forall₂ (Reread V.keeps V.origin.persisted.get?) before values)
    (within : ∀ o ∈ before, o ∈ V.root.walk) (d : Node) (seek : Option SymbolId)
    (rest : List (Node × Option SymbolId)) (here : V.At outer inner σ) :
    ∃ σ', V.At outer inner σ' ∧ (system V.s).Reaches
      ((nextOperand V.s n done (before.map (fun o ↦ (o, none)) ++ (d, seek) :: rest) σ).on K)
      ⟨.enter d seek, ⟨n, .operands (done ++ values) rest⟩ :: K, σ'⟩ := by
  induction h generalizing done σ with
  | nil =>
    rw [List.append_nil]
    exact ⟨σ, here, .refl _⟩
  | @cons o v before values head tail ih =>
    obtain ⟨σ₁, there, reach⟩ := head.reaches law (within o List.mem_cons_self) here
    obtain ⟨σ₂, there', reach'⟩ :=
      ih (done ++ [v]) (fun o' member ↦ within o' (List.mem_cons_of_mem o member)) there
    rw [List.append_assoc, List.singleton_append] at reach'
    exact ⟨σ₂, there', reach.trans (reaches_leave rfl reach')⟩

end Operands

section Start

variable {s : Setting} {n d : Node} {l : SymbolId} {before after : List Node}

/-- A search that comes to a loop goes on in its body, unless the label is one of the loop's own. -/
theorem startNode_round {breakLabel continueLabel : Option Label}
    (shape : n.shape = .loop d breakLabel continueLabel) (free : l ∉ n.shape.ownLabels)
    (σ : Frame) : startNode s n (some l) σ = descend n .round d (some l) σ := by
  simp only [shape, Shape.ownLabels, List.map_append, List.mem_append, not_or] at free
  have elsewhere {o : Option Label} (free : l ∉ o.toList.map Label.id) :
      o.any (·.id == l) = false := by
    cases o with
    | none => rfl
    | some label => exact beq_eq_false_iff_ne.2 fun eq ↦ free (eq ▸ List.mem_singleton.2 rfl)
  simp [startNode, shape, elsewhere free.1, elsewhere free.2]

/-- A search for a label in an operand begins with the operands before it, if they are stable. -/
theorem startNode_operand
    (same : SameOperands n.shape n.shape (before ++ d :: after) (before ++ d :: after))
    (stable : ∀ o ∈ before, o.isStable = true) (free : ∀ o ∈ before, s.labels o l = false)
    (found : s.labels d l = true) (σ : Frame) :
    startNode s n (some l) σ = nextOperand s n [] (before.map (fun o ↦ (o, none)) ++
      (d, some l) :: after.map fun o ↦ (o, none)) σ := by
  have sought : Evaluator.soughtOperand? s (before ++ d :: after) (some l) =
      .ok (some before.length) := by
    simp only [Evaluator.soughtOperand?]
    rw [findIdx_eq free found]
    simp [List.all_eq_true.2 stable]
  have each : Steps.sought (before ++ d :: after) (some before.length) (some l) =
      before.map (fun o ↦ (o, none)) ++ (d, some l) :: after.map fun o ↦ (o, none) :=
    sought_eq before d after (some l)
  rw [← each]
  obtain ⟨i, shape⟩ := n
  generalize before ++ d :: after = os at same sought
  dsimp only [Node.shape] at same
  cases same <;> simp only [startNode, firstOperand, Node.shape, sought]

/-- A search for a label in an arm goes there at once. -/
theorem startNode_arm (notLock : n.kind ≠ .lock) (arms : armsOf n = before ++ d :: after)
    (free : ∀ earlier, n.children = earlier ++ d :: after → ∀ m ∈ earlier, s.labels m l = false)
    (found : s.labels d l = true) (σ : Frame) :
    startNode s n (some l) σ = descend n .arm d (some l) σ := by
  obtain ⟨i, shape⟩ := n
  have start (test : Node) (split : Node.children ⟨i, shape⟩ = (test :: before) ++ d :: after) :
      testOrArm s ⟨i, shape⟩ test (before ++ d :: after) (some l) σ =
        descend ⟨i, shape⟩ .arm d (some l) σ := by
    have first := free _ split test List.mem_cons_self
    have others : (before ++ d :: after).find? (fun m ↦ s.labels m l) = some d :=
      find_eq (fun m member ↦ free _ split m (List.mem_cons_of_mem test member)) found
    have sought : Evaluator.soughtArm? s test (before ++ d :: after) (some l) = some d := by
      rw [← others]
      simp only [Evaluator.soughtArm?, Option.bind_eq_bind, Option.bind_some, first,
        Bool.false_eq_true, if_false]
    rw [testOrArm, sought]
  cases shape with
  | switch value cs otherwise =>
    have split :
        Node.children ⟨i, .switch value cs otherwise⟩ = (value :: before) ++ d :: after :=
      congrArg (value :: ·) arms
    simp only [armsOf, Node.shape] at arms
    simp only [startNode, Node.shape, arms]
    exact start value split
  | branch test yes no =>
    have split : Node.children ⟨i, .branch test yes no⟩ = (test :: before) ++ d :: after :=
      congrArg (test :: ·) arms
    simp only [armsOf, Node.shape] at arms
    simp only [startNode, Node.shape, arms]
    exact start test split
  | lock guard body => exact absurd rfl notLock
  | _ => simp [armsOf, Node.shape] at arms

end Start

namespace Opens

variable {V : Voyage} {n d : Node} {st : Stage} {outer inner : Int64} {K : List Task} {σ : Frame}
variable {l : SymbolId}

/-- Seeking a label that is defined once beneath a node leads to the child that holds it. -/
theorem seek (law : V.Lawful) (h : Opens V.keeps V.origin.persisted.get? n d st)
    (within : n ∈ V.root.walk) (once : n.labelsWithin.count l = 1) (inside : l ∈ d.labelsWithin)
    (here : V.At outer inner σ) :
    ∃ σ', V.At outer inner σ' ∧
      (system V.s).Reaches ⟨.enter n (some l), K, σ⟩ ⟨.enter d (some l), ⟨n, st⟩ :: K, σ'⟩ := by
  have labels {m : Node} (child : m ∈ n.children) :
      V.s.labels m l = m.labelsWithin.contains l :=
    law.labels m (Node.mem_children_walk child within) l
  have found : V.s.labels d l = true := by
    rw [labels h.child]
    exact List.contains_iff_mem.2 inside
  -- A node that holds a label neither asks an awaiter nor leaves the body.
  have quiet : ∀ step i v, n.shape ≠ .awaiter step ⟨i, .var v⟩ := by
    intro _ _ _ shape
    have child := h.child
    rw [Node.children, shape] at child
    cases List.mem_singleton.1 child
    cases inside
  have stays : ¬ n.Departs V.c := by
    intro departs
    rw [departs.labelsWithin] at once
    cases once
  have visited := here.visit law within ⟨quiet, stays⟩ (some l)
  have beside {before after : List Node} (split : n.children = before ++ d :: after) :
      l ∉ n.shape.ownLabels ∧ ∀ m ∈ before, V.s.labels m l = false := by
    obtain ⟨own, others⟩ := Node.sole_beside once split inside
    refine ⟨own, fun m member ↦ ?_⟩
    rw [labels (by rw [split]; exact List.mem_append_left _ member)]
    exact Bool.eq_false_iff.2 fun some ↦
      others m (List.mem_append_left _ member) (List.contains_iff_mem.1 some)
  cases h with
  | @statements before rest shape =>
    have split : n.children = before ++ d :: rest := by rw [Node.children, shape]; rfl
    exact ⟨_, visited, reaches_sought shape (beside split).2 found⟩
  | round shape =>
    have split : n.children = [] ++ d :: [] := by rw [Node.children, shape]; rfl
    exact ⟨_, visited, reaches_child (startNode_round shape (beside split).1 _)⟩
  | operand same notAwait =>
    refine ⟨_, visited, reaches_child ?_⟩
    obtain ⟨i, shape⟩ := n
    cases same <;> first | rfl | exact absurd rfl notAwait
  | @operands before after done same reread =>
    have split : n.children = before ++ d :: after := by
      rw [Node.children]
      generalize n.shape = sh at same
      generalize before ++ d :: after = os at same
      cases same <;> rfl
    have stable : ∀ o ∈ before, o.isStable = true := fun o member ↦ by
      obtain ⟨v, -, again⟩ := exists_of_forall₂_left reread member
      exact again.isStable
    have first := startNode_operand same stable (beside split).2 found
      (noted V.s (.visit n.id (some l)) σ)
    obtain ⟨σ', there, reach⟩ := reaches_operands law n [] reread
      (fun o member ↦ Node.mem_children_walk (by rw [split]; exact List.mem_append_left _ member)
        within) d (some l) (after.map fun o ↦ (o, none)) visited
    exact ⟨σ', there, reaches_enter first reach⟩
  | test test =>
    refine ⟨_, visited, reaches_child ?_⟩
    obtain ⟨i, shape⟩ := n
    cases shape <;> cases test <;>
      simp [startNode, Node.shape, testOrArm, Evaluator.soughtArm?, found]
  | arm notLock arms =>
    exact ⟨_, visited, reaches_child (startNode_arm notLock arms
      (fun _ split ↦ (beside split).2) found _)⟩

end Opens

end Suspension
