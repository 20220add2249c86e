import Suspension.Proofs.Steps.Invariant

/-!
# What is sought is there

A run that starts without a label to seek enters a node in search of one only if the node holds it
(`finds_of_reaches`): a jump goes to a statement or a body that does, and from there the search goes
on in a child that does. Operands that are left to evaluate carry what is sought in them, so the
same is said of the tasks.
-/

namespace Suspension

namespace Steps

open Eval TransitionSystem

variable {s : Setting} {n : Node} {seek : Option SymbolId} {σ : Frame}

/-- A node holds the label that is sought in it, if one is. -/
def Finds (s : Setting) (n : Node) (seek : Option SymbolId) : Prop :=
  ∀ label, seek = some label → s.labels n label = true

theorem Finds.none : Finds s n none := by
  rintro label ⟨⟩

/-- The operands that a task has left hold what is sought in them. -/
def Task.Finds (s : Setting) (t : Task) : Prop :=
  match t.stage with
  | .operands _ rest => ∀ p ∈ rest, Steps.Finds s p.1 p.2
  | _ => True

/-- What is entered and what is left to enter holds what is sought in it. -/
structure Move.Finds (s : Setting) (m : Move) : Prop where
  control : ∀ c seek, m.control = .enter c seek → Steps.Finds s c seek
  tasks : ∀ t ∈ m.tasks, t.Finds s

/-- What is entered and what is left to enter holds what is sought in it. -/
structure Configuration.Finds (s : Setting) (c : Configuration) : Prop where
  control : ∀ n seek, c.control = .enter n seek → Steps.Finds s n seek
  tasks : ∀ t ∈ c.tasks, t.Finds s

/-- A node that holds a label defines it, or a child holds it. -/
def PassesOn (s : Setting) (n : Node) : Prop :=
  ∀ label, s.labels n label = true →
    label ∈ n.shape.ownLabels ∨ ∃ c ∈ n.children, s.labels c label = true

/-- The statement that a search leads to holds the label. -/
theorem labels_of_fromLabel {label : SymbolId} {ns rest : List Node} {c : Node}
    (h : Evaluator.fromLabel s label ns = c :: rest) : s.labels c label = true := by
  induction ns with
  | nil => cases h
  | cons m ms ih =>
    rw [fromLabel_cons] at h
    split at h
    · cases h
      assumption
    · exact ih h

namespace Move.Finds

/-- A result seeks nothing. -/
theorem give (r : Outcome) (σ : Frame) : (give r σ).Finds s :=
  ⟨by rintro c seek ⟨⟩, List.forall_mem_nil _⟩

/-- A move to a child finds what it seeks there. -/
theorem descend {st : Stage} {c : Node} {seek : Option SymbolId} (found : Steps.Finds s c seek)
    (task : Task.Finds s ⟨n, st⟩) : (descend n st c seek σ).Finds s where
  control c' seek' eq := by
    cases eq
    exact found
  tasks := List.forall_mem_singleton.2 task

theorem descend_none {st : Stage} {c : Node} (task : Task.Finds s ⟨n, st⟩) :
    (Steps.descend n st c none σ).Finds s :=
  descend .none task

/-- The next statement finds what is sought in it. -/
theorem nextStatement {rest : List Node} (last : Value)
    (found : ∀ c ∈ rest.head?, Steps.Finds s c seek) :
    (nextStatement n rest seek last σ).Finds s := by
  cases rest with
  | nil => exact give _ _
  | cons c rest => exact descend (found c rfl) trivial

/-- Each operand finds what is sought in it. -/
theorem nextOperand {done : List Value} {rest : List (Node × Option SymbolId)}
    (found : ∀ p ∈ rest, Steps.Finds s p.1 p.2) : (nextOperand s n done rest σ).Finds s := by
  cases rest with
  | nil => exact give _ _
  | cons p rest =>
    exact descend (found p List.mem_cons_self) fun q member ↦ found q
      (List.mem_cons_of_mem p member)

theorem runCleanup (r : Outcome) : (runCleanup n r σ).Finds s := by
  unfold Steps.runCleanup
  split
  · exact give _ _
  · exact descend_none trivial
  · exact give _ _

theorem runParts (r : Outcome) : (runParts n r σ).Finds s := by
  unfold Steps.runParts
  split
  · exact descend_none trivial
  · exact runCleanup _

/-- Clauses seek nothing. -/
theorem tryClauses (ex : Value) (cs : List (Clause Node)) : (tryClauses s n ex cs σ).Finds s := by
  unfold Steps.tryClauses
  split
  · exact runParts _
  · split
    · exact descend_none trivial
    · exact descend_none trivial

theorem enterArm (arm : Except FaultCause (Option Node)) : (enterArm n arm σ).Finds s := by
  unfold Steps.enterArm
  split
  · exact give _ _
  · exact give _ _
  · exact descend_none trivial

/-- A jump within a block finds its label. -/
theorem jumpInBlock (label : SymbolId) : (jumpInBlock s n label σ).Finds s := by
  unfold Steps.jumpInBlock
  split
  · exact give _ _
  · rename_i c rest start
    exact descend (by rintro _ ⟨⟩; exact labels_of_fromLabel start) trivial

theorem nextRound : (nextRound n σ).Finds s := by
  unfold Steps.nextRound
  split
  · exact descend_none trivial
  · exact give _ _

/-- A jump within a loop finds its label. -/
theorem jumpInLoop (label : SymbolId) : (jumpInLoop s n label σ).Finds s := by
  unfold Steps.jumpInLoop
  split
  · split
    · exact give _ _
    · split
      · exact descend_none trivial
      · split
        · rename_i body _ _ _ _ _ inside
          exact descend (by rintro _ ⟨⟩; exact inside) trivial
        · exact give _ _
  · exact give _ _

theorem lockBody : (lockBody n σ).Finds s := by
  unfold Steps.lockBody
  split
  · exact descend_none trivial
  · exact give _ _

/-- The test is entered in search of a label only where no arm is. -/
theorem testOrArm {test : Node} {arms : List Node}
    (found : ∀ label, seek = some label → ∃ c ∈ test :: arms, s.labels c label = true) :
    (testOrArm s n test arms seek σ).Finds s := by
  cases seek with
  | none => exact descend_none trivial
  | some label =>
    simp only [Steps.testOrArm, Evaluator.soughtArm?, Option.bind_eq_bind, Option.bind_some]
    obtain ⟨c, member, holds⟩ := found label rfl
    cases inTest : s.labels test label with
    | true => exact descend (by rintro _ ⟨⟩; exact inTest) trivial
    | false =>
      have inArm : c ∈ arms := (List.mem_cons.1 member).resolve_left fun eq ↦ by
        rw [← eq, holds] at inTest
        cases inTest
      cases selected : arms.find? fun arm ↦ s.labels arm label with
      | none => exact absurd holds (List.find?_eq_none.1 selected c inArm)
      | some arm =>
        have inside : s.labels arm label = true :=
          List.find?_some (p := fun arm ↦ s.labels arm label) selected
        exact descend (by rintro _ ⟨⟩; exact inside) trivial

/-- The operand that is entered finds what is sought. -/
theorem firstOperand (operands : List Node) : (firstOperand s n operands seek σ).Finds s := by
  rw [Steps.firstOperand]
  cases place : Evaluator.soughtOperand? s operands seek with
  | error cause => exact give _ _
  | ok entered =>
    refine nextOperand fun p member label eq ↦ ?_
    obtain ⟨⟨o, i⟩, inside, rfl⟩ := List.mem_map.1 member
    dsimp only at eq ⊢
    split at eq
    · rename_i isEntered
      subst eq isEntered
      simp only [Evaluator.soughtOperand?] at place
      cases first : operands.findIdx? fun o ↦ s.labels o label with
      | none => rw [first] at place; cases place
      | some k =>
        rw [first] at place
        dsimp only at place
        split at place
        · cases place
          obtain ⟨lt, holds, -⟩ := List.findIdx?_eq_some_iff_getElem.1 first
          obtain ⟨-, -, same⟩ := List.mem_zipIdx inside
          simpa [same] using holds
        · cases place
    · cases eq

/-- Entering a node that holds what is sought in it. -/
theorem enterNode (passes : PassesOn s n) (found : Steps.Finds s n seek) :
    (enterNode s n seek σ).Finds s := by
  rw [Steps.enterNode]
  generalize noted s (.visit n.id seek) σ = σ
  obtain ⟨i, sh⟩ := n
  -- The one child holds the label if the node does not define it.
  have only {st : Stage} {o : Node} (labels : sh.ownLabels = []) (children : sh.children = [o])
      (task : Task.Finds s ⟨⟨i, sh⟩, st⟩) : (Steps.descend ⟨i, sh⟩ st o seek σ).Finds s := by
    refine descend (fun label eq ↦ ?_) task
    rcases passes label (found label eq) with own | ⟨c, child, holds⟩
    · rw [Node.shape, labels] at own
      cases own
    · rw [Node.children, Node.shape, children] at child
      rwa [List.mem_singleton.1 child] at holds
  have any {test : Node} {arms : List Node} (labels : sh.ownLabels = [])
      (children : sh.children = test :: arms) :
      (Steps.testOrArm s ⟨i, sh⟩ test arms seek σ).Finds s := by
    refine testOrArm fun label eq ↦ ?_
    rcases passes label (found label eq) with own | inside
    · rw [Node.shape, labels] at own
      cases own
    · rwa [Node.children, Node.shape, children] at inside
  cases sh with
  | block declared ns =>
    refine nextStatement _ fun c member label eq ↦ ?_
    subst eq
    cases start : Evaluator.fromLabel s label ns with
    | nil =>
      simp only [start] at member
      cases member
    | cons d rest =>
      simp only [start] at member
      cases member
      exact labels_of_fromLabel start
  | await =>
    simp only [startNode, Node.shape]
    split
    · exact only rfl rfl trivial
    · exact give _ _
  | awaiter => exact only rfl rfl trivial
  | region =>
    simp only [startNode, Node.shape]
    split
    · exact give _ _
    · exact descend_none trivial
  | loop body breakLabel continueLabel =>
    simp only [startNode, Node.shape]
    cases seek with
    | none => exact descend_none trivial
    | some label =>
      dsimp only
      split
      · exact give _ _
      · rename_i notBreak
        split
        · exact descend_none trivial
        · rename_i notContinue
          refine descend (fun l eq ↦ ?_) trivial
          cases eq
          rcases passes label (found label rfl) with own | ⟨c, child, holds⟩
          · simp only [Node.shape, Shape.ownLabels, List.map_append, List.mem_append,
              List.mem_map, Option.mem_toList] at own
            rcases own with ⟨m, rfl, rfl⟩ | ⟨m, rfl, rfl⟩
            · simp at notBreak
            · simp at notContinue
          · rwa [List.mem_singleton.1 child] at holds
  | switch => exact any rfl rfl
  | branch => exact any rfl rfl
  | lock =>
    simp only [startNode, Node.shape]
    split
    · exact give _ _
    · exact descend_none trivial
  | ret value =>
    cases value with
    | none => exact give _ _
    | some o => exact only rfl rfl trivial
  | raise value =>
    cases value with
    | none => exact give _ _
    | some o => exact only rfl rfl trivial
  | assign => exact only rfl rfl trivial
  | binary => exact firstOperand _
  | unary => exact only rfl rfl trivial
  | call => exact firstOperand _
  | _ => exact give _ _

/-- Leaving to a task. -/
theorem leaveTo {t : Task} (task : t.Finds s) (r : Outcome) : (leaveTo s t r σ).Finds s := by
  unfold Steps.leaveTo
  split
  · exact nextStatement _ fun _ _ ↦ .none
  · exact jumpInBlock _
  · exact give _ _
  · exact nextRound
  · exact jumpInLoop _
  · exact give _ _
  · exact give _ _
  · exact give _ _
  · rename_i stage
    rw [Task.Finds, stage] at task
    exact nextOperand task
  · exact give _ _
  · exact enterArm _
  · exact give _ _
  · exact give _ _
  · exact lockBody
  · exact give _ _
  · exact tryClauses _ _
  · exact runParts _
  · split
    · exact descend_none trivial
    · exact tryClauses _ _
  · exact tryClauses _ _
  · exact give _ _
  · exact runParts _
  · exact runCleanup _
  · exact give _ _
  · exact give _ _
  · exact give _ _

/-- A move finds what it seeks above tasks that do. -/
theorem on {m : Move} (h : m.Finds s) {K : List Task} (below : ∀ t ∈ K, t.Finds s) :
    (m.on K).Finds s where
  control := h.control
  tasks := List.forall_mem_append.2 ⟨h.tasks, below⟩

end Move.Finds

/-- A run that starts without a label to seek enters nodes only in search of what they hold. -/
theorem finds_of_reaches {root : Node} {c : Configuration}
    (passes : ∀ n ∈ root.walk, PassesOn s n)
    (h : (system s).Reaches (start root none σ) c) : c.Finds s := by
  obtain ⟨k, rfl⟩ := h
  induction k with
  | zero => exact ⟨by rintro _ _ ⟨⟩; exact .none, List.forall_mem_nil _⟩
  | succ k ih =>
    obtain ⟨n, lineage, here⟩ := @Invariant.lineage_of_reaches root none σ s _ ⟨k, rfl⟩
    rw [run_add, run_one]
    generalize (system s).run k (start root none σ) = c at ih lineage here
    obtain ⟨control, K, σ₁⟩ := c
    cases control with
    | enter m seek =>
      obtain rfl := here m seek rfl
      exact (Move.Finds.enterNode (passes n lineage.within) (ih.control n seek rfl)).on ih.tasks
    | leave r =>
      cases K with
      | nil => exact ih
      | cons t K =>
        obtain ⟨task, below⟩ := List.forall_mem_cons.1 ih.tasks
        exact (Move.Finds.leaveTo task r).on below

/-- Where labels are found in a tree, a node that holds one defines it, or a child holds it. -/
theorem passesOn {root : Node} (labels : ∀ n ∈ root.walk, ∀ label,
    s.labels n label = n.labelsWithin.contains label) : ∀ n ∈ root.walk, PassesOn s n := by
  intro n within label holds
  rw [labels n within, List.contains_iff_mem, Node.labelsWithin_eq] at holds
  refine (List.mem_append.1 holds).imp id fun inside ↦ ?_
  obtain ⟨c, child, inside⟩ := List.mem_flatMap.1 inside
  refine ⟨c, child, ?_⟩
  rw [labels c (Node.mem_children_walk child within)]
  exact List.contains_iff_mem.2 inside

end Steps

end Suspension
