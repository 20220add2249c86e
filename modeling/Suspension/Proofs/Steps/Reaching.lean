import Suspension.Proofs.Steps.Finding

/-!
# Single steps

What the machine does next where the node that is entered, or the task that is left to, is known: a
child is entered, a value is left with, a jump finds its label or goes on.
-/

namespace Suspension

open Steps Eval TransitionSystem

variable {s : Setting} {n : Node} {seek : Option SymbolId} {K : List Task} {σ : Frame} {m : Move}
variable {t : Task} {r : Outcome} {e : Configuration}

/-- Entering a node, and what comes after. -/
theorem reaches_enter (start : startNode s n seek (noted s (.visit n.id seek) σ) = m)
    (rest : (system s).Reaches (m.on K) e) : (system s).Reaches ⟨.enter n seek, K, σ⟩ e := by
  refine .head ?_
  change (system s).Reaches ((startNode s n seek _).on K) e
  rw [start]
  exact rest

/-- Entering a child from a node that is entered. -/
theorem reaches_child {st : Stage} {d : Node} {seek' : Option SymbolId} {σ' : Frame}
    (start : startNode s n seek (noted s (.visit n.id seek) σ) = descend n st d seek' σ') :
    (system s).Reaches ⟨.enter n seek, K, σ⟩ ⟨.enter d seek', ⟨n, st⟩ :: K, σ'⟩ :=
  reaches_enter start (.refl _)

/-- Entering a node that is over at once. -/
theorem reaches_value {r : Outcome} {σ' : Frame}
    (start : startNode s n seek (noted s (.visit n.id seek) σ) = give r σ') :
    (system s).Reaches ⟨.enter n seek, K, σ⟩ ⟨.leave r, K, σ'⟩ :=
  reaches_enter start (.refl _)

/-- Leaving to a task, and what comes after. -/
theorem reaches_leave (leave : leaveTo s t r σ = m) (rest : (system s).Reaches (m.on K) e) :
    (system s).Reaches ⟨.leave r, t :: K, σ⟩ e := by
  refine .head ?_
  change (system s).Reaches ((leaveTo s t r σ).on K) e
  rw [leave]
  exact rest

/-- Leaving to a task that is over with it. -/
theorem reaches_over {r' : Outcome} {σ' : Frame} (leave : leaveTo s t r σ = give r' σ') :
    (system s).Reaches ⟨.leave r, t :: K, σ⟩ ⟨.leave r', K, σ'⟩ :=
  reaches_leave leave (.refl _)

/-- Leaving to a task that enters another child. -/
theorem reaches_sibling {st : Stage} {d : Node} {seek' : Option SymbolId} {σ' : Frame}
    (leave : leaveTo s t r σ = descend n st d seek' σ') :
    (system s).Reaches ⟨.leave r, t :: K, σ⟩ ⟨.enter d seek', ⟨n, st⟩ :: K, σ'⟩ :=
  reaches_leave leave (.refl _)

/-- Leaving to an assignment. -/
theorem reaches_assigned {target : Variable} {o : Node} {v : Value} {σ' : Frame}
    (shape : n.shape = .assign target o) (set : assigned? s target v σ = some σ') :
    (system s).Reaches ⟨.leave (.ok v), ⟨n, .operand⟩ :: K, σ⟩ ⟨.leave (.ok v), K, σ'⟩ := by
  refine reaches_over ?_
  simp only [leaveTo, perform, finish, shape, bind_apply, store_apply, set]
  rfl

/-- A variable that has a value. -/
theorem reaches_load {i : NodeId} {v : Variable} {value : Value}
    (held : lookup σ v.id = some value) :
    (system s).Reaches ⟨.enter ⟨i, .var v⟩ seek, K, σ⟩
      ⟨.leave (.ok value), K, noted s (.visit i seek) σ⟩ := by
  have held' : lookup (noted s (.visit i seek) σ) v.id = some value := by
    rw [lookup, noted_locals, noted_persisted]
    exact held
  refine reaches_value ?_
  simp only [startNode, Node.shape, perform, leaf, load_apply, Node.id, held']

/-- A jump leaves for its label. -/
theorem reaches_goto (i : NodeId) (label : Label) :
    (system s).Reaches ⟨.enter ⟨i, .goto label⟩ seek, K, σ⟩
      ⟨.leave (.error (.jump label.id)), K,
        noted s (.exit (.jump label.id)) (noted s (.visit i seek) σ)⟩ := by
  refine reaches_value ?_
  simp only [startNode, Node.shape, perform, leaf, leave_apply, Node.id]

/-- A jump out of a block that does not define its label. -/
theorem reaches_outside {l : SymbolId} {rest : List Node}
    (free : ∀ m ∈ statementsOf n, s.labels m l = false) :
    (system s).Reaches ⟨.leave (.error (.jump l)), ⟨n, .statements rest⟩ :: K, σ⟩
      ⟨.leave (.error (.jump l)), K, σ⟩ := by
  refine reaches_over ?_
  simp only [leaveTo, jumpInBlock, fromLabel_eq_nil free]

/-- A jump inside of a block. -/
theorem reaches_target {l : SymbolId} {before rest rest' : List Node} {d : Node}
    (statements : statementsOf n = before ++ d :: rest)
    (free : ∀ m ∈ before, s.labels m l = false) (found : s.labels d l = true) :
    (system s).Reaches ⟨.leave (.error (.jump l)), ⟨n, .statements rest'⟩ :: K, σ⟩
      ⟨.enter d (some l), ⟨n, .statements rest⟩ :: K, σ⟩ := by
  refine reaches_sibling ?_
  simp only [leaveTo, jumpInBlock, statements, fromLabel_eq free found]

/-- Seeking a label in a block. -/
theorem reaches_sought {l : SymbolId} {declared : List Variable} {before rest : List Node}
    {d : Node} (shape : n.shape = .block declared (before ++ d :: rest))
    (free : ∀ m ∈ before, s.labels m l = false) (found : s.labels d l = true) :
    (system s).Reaches ⟨.enter n (some l), K, σ⟩
      ⟨.enter d (some l), ⟨n, .statements rest⟩ :: K,
        { noted s (.visit n.id (some l)) σ with
          locals := (noted s (.visit n.id (some l)) σ).locals.declare declared }⟩ := by
  refine reaches_child ?_
  simp only [startNode, shape, fromLabel_eq free found]
  rfl

end Suspension
