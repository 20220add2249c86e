import Suspension.Proofs.Labels
import Suspension.Proofs.Steps.Adequacy
import Suspension.Proofs.Steps.Lockstep

/-!
# Invariants of runs

The stack of a run is a path through its tree: every task waits for a child of its node, and the
node at hand is the child that the innermost task waits for (`Lineage`). An `Invariant` is a
property of frames that the nodes it admits keep, and what it asks of the nodes that a run comes to.
It is a lockstep of a run with itself (`Invariant.lockstep`), so that each step keeps the lineage
and the property follows from the moves of lockstep (`Invariant.step`).
-/

namespace Suspension

namespace Steps

open Eval TransitionSystem

/-! ### Paths -/

/-- A task waits for a child of its node. -/
def Task.Awaits (t : Task) (c : Node) : Prop :=
  ∃ A B, StageMatch (fun _ ↦ True) (fun _ _ ↦ False) A t.node t.node t.stage t.stage B c c

/-- The tasks from a node down to one beneath it. -/
inductive Lineage (root : Node) : Node → List Task → Prop
  | root : Lineage root root []
  | child {t : Task} {c : Node} {K : List Task} (outer : Lineage root t.node K)
    (awaits : t.Awaits c) : Lineage root c (t :: K)

theorem SameUnary.child {n n' o o' : Node} (h : SameUnary n.shape n'.shape o o') :
    o ∈ n.children := by
  rw [Node.children]
  generalize n.shape = sh at h
  generalize n'.shape = sh' at h
  cases h <;> simp [Shape.children]

/-- The operands of a node are its children. -/
theorem SameOperands.children {n : Node} {sh' : Shape Node} {os os' : List Node}
    (h : SameOperands n.shape sh' os os') : n.children = os := by
  rw [Node.children]
  generalize n.shape = sh at h
  cases h <;> rfl

theorem SameUnary.refl {sh sh' : Shape Node} {o o' : Node} (h : SameUnary sh sh' o o') :
    SameUnary sh sh o o := by
  cases h <;> constructor

theorem SameOperands.refl {sh sh' : Shape Node} {os os' : List Node}
    (h : SameOperands sh sh' os os') : SameOperands sh sh os os := by
  cases h
  · exact .binary ..
  · exact .call _ _ _ rfl

/-- What stands in a clause is a child of the region. -/
theorem child_of_clause {n part : Node} {c : Clause Node} (member : c ∈ clausesOf n)
    (inside : part ∈ c.children) : part ∈ n.children := by
  obtain ⟨i, sh⟩ := n
  cases sh with
  | region body cs cleanup fault =>
    refine List.mem_append_left _ (List.mem_append_left _ (List.mem_cons_of_mem _ ?_))
    exact List.mem_flatMap.2 ⟨c, member, inside⟩
  | _ => cases member

/-- An arm is a child of its node. -/
theorem child_of_arm {n arm : Node} (member : arm ∈ armsOf n) : arm ∈ n.children := by
  obtain ⟨i, sh⟩ := n
  cases sh with
  | switch => exact List.mem_cons_of_mem _ member
  | branch => exact List.mem_cons_of_mem _ member
  | lock => exact List.mem_cons_of_mem _ member
  | _ => cases member

/-- A task waits for a child of its node. -/
theorem Task.Awaits.child {t : Task} {c : Node} (h : t.Awaits c) : c ∈ t.node.children := by
  obtain ⟨n, st⟩ := t
  obtain ⟨A, B, stages⟩ := h
  dsimp only at stages ⊢
  generalize same : st = st' at stages
  cases stages with
  | statements shape =>
    rw [Node.children, shape]
    simp [Shape.children]
  | round shape =>
    rw [Node.children, shape]
    exact List.mem_cons_self
  | operand same => exact same.child
  | operands same =>
    rw [same.children]
    simp
  | test test =>
    obtain ⟨i, sh⟩ := n
    cases sh <;> cases test <;> exact List.mem_cons_self
  | arm arm => exact child_of_arm arm
  | guard shape =>
    rw [Node.children, shape]
    exact List.mem_cons_self
  | body shape =>
    rw [Node.children, shape]
    simp [Shape.children]
  | filter ex clauses _ _ filter =>
    have member := clauses ▸ List.mem_append_right _ List.mem_cons_self
    exact child_of_clause member (List.mem_append_left _ (Option.mem_toList.2 filter))
  | handler member => exact child_of_clause member (List.mem_append_right _ List.mem_cons_self)
  | fault outcomes part =>
    obtain ⟨i, sh⟩ := n
    cases sh <;> simp [partsOf, Node.shape] at part
    simp [Node.children, Node.shape, Shape.children, part]
  | cleanup outcomes part =>
    obtain ⟨i, sh⟩ := n
    cases sh <;> simp [partsOf, Node.shape] at part
    simp [Node.children, Node.shape, Shape.children, part]

/-- What a path leads to stands in the tree. -/
theorem Lineage.within {root n : Node} {K : List Task} (h : Lineage root n K) : n ∈ root.walk := by
  induction h with
  | root => exact Node.mem_walk_self root
  | child outer awaits ih => exact Node.mem_children_walk awaits.child ih

/-- Every task on a path is at a node that the end of the path stands beneath. -/
theorem Lineage.beneath {root n : Node} {K : List Task} (h : Lineage root n K) :
    ∀ t ∈ K, t.node ∈ root.walk ∧ ∃ c, t.Awaits c ∧ n ∈ c.walk := by
  induction h with
  | root => exact List.forall_mem_nil _
  | @child t c K outer awaits ih =>
    refine List.forall_mem_cons.2 ⟨⟨outer.within, c, awaits, Node.mem_walk_self c⟩,
      fun t' member ↦ ?_⟩
    obtain ⟨within, d, awaits', beneath⟩ := ih t' member
    exact ⟨within, d, awaits', Node.mem_children_walk awaits.child beneath⟩

/-! ### Invariants -/

/-- A property of frames, with the nodes that a run may come to and those among them that keep the
property. -/
structure Invariant where
  s : Setting
  /-- The nodes that a run may come to. -/
  Nodes : Node → Prop
  /-- The nodes whose evaluation keeps the property. -/
  Admits : Node → Prop
  Frames : Frame → Prop

namespace Invariant

variable (I : Invariant)

/-- What makes a property an invariant. -/
structure Lawful : Prop where
  handle : ∀ {σ} (exs : List Value), I.Frames σ → I.Frames { σ with handling := exs }
  visit : ∀ {n : Node} {seek σ}, I.Admits n → I.Frames σ → I.Frames (noted I.s (.visit n.id seek) σ)
  declare : ∀ {n declared ns σ}, I.Admits n → n.shape = .block declared ns → I.Frames σ →
    I.Frames { σ with locals := σ.locals.declare declared }
  bind : ∀ {n body cs cleanup fault clause v ex σ}, I.Admits n →
    n.shape = .region body cs cleanup fault → clause ∈ cs → clause.binder = some v → I.Frames σ →
    I.Frames (bound I.s v ex σ)
  leaf : ∀ {n σ}, IsLeaf n.shape → I.Admits n → I.Frames σ → I.Frames (leaf I.s n σ).2
  finish : ∀ {n o v σ}, SameUnary n.shape n.shape o o → I.Admits n → Yields o (.ok v) σ →
    I.Frames σ → I.Frames (finish I.s n v σ).2
  combine : ∀ {n os vs σ}, SameOperands n.shape n.shape os os → I.Admits n → I.Frames σ →
    I.Frames (combine I.s n vs σ).2

/-- A run hand in hand with itself. -/
def lockstep : Lockstep where
  s := I.s
  s' := I.s
  Nodes _ n n' := n = n' ∧ I.Nodes n
  Frames _ σ σ' := σ = σ' ∧ I.Frames σ
  Jumps _ := True
  Escapes _ _ := False
  Admits _ n n' := n = n' ∧ I.Admits n

/-- Every outcome corresponds to itself. -/
theorem outcomes_refl {J : SymbolId → Prop} {E : Exit → Exit → Prop} (all : ∀ label, J label)
    (r : Outcome) : Outcomes J E r r := by
  rcases r with e | v
  · cases e with
    | jump label => exact .jump (all label)
    | ret v => exact .ret v
    | thrown v => exact .thrown v
    | stop reason =>
      cases reason with
      | fault f => exact .fault f.cause f.node f.node
      | negationOverflow => exact .negationOverflow
      | outOfFuel => exact .outOfFuel
  · exact .value v

variable {I} {n c root : Node} {t : Task} {r : Outcome} {seek : Option SymbolId} {σ : Frame}

/-- An invariant is a lawful lockstep of a run with itself. -/
theorem lawful (law : I.Lawful) : I.lockstep.Lawful where
  waits _ _ := rfl
  labels {_ n _ _} related _ := related.1 ▸ rfl
  stable _ _ related := by rw [related.1]
  passing := False.elim
  escapes := False.elim
  escapes' := False.elim
  elsewhere := False.elim
  elsewhere' := False.elim
  within _ h := h
  handling h := by rw [h.1]
  handle exs h := ⟨by rw [h.1], law.handle exs h.2⟩
  visit admits h := by
    obtain ⟨rfl, admits⟩ := admits
    obtain ⟨rfl, h⟩ := h
    exact ⟨rfl, law.visit admits h⟩
  declare admits shape h := by
    obtain ⟨rfl, h⟩ := h
    exact ⟨rfl, law.declare admits.2 shape h⟩
  bind admits shape member bound h := by
    obtain ⟨rfl, h⟩ := h
    exact ⟨rfl, law.bind admits.2 shape member bound h⟩
  hold h _ _ := h
  leaf leaf _ admits h := by
    obtain ⟨rfl, admits⟩ := admits
    obtain ⟨rfl, h⟩ := h
    exact ⟨outcomes_refl (fun _ ↦ trivial) _, rfl, law.leaf leaf admits h⟩
  finish same admits yields h := by
    obtain ⟨rfl, admits⟩ := admits
    obtain ⟨rfl, h⟩ := h
    exact ⟨outcomes_refl (fun _ ↦ trivial) _, rfl, law.finish same.refl admits yields h⟩
  combine same admits h := by
    obtain ⟨rfl, admits⟩ := admits
    obtain ⟨rfl, h⟩ := h
    exact ⟨outcomes_refl (fun _ ↦ trivial) _, rfl, law.combine same.refl admits h⟩

variable (I) in
/-- A node that keeps the invariant, above children that a run may come to. -/
structure Opens (n : Node) : Prop where
  admits : I.Admits n
  children : ∀ c ∈ n.children, I.Nodes c

variable (I) in
/-- What a move from a node comes to. -/
inductive Moves (n : Node) : Move → Prop
  | give {r : Outcome} {σ : Frame} (frames : I.Frames σ) (yields : Yields n r σ) :
    Moves n (give r σ)
  | descend {st : Stage} {c : Node} {seek : Option SymbolId} {σ : Frame}
    (awaits : Task.Awaits ⟨n, st⟩ c) (child : I.Nodes c) (frames : I.Frames σ) :
    Moves n (descend n st c seek σ)

/-- A move in lockstep with itself is a move of the invariant. -/
theorem moves_of_lockstep {A : Scope} {m m' : Move} (h : I.lockstep.Moves A n n m m')
    (same : m = m') : I.Moves n m := by
  cases h with
  | give outcomes frames yields => exact .give frames.2 yields
  | @descend st st' B c c' seek σ σ' stages nodes sought frames =>
    have tasks : [Task.mk n st] = [⟨n, st'⟩] := congrArg Move.tasks same
    obtain rfl : st = st' := (Task.mk.inj (List.cons.inj tasks).1).2
    obtain ⟨rfl, child⟩ := nodes
    exact .descend ⟨A, B, stages⟩ child frames.2

/-- Entering a node that keeps the invariant. -/
theorem enter (law : I.Lawful) (opens : I.Opens n) (seek : Option SymbolId) (frames : I.Frames σ) :
    I.Moves n (enterNode I.s n seek σ) := by
  have layer : Layer I.lockstep.Nodes {} n.shape n.shape :=
    .refl fun c child _ ↦ ⟨rfl, opens.children c child⟩
  exact moves_of_lockstep (Lockstep.enter (lawful law) layer ⟨rfl, opens.admits⟩ seek
    (fun _ _ ↦ trivial) ⟨rfl, frames⟩) rfl

variable (I) in
/-- A task that keeps the invariant. Blocks do once they are entered. -/
structure Passes (t : Task) : Prop where
  admits : t.node.kind ≠ .block → I.Admits t.node
  children : ∀ c ∈ t.node.children, I.Nodes c

/-- Leaving to a task that keeps the invariant. -/
theorem leave (law : I.Lawful) (passes : I.Passes t) (awaits : t.Awaits c) (frames : I.Frames σ)
    (yields : Yields c r σ) : I.Moves t.node (leaveTo I.s t r σ) := by
  obtain ⟨A, B, stages⟩ := awaits
  have layer : Layer I.lockstep.Nodes A t.node.shape t.node.shape :=
    .refl fun c child _ ↦ ⟨rfl, passes.children c child⟩
  exact moves_of_lockstep (Lockstep.leave (lawful law) layer
    (fun other ↦ ⟨rfl, passes.admits other⟩) stages (outcomes_refl (fun _ ↦ trivial) r)
    ⟨rfl, frames⟩ yields) rfl

variable (I) in
/-- The invariant between two steps of a run of a tree. -/
inductive Holds (root : Node) : Configuration → Prop
  | enter {n : Node} {seek : Option SymbolId} {K : List Task} {σ : Frame}
    (lineage : Lineage root n K) (node : I.Nodes n) (tasks : ∀ t ∈ K, I.Passes t)
    (frames : I.Frames σ) : Holds root ⟨.enter n seek, K, σ⟩
  | leave {n : Node} {r : Outcome} {K : List Task} {σ : Frame} (lineage : Lineage root n K)
    (tasks : ∀ t ∈ K, I.Passes t) (frames : I.Frames σ) (yields : Yields n r σ) :
    Holds root ⟨.leave r, K, σ⟩

/-- An invariant holds behind each of its moves. -/
theorem Moves.holds {m : Move} {K : List Task} (h : I.Moves n m) (lineage : Lineage root n K)
    (tasks : ∀ t ∈ K, I.Passes t) (passes : ∀ st, I.Passes ⟨n, st⟩) : I.Holds root (m.on K) := by
  cases h with
  | give frames yields => exact .leave lineage tasks frames yields
  | descend awaits child frames =>
    exact .enter (lineage.child awaits) child (List.forall_mem_cons.2 ⟨passes _, tasks⟩) frames

/-- A step keeps the invariant, if it does not enter a node that does not. -/
theorem Holds.step (law : I.Lawful) {d : Configuration} (h : I.Holds root d)
    (opens : ∀ n seek, d.control = .enter n seek → I.Nodes n → I.Opens n) :
    I.Holds root (next I.s d) := by
  cases h with
  | enter lineage node tasks frames =>
    have here := opens _ _ rfl node
    exact (Invariant.enter law here _ frames).holds lineage tasks fun _ ↦
      ⟨fun _ ↦ here.admits, here.children⟩
  | leave lineage tasks frames yields =>
    cases lineage with
    | root => exact .leave .root tasks frames yields
    | child outer awaits =>
      obtain ⟨passes, tasks⟩ := List.forall_mem_cons.1 tasks
      exact (Invariant.leave law passes awaits frames yields).holds outer tasks fun _ ↦
        ⟨passes.admits, passes.children⟩

/-- The invariant that asks nothing. -/
def any (s : Setting) : Invariant :=
  ⟨s, fun _ ↦ True, fun _ ↦ True, fun _ ↦ True⟩

/-- What asks for nothing is an invariant. -/
theorem any_lawful (s : Setting) : (any s).Lawful := by
  constructor <;> intros <;> trivial

/-- The tasks of a run are a path through its tree. -/
theorem lineage_of_reaches (s : Setting) {c : Configuration}
    (h : (system s).Reaches (start root seek σ) c) : ∃ n, Lineage root n c.tasks ∧
      ∀ m sought, c.control = .enter m sought → n = m := by
  suffices holds : (any s).Holds root c by
    cases holds with
    | enter lineage => exact ⟨_, lineage, fun _ _ eq ↦ (Control.enter.inj eq).1⟩
    | leave lineage => exact ⟨_, lineage, fun _ _ eq ↦ by cases eq⟩
  obtain ⟨k, rfl⟩ := h
  induction k with
  | zero => exact .enter .root trivial (List.forall_mem_nil _) trivial
  | succ k ih =>
    rw [run_add, run_one]
    exact ih.step (any_lawful s) fun _ _ _ _ ↦ ⟨trivial, fun _ _ ↦ trivial⟩

end Invariant

end Steps

end Suspension
