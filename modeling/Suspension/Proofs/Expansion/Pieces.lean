import Suspension.Lowering.Lowered

/-!
# The pieces of an expanded body

What the expansion puts around a suspend point and around a protected region that suspends, as
predicates on nodes: each has one constructor, which shows the piece with the numbers of its nodes
left open. Nothing that is said of an expanded body depends on those.
-/

namespace Suspension

/-- What one suspend point uses besides the state. -/
structure Point where
  /-- The state while the body waits there. -/
  index : Nat
  /-- Where the body goes on. -/
  label : Label
  awaiter : Variable
  /-- The variable that holds the outcome, unless it is of no interest. -/
  result : Option Variable

/-- Both copies of the state are given a value. -/
inductive IsUpdate (c : Contract) (value : Int64) : Node → Prop
  | mk (i j k : NodeId) :
    IsUpdate c value ⟨i, .assign c.localState ⟨j, .assign c.state ⟨k, .const (.int value)⟩⟩⟩

/-- The way out of the body, to wait. -/
inductive IsSuspension (c : Contract) (p : Point) : Node → Prop
  | mk (i j k l : NodeId) {wait : Node} (update : IsUpdate c (Int64.ofNat p.index) wait) :
    IsSuspension c p
      ⟨i, .block [] [wait, ⟨j, .call c.notify [⟨k, .var p.awaiter⟩]⟩, ⟨l, .goto c.exit⟩]⟩

/-- A way out tells its suspend point: the state it sets, and what awaiter it hands over. -/
theorem IsSuspension.unique {c : Contract} {p q : Point} {d : Node} (h : IsSuspension c p d)
    (h' : IsSuspension c q d) :
    Int64.ofNat p.index = Int64.ofNat q.index ∧ p.awaiter = q.awaiter := by
  cases h with
  | mk _ _ _ _ update =>
    cases update with
    | mk =>
      generalize Int64.ofNat p.index = i at h' ⊢
      generalize p.awaiter = v at h' ⊢
      cases h' with
      | mk _ _ _ _ update' =>
        cases update'
        exact ⟨rfl, rfl⟩

/-- The way out of the body stands at a node. -/
def Node.Departs (c : Contract) (n : Node) : Prop :=
  ∃ p, IsSuspension c p n

theorem Node.Departs.shape {c : Contract} {n : Node} (h : n.Departs c) :
    ∃ wait handOver leave, n.shape = .block [] [wait, handOver, leave] := by
  obtain ⟨p, ⟨⟩⟩ := h
  exact ⟨_, _, _, rfl⟩

/-- The question of a suspend point whether it has to wait, above its way out. -/
inductive IsQuestion (c : Contract) (p : Point) (suspend : Node) : Node → Prop
  | mk (i j k l : NodeId) (suspension : IsSuspension c p suspend) :
    IsQuestion c p suspend
      ⟨i, .branch ⟨j, .unary .not ⟨k, .awaiter .isCompleted ⟨l, .var p.awaiter⟩⟩⟩ suspend none⟩

/-- The way to where the body goes on. -/
inductive IsReturn (c : Contract) (label : Label) : Node → Prop
  | mk (i j : NodeId) {run : Node} (update : IsUpdate c running run) :
    IsReturn c label ⟨i, .block [] [run, ⟨j, .goto label⟩]⟩

/-- The outcome of an awaiter, kept if it is of interest. -/
inductive IsOutcome (p : Point) : Node → Prop
  | kept (i j k : NodeId) {v : Variable} (result : p.result = some v) :
    IsOutcome p ⟨i, .assign v ⟨j, .awaiter .getResult ⟨k, .var p.awaiter⟩⟩⟩
  | dropped (j k : NodeId) (result : p.result = none) :
    IsOutcome p ⟨j, .awaiter .getResult ⟨k, .var p.awaiter⟩⟩

/-- What a suspend point yields. -/
def Point.valueShape (p : Point) : Shape Node :=
  match p.result with
  | some v => .var v
  | none => .defaultOf .unit

theorem Expand.children_acquireShape (acquire : Option String) (o : Node) :
    (acquireShape acquire o).children = [o] := by
  cases acquire <;> rfl

/-- A suspend point that is taken apart. -/
inductive IsPoint (c : Contract) (acquire : Option String) (p : Point) (operand : Node) :
    Node → Prop
  | mk (i i₁ i₂ i₃ i₄ i₅ i₆ i₇ i₈ i₉ i₁₀ : NodeId) {suspend outcome run : Node}
    (suspension : IsSuspension c p suspend) (outcomes : IsOutcome p outcome)
    (update : IsUpdate c running run) :
    IsPoint c acquire p operand
      ⟨i, .block p.result.toList
        [⟨i₁, .assign p.awaiter ⟨i₂, Expand.acquireShape acquire operand⟩⟩,
          ⟨i₃, .branch ⟨i₄, .unary .not ⟨i₅, .awaiter .isCompleted ⟨i₆, .var p.awaiter⟩⟩⟩ suspend
            none⟩,
          ⟨i₇, .label p.label⟩, outcome, ⟨i₈, .assign p.awaiter ⟨i₉, .defaultOf .any⟩⟩, run,
          ⟨i₁₀, p.valueShape⟩]⟩

/-- Only the state of a suspend point stands in it, not its index. -/
theorem IsPoint.reindex {c : Contract} {acquire : Option String} {p : Point} {operand n : Node}
    {i : Nat} (h : IsPoint c acquire p operand n) (same : Int64.ofNat p.index = Int64.ofNat i) :
    IsPoint c acquire { p with index := i } operand n := by
  obtain ⟨index, label, awaiter, result⟩ := p
  cases h with
  | @mk _ _ _ _ _ _ _ _ _ _ _ _ outcome _ suspension outcomes update =>
    cases suspension with
    | mk _ _ _ _ wait =>
      have outcomes : IsOutcome ⟨i, label, awaiter, result⟩ outcome := by
        cases outcomes with
        | kept j k l kept => exact .kept j k l kept
        | dropped k l dropped => exact .dropped k l dropped
      exact .mk _ _ _ _ _ _ _ _ _ _ _ (.mk _ _ _ _ (same ▸ wait)) outcomes update

/-- A part of a region under the condition that the body is not on its way out to wait. -/
inductive IsGuarded (c : Contract) (part : Node) : Node → Prop
  | mk (i j k l : NodeId) :
    IsGuarded c part
      ⟨i, .branch ⟨j, .binary .lt ⟨k, .var c.localState⟩ ⟨l, .const (.int 0)⟩⟩ part none⟩

/-- A region that is entered through a label and starts with a dispatch. -/
inductive IsEntered (c : Contract) (entry : Label) (table : Table) (body : Node)
    (clauses : List (Clause Node)) (cleanup fault : Option Node) : Node → Prop
  | mk (i i₁ i₂ i₃ i₄ i₅ : NodeId) :
    IsEntered c entry table body clauses cleanup fault
      ⟨i, .block [] [⟨i₁, .label entry⟩,
        ⟨i₂, .region ⟨i₃, .block [] [⟨i₄, .switch ⟨i₅, .var c.localState⟩ table none⟩, body]⟩
          clauses cleanup fault⟩]⟩

end Suspension
