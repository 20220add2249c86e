import Suspension.Tree.Shape

/-!
# Trees

A node is a number and a layer of subtrees. Everything that walks a tree from the leaves up goes
through `Node.fold`, whose equation `Node.fold_eq` says that a node's result comes from its layer
with each child replaced by its own result. The auxiliary folds over lists, options, clauses and
cases only spell out the recursion; `Node.foldShape_eq` shows that together they are `Shape.map`.
`Node.induction` is the induction that goes with it: over the children, whatever the form.
-/

namespace Suspension

/-- The number of a node. Each node that is ever built has its own. -/
abbrev NodeId := Nat

/-- A tree: a numbered node with its subtrees. -/
inductive Node
  | mk (id : NodeId) (shape : Shape Node)

namespace Node

variable {β : Type}

/-- The number of the root. -/
def id : Node → NodeId
  | ⟨id, _⟩ => id

/-- The layer at the root. -/
def shape : Node → Shape Node
  | ⟨_, shape⟩ => shape

/-- The form of the root. -/
def kind (n : Node) : Kind :=
  n.shape.kind

/-- The subtrees right below the root, in evaluation order. -/
def children (n : Node) : List Node :=
  n.shape.children

/-! ### The recursion principle -/

mutual

/-- The result of a tree from the leaves up. `f` sees the node itself and its layer with each child
replaced by its result. -/
def fold (f : Node → Shape β → β) : Node → β
  | ⟨id, shape⟩ => f ⟨id, shape⟩ (foldShape f shape)

/-- The layer of results below a node. -/
def foldShape (f : Node → Shape β → β) : Shape Node → Shape β
  | .block declared statements => .block declared (foldList f statements)
  | .await operand acquire result => .await (fold f operand) acquire result
  | .awaiter step operand => .awaiter step (fold f operand)
  | .region body clauses cleanup fault =>
    .region (fold f body) (foldClauses f clauses) (foldOption f cleanup) (foldOption f fault)
  | .loop body breakLabel continueLabel => .loop (fold f body) breakLabel continueLabel
  | .label target => .label target
  | .goto target => .goto target
  | .switch value cases otherwise =>
    .switch (fold f value) (foldCases f cases) (foldOption f otherwise)
  | .branch test yes no => .branch (fold f test) (fold f yes) (foldOption f no)
  | .lock guard body => .lock (fold f guard) (fold f body)
  | .ret value => .ret (foldOption f value)
  | .raise value => .raise (foldOption f value)
  | .assign target value => .assign target (fold f value)
  | .binary op left right => .binary op (fold f left) (fold f right)
  | .unary op operand => .unary op (fold f operand)
  | .call callee args => .call callee (foldList f args)
  | .var v => .var v
  | .const value => .const value
  | .defaultOf ty => .defaultOf ty

/-- The results of a list of trees. -/
def foldList (f : Node → Shape β → β) : List Node → List β
  | [] => []
  | n :: ns => fold f n :: foldList f ns

/-- The result of a tree that may be absent. -/
def foldOption (f : Node → Shape β → β) : Option Node → Option β
  | none => none
  | some n => some (fold f n)

/-- The results of the clauses of a region. -/
def foldClauses (f : Node → Shape β → β) : List (Clause Node) → List (Clause β)
  | [] => []
  | ⟨binder, filter, body⟩ :: cs => ⟨binder, foldOption f filter, fold f body⟩ :: foldClauses f cs

/-- The results of the cases of a switch. -/
def foldCases (f : Node → Shape β → β) : List (Case Node) → List (Case β)
  | [] => []
  | ⟨tests, body⟩ :: cs => ⟨tests, fold f body⟩ :: foldCases f cs

end

theorem foldList_eq (f : Node → Shape β → β) (ns : List Node) :
    foldList f ns = ns.map (fold f) := by
  induction ns with
  | nil => rfl
  | cons n ns ih => rw [foldList, ih, List.map_cons]

theorem foldOption_eq (f : Node → Shape β → β) (o : Option Node) :
    foldOption f o = o.map (fold f) := by
  cases o <;> rfl

theorem foldClauses_eq (f : Node → Shape β → β) (cs : List (Clause Node)) :
    foldClauses f cs = cs.map (Clause.map (fold f)) := by
  induction cs with
  | nil => rfl
  | cons c cs ih => rw [foldClauses, ih, List.map_cons, foldOption_eq]; rfl

theorem foldCases_eq (f : Node → Shape β → β) (cs : List (Case Node)) :
    foldCases f cs = cs.map (Case.map (fold f)) := by
  induction cs with
  | nil => rfl
  | cons c cs ih => rw [foldCases, ih, List.map_cons]; rfl

theorem foldShape_eq (f : Node → Shape β → β) (s : Shape Node) :
    foldShape f s = s.map (fold f) := by
  cases s <;>
    simp [foldShape, Shape.map, foldList_eq, foldOption_eq, foldClauses_eq, foldCases_eq]

/-- The fold unrolls by one layer. -/
theorem fold_eq (f : Node → Shape β → β) (n : Node) :
    n.fold f = f n (n.shape.map (fold f)) := by
  cases n with
  | mk id shape => rw [fold, foldShape_eq]; rfl

/-! ### Induction -/

/-- How many nodes a tree has. -/
def size : Node → Nat :=
  fold fun _ layer ↦ layer.children.foldr (· + ·) 1

theorem size_eq (n : Node) : n.size = (n.children.map size).foldr (· + ·) 1 := by
  rw [size, fold_eq, Shape.children_map]
  rfl

theorem size_lt_of_mem_children {c n : Node} (h : c ∈ n.children) : c.size < n.size := by
  have lt (ns : List Node) (h : c ∈ ns) : c.size < (ns.map size).foldr (· + ·) 1 := by
    induction ns with
    | nil => cases h
    | cons m ms ih =>
      have pos : 0 < (ms.map size).foldr (· + ·) 1 := by
        clear ih h
        induction ms with
        | nil => exact Nat.one_pos
        | cons k ks ih => exact Nat.add_pos_right _ ih
      rw [List.map_cons, List.foldr_cons]
      rcases List.mem_cons.1 h with rfl | h
      · exact Nat.lt_add_of_pos_right pos
      · exact Nat.lt_of_lt_of_le (ih h) (Nat.le_add_left _ _)
  rw [size_eq n]
  exact lt _ h

/-- What holds of a node whenever it holds of the nodes right below it holds of every node. -/
@[elab_as_elim]
theorem induction {motive : Node → Prop} (step : ∀ n, (∀ c ∈ n.children, motive c) → motive n)
    (n : Node) : motive n :=
  step n fun c _ ↦ induction step c
termination_by n.size
decreasing_by exact size_lt_of_mem_children ‹_›

end Node

end Suspension
