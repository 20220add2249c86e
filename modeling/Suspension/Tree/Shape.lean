import Suspension.Symbol

/-!
# One layer of a tree

A body is a tree of nodes, and a node is a number and a *shape*: one layer of the tree language over
an arbitrary type of children. Splitting the layer from the recursion keeps one definition of each
of the nineteen forms, whatever stands in for the children: subtrees, results of a pass, tests, or
actions still to run.

* `Shape.children` lists the children of a layer in the order they are evaluated.
* `Shape.mapM` replaces them in that same order, which fixes the numbers that rebuilt nodes take.
-/

namespace Suspension

/-- Operators with two operands. Both operands are always evaluated. -/
inductive BinaryOp
  | eq | ne | lt | le | gt | ge | add | sub | mul | div | mod | and | or
  deriving DecidableEq, Repr, Inhabited

/-- Operators with one operand. -/
inductive UnaryOp
  | minus | not
  deriving DecidableEq, Repr, Inhabited

/-- A question put to an awaitable value. -/
inductive AwaitStep
  /-- The handle to wait on. -/
  | acquire
  /-- Whether the operation is over. -/
  | isCompleted
  /-- Its value, or the exception it failed with. -/
  | getResult
  deriving DecidableEq, Repr, Inhabited

/-- One clause of a protected region: what to do with an exception that leaves its body. -/
structure Clause (α : Type) where
  /-- The variable that holds the exception while filter and body run. -/
  binder : Option Variable
  /-- The clause applies only where this yields true. -/
  filter : Option α
  body : α

/-- One case of a switch. -/
structure Case (α : Type) where
  /-- The values that select the case. -/
  tests : List Int64
  body : α

/-- One layer of a tree, with children of type `α`. -/
inductive Shape (α : Type)
  /-- Statements in sequence, with variables of their own. -/
  | block (declared : List Variable) (statements : List α)
  /-- A suspend point: wait for an awaitable value. `acquire` names the host operation that yields
  the handle, where it is not the value itself. -/
  | await (operand : α) (acquire : Option String) (result : Ty)
  /-- One step of the awaiter protocol. -/
  | awaiter (step : AwaitStep) (operand : α)
  /-- A protected region. `cleanup` runs on every way out, `fault` only when an exception leaves. -/
  | region (body : α) (clauses : List (Clause α)) (cleanup fault : Option α)
  /-- An endless loop; jumps to its labels leave it or start the next round. -/
  | loop (body : α) (breakLabel continueLabel : Option Label)
  | label (target : Label)
  | goto (target : Label)
  | switch (value : α) (cases : List (Case α)) (otherwise : Option α)
  | branch (test yes : α) (no : Option α)
  /-- A region under mutual exclusion. -/
  | lock (guard body : α)
  | ret (value : Option α)
  /-- Raises a value, or again the exception that is being handled. -/
  | raise (value : Option α)
  | assign (target : Variable) (value : α)
  | binary (op : BinaryOp) (left right : α)
  | unary (op : UnaryOp) (operand : α)
  /-- A host operation. -/
  | call (callee : String) (args : List α)
  | var (source : Variable)
  | const (value : Literal)
  | defaultOf (ty : Ty)

/-- The nineteen forms of a layer, in the order of the tree language. -/
inductive Kind
  | block | await | awaiter | region | loop | label | goto | switch | branch | lock | ret | raise
  | assign | binary | unary | call | var | const | defaultOf
  deriving DecidableEq, Repr, Inhabited

namespace Clause

variable {α β : Type}

/-- The filter, then the body. -/
def children (c : Clause α) : List α :=
  c.filter.toList ++ [c.body]

/-- Replaces filter and body. -/
def map (f : α → β) (c : Clause α) : Clause β :=
  ⟨c.binder, c.filter.map f, f c.body⟩

/-- Replaces the filter, then the body. -/
def mapM {m : Type → Type} [Monad m] (f : α → m β) (c : Clause α) : m (Clause β) := do
  let filter ← c.filter.mapM f
  return ⟨c.binder, filter, ← f c.body⟩

theorem map_comp {γ : Type} (f : α → β) (g : β → γ) :
    map g ∘ map f = map (g ∘ f) := by
  funext ⟨_, filter, _⟩
  cases filter <;> rfl

theorem flatMap_children (f : α → β) (cs : List (Clause α)) :
    (cs.map (map f)).flatMap children = (cs.flatMap children).map f := by
  simp [List.map_flatMap, List.flatMap_map, children, map, Option.toList_map]

end Clause

namespace Case

variable {α β : Type}

/-- Replaces the body. -/
def map (f : α → β) (c : Case α) : Case β :=
  ⟨c.tests, f c.body⟩

/-- Replaces the body. -/
def mapM {m : Type → Type} [Monad m] (f : α → m β) (c : Case α) : m (Case β) := do
  return ⟨c.tests, ← f c.body⟩

end Case

namespace Shape

variable {α β : Type}

/-- The children of a layer in evaluation order. -/
def children : Shape α → List α
  | .block _ statements => statements
  | .await operand _ _ => [operand]
  | .awaiter _ operand => [operand]
  | .region body clauses cleanup fault =>
    body :: clauses.flatMap Clause.children ++ cleanup.toList ++ fault.toList
  | .loop body _ _ => [body]
  | .label _ => []
  | .goto _ => []
  | .switch value cases otherwise => value :: cases.map Case.body ++ otherwise.toList
  | .branch test yes no => test :: yes :: no.toList
  | .lock guard body => [guard, body]
  | .ret value => value.toList
  | .raise value => value.toList
  | .assign _ value => [value]
  | .binary _ left right => [left, right]
  | .unary _ operand => [operand]
  | .call _ args => args
  | .var _ => []
  | .const _ => []
  | .defaultOf _ => []

/-- Replaces every child. -/
def map (f : α → β) : Shape α → Shape β
  | .block declared statements => .block declared (statements.map f)
  | .await operand acquire result => .await (f operand) acquire result
  | .awaiter step operand => .awaiter step (f operand)
  | .region body clauses cleanup fault =>
    .region (f body) (clauses.map (Clause.map f)) (cleanup.map f) (fault.map f)
  | .loop body breakLabel continueLabel => .loop (f body) breakLabel continueLabel
  | .label target => .label target
  | .goto target => .goto target
  | .switch value cases otherwise => .switch (f value) (cases.map (Case.map f)) (otherwise.map f)
  | .branch test yes no => .branch (f test) (f yes) (no.map f)
  | .lock guard body => .lock (f guard) (f body)
  | .ret value => .ret (value.map f)
  | .raise value => .raise (value.map f)
  | .assign target value => .assign target (f value)
  | .binary op left right => .binary op (f left) (f right)
  | .unary op operand => .unary op (f operand)
  | .call callee args => .call callee (args.map f)
  | .var v => .var v
  | .const value => .const value
  | .defaultOf ty => .defaultOf ty

/-- Replaces every child, in evaluation order. -/
def mapM {m : Type → Type} [Monad m] (f : α → m β) : Shape α → m (Shape β)
  | .block declared statements => do return .block declared (← statements.mapM f)
  | .await operand acquire result => do return .await (← f operand) acquire result
  | .awaiter step operand => do return .awaiter step (← f operand)
  | .region body clauses cleanup fault => do
    let body ← f body
    let clauses ← clauses.mapM (Clause.mapM f)
    let cleanup ← cleanup.mapM f
    return .region body clauses cleanup (← fault.mapM f)
  | .loop body breakLabel continueLabel => do return .loop (← f body) breakLabel continueLabel
  | .label target => return .label target
  | .goto target => return .goto target
  | .switch value cases otherwise => do
    let value ← f value
    let cases ← cases.mapM (Case.mapM f)
    return .switch value cases (← otherwise.mapM f)
  | .branch test yes no => do
    let test ← f test
    let yes ← f yes
    return .branch test yes (← no.mapM f)
  | .lock guard body => do
    let guard ← f guard
    return .lock guard (← f body)
  | .ret value => do return .ret (← value.mapM f)
  | .raise value => do return .raise (← value.mapM f)
  | .assign target value => do return .assign target (← f value)
  | .binary op left right => do
    let left ← f left
    return .binary op left (← f right)
  | .unary op operand => do return .unary op (← f operand)
  | .call callee args => do return .call callee (← args.mapM f)
  | .var v => return .var v
  | .const value => return .const value
  | .defaultOf ty => return .defaultOf ty

/-- Runs the actions that stand for the children, in evaluation order. -/
def sequence {m : Type → Type} [Monad m] (s : Shape (m α)) : m (Shape α) :=
  s.mapM id

/-- The form of a layer. -/
def kind : Shape α → Kind
  | .block .. => .block
  | .await .. => .await
  | .awaiter .. => .awaiter
  | .region .. => .region
  | .loop .. => .loop
  | .label .. => .label
  | .goto .. => .goto
  | .switch .. => .switch
  | .branch .. => .branch
  | .lock .. => .lock
  | .ret .. => .ret
  | .raise .. => .raise
  | .assign .. => .assign
  | .binary .. => .binary
  | .unary .. => .unary
  | .call .. => .call
  | .var .. => .var
  | .const .. => .const
  | .defaultOf .. => .defaultOf

@[simp] theorem children_map (f : α → β) (s : Shape α) :
    (s.map f).children = s.children.map f := by
  cases s <;>
    simp [map, children, List.map_flatMap, List.flatMap_map, Function.comp_def, Clause.children,
      Clause.map, Case.map, Option.toList_map]

theorem map_map {γ : Type} (f : α → β) (g : β → γ) (sh : Shape α) :
    (sh.map f).map g = sh.map (g ∘ f) := by
  cases sh <;> simp [Shape.map, Function.comp_def, Clause.map, Case.map]

@[simp] theorem kind_map (f : α → β) (s : Shape α) : (s.map f).kind = s.kind := by
  cases s <;> rfl

end Shape

namespace Kind

/-- The word that listings show for a form. -/
def name : Kind → String
  | .block => "Block"
  | .await => "Await"
  | .awaiter => "Awaiter"
  | .region => "Try"
  | .loop => "Loop"
  | .label => "Label"
  | .goto => "Goto"
  | .switch => "Switch"
  | .branch => "Condition"
  | .lock => "Lock"
  | .ret => "Return"
  | .raise => "Throw"
  | .assign => "Assign"
  | .binary => "Binary"
  | .unary => "Unary"
  | .call => "Call"
  | .var => "Variable"
  | .const => "Constant"
  | .defaultOf => "Default"

/-- The word that written trees use for a form. -/
def tag : Kind → String
  | .block => "block"
  | .await => "await"
  | .awaiter => "awaiter"
  | .region => "try"
  | .loop => "loop"
  | .label => "label"
  | .goto => "goto"
  | .switch => "switch"
  | .branch => "condition"
  | .lock => "lock"
  | .ret => "return"
  | .raise => "throw"
  | .assign => "assign"
  | .binary => "binary"
  | .unary => "unary"
  | .call => "call"
  | .var => "variable"
  | .const => "constant"
  | .defaultOf => "default"

/-- Every form, in the order of the tree language. -/
def all : List Kind :=
  [.block, .await, .awaiter, .region, .loop, .label, .goto, .switch, .branch, .lock, .ret, .raise,
    .assign, .binary, .unary, .call, .var, .const, .defaultOf]

end Kind

end Suspension
