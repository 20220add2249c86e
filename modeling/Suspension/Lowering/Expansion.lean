import Suspension.Lowering.Resumption
import Suspension.Lowering.Scopes

/-!
# Expanding suspend points

This pass takes each suspend point apart: get the awaiter, go on if it is completed, otherwise note
the state, hand the awaiter over and leave the body. Behind that stands the label where a resumed
body goes on, with the result of the awaiter.

Blocks that suspend lose their declarations to `Scopes`. A protected region that suspends gets an
entry label in front of it and a dispatch as its first statement, so that a resumed body enters it
from the top; and its finally and fault bodies run only when the body is not on its way out to wait.
-/

namespace Suspension

open Build

/-- The state of the pass. -/
structure Expansion where
  supply : Supply
  scopes : Scopes := {}
  resumption : Resumption := {}
  /-- The variables that hold awaiters, in the order they were made. -/
  fields : List Variable := []

/-- Computations of the pass. -/
abbrev Expand := StateT Expansion (Except Rejection)

namespace Expand

/-- Building nodes is part of the pass. -/
def ofBuild {α : Type} (b : Build α) : Expand α :=
  fun r ↦
    let (a, supply) := b r.supply
    .ok (a, { r with supply })

instance : MonadLift Build Expand := ⟨ofBuild⟩

/-- A change of the open scopes. -/
def changeScopes (f : Scopes → Scopes) : Expand Unit :=
  modify fun r ↦ { r with scopes := f r.scopes }

/-- Closes the innermost block. -/
def exitBlock (declared : List Variable) (block : NodeId) : Expand Bool :=
  fun r ↦
    match r.scopes.exit declared block with
    | (.ok hoisted, scopes) => .ok (hoisted, { r with scopes })
    | (.error rejection, _) => .error rejection

/-- A variable that outlives the run, for an awaiter. -/
def newField (name : String) (ty : Ty) : Expand Variable := do
  let v ← newVariable name ty
  modify fun r ↦ { r with fields := r.fields ++ [v] }
  return v

/-- Takes the next state. -/
def allocate (c : Contract) : Expand ResumePoint := do
  let (point, resumption) ← (← get).resumption.allocate c
  modify fun r ↦ { r with resumption }
  return point

/-- Opens a region of the resumption tables. -/
def openRegion : Expand Unit :=
  modify fun r ↦ { r with resumption := r.resumption.openRegion }

/-- Closes a region of the resumption tables. -/
def closeRegion : Expand Table :=
  modifyGet fun r ↦
    let (table, resumption) := r.resumption.closeRegion
    (table, { r with resumption })

/-- Enters the states of a closed region into the table outside. -/
def foldRegion (closed : Table) (entry : Label) : Expand Unit := do
  let resumption ← (← get).resumption.fold closed entry
  modify fun r ↦ { r with resumption }

/-- A block, given the actions that expand its statements. -/
def block (id : NodeId) (declared : List Variable) (statements : List (Expand Node)) :
    Expand Node := do
  changeScopes Scopes.enter
  let statements ← statements.mapM fun s ↦ s
  let hoisted ← exitBlock declared id
  node (.block (if hoisted then [] else declared) statements)

/-- The awaiter of an operand. -/
def acquireShape (acquire : Option String) (operand : Node) : Shape Node :=
  match acquire with
  | some name => .call name [operand]
  | none => .awaiter .acquire operand

/-- The block of a suspend point, given its awaiter, the variable for it and where the body goes
on. -/
def pointBlock (c : Contract) (acquired : Node) (awaiter : Variable) (point : ResumePoint)
    (result : Ty) : Build Node := do
  let wait ← c.updateState (Int64.ofNat point.index)
  let handOver ← c.handOver awaiter
  let suspend ← seq [wait, handOver, ← node (.goto c.exit)]
  let acquired ← node (.assign awaiter acquired)
  let completed ← node (.awaiter .isCompleted (← node (.var awaiter)))
  let test ← node (.branch (← node (.unary .not completed)) suspend none)
  let resume ← node (.label point.label)
  let outcome ← node (.awaiter .getResult (← node (.var awaiter)))
  let (locals, outcome, value) ← if result = .unit then
      pure ([], outcome, Shape.defaultOf .unit)
    else do
      let v ← newVariable "__result" result
      pure ([v], ← node (.assign v outcome), .var v)
  let release ← node (.assign awaiter (← node (.defaultOf .any)))
  let run ← c.updateState running
  node (.block locals [acquired, test, resume, outcome, release, run, ← node value])

/-- A suspend point, given the action that expands its operand. -/
def suspendPoint (c : Contract) (operand : Expand Node) (acquire : Option String) (result : Ty) :
    Expand Node := do
  changeScopes Scopes.mark
  let operand ← operand
  let acquired ← node (acquireShape acquire operand)
  let awaiter ← newField "__awaiter" .any
  let point ← allocate c
  pointBlock c acquired awaiter point result

/-- A part of a region that runs only when the body is not on its way out to wait. -/
def guarded (c : Contract) (part : Option Node) : Build (Option Node) :=
  part.mapM fun body ↦ do node (.branch (← c.notSuspended) body none)

/-- The block around a region that suspends: a label, and the region with a dispatch in front of its
body. -/
def entered (c : Contract) (table : Table) (body : Node) (clauses : List (Clause Node))
    (cleanup fault : Option Node) : Expand Node := do
  let dispatch ← node (.switch (← node (.var c.localState)) table none)
  let body ← seq [dispatch, body]
  let cleanup ← guarded c cleanup
  let fault ← guarded c fault
  let entry ← newLabel "__enterTry"
  foldRegion table entry
  let enter ← node (.label entry)
  seq [enter, ← node (.region body clauses cleanup fault)]

/-- A protected region, given the actions that expand its parts. -/
def region (c : Contract) (body : Expand Node) (clauses : List (Clause (Expand Node)))
    (cleanup fault : Option (Expand Node)) : Expand Node := do
  openRegion
  let body ← body
  let clauses ← clauses.mapM fun clause ↦ clause.mapM id
  let cleanup ← cleanup.mapM id
  let fault ← fault.mapM id
  let table ← closeRegion
  if table.isEmpty then node (.region body clauses cleanup fault)
  else entered c table body clauses cleanup fault

end Expand

/-- Expands every suspend point of a tree. -/
def Node.expand (c : Contract) : Node → Expand Node :=
  Node.fold fun n layer ↦
    match layer with
    | .block declared statements => Expand.block n.id declared statements
    | .await operand acquire result => Expand.suspendPoint c operand acquire result
    | .region body clauses cleanup fault => Expand.region c body clauses cleanup fault
    | layer => do node (← layer.sequence)

end Suspension
