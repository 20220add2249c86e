import Suspension.Supply
import Suspension.Tree.Query

/-!
# Handler reduction

A resumed body reaches its suspend point by jumps, and no jump leads into a catch, finally or fault
body: the exception that was being handled is gone. This pass moves handler bodies that suspend out
of their protected region, to code that runs after it:

* a clause only notes that it caught, and which exception; its body stands in a switch behind the
  region;
* a finally body stands behind a region that catches everything. It is followed by the exit that was
  under way when control left: the exception is raised again, or the jump or return is carried out;
* a fault body stands behind such a region too, under the condition that an exception was caught.

A region with several such parts is taken apart from the inside out: clauses, finally, fault. What
does not suspend stays in a region of its own.
-/

namespace Suspension

open Build

namespace Handlers

/-- The variables that carry what a region did out of it. -/
structure Captured where
  /-- The exception that was caught. -/
  ex : Variable
  /-- Whether one was. -/
  caught : Variable
  /-- The value of the region. -/
  value : Variable

/-- Fresh variables for a region. -/
def capture : Build Captured := do
  let ex ← newVariable "__ex" .any
  let caught ← newVariable "__caught" .bool
  let value ← newVariable "__tryValue" .any
  return ⟨ex, caught, value⟩

/-- An assignment of the value of a variable. -/
def assignVar (target source : Variable) : Build Node := do
  node (.assign target (← node (.var source)))

/-- An assignment of a constant. -/
def assignConst (target : Variable) (value : Literal) : Build Node := do
  node (.assign target (← node (.const value)))

/-- The clause that catches everything and notes it. -/
def catchAll (cap : Captured) : Build (Clause Node) := do
  let e ← newVariable "__e" .any
  let keep ← assignVar cap.ex e
  let mark ← assignConst cap.caught (.bool true)
  return ⟨some e, none, ← seq [keep, mark]⟩

/-- Raises the captured exception. -/
def raiseCaptured (ex : Variable) : Build Node := do
  node (.raise (some (← node (.var ex))))

/-- Replaces the bare rethrows of a handler body that is moved out of its region: they raise the
captured exception. The clauses of a region inside it have exceptions of their own and stay as they
are, with their filters. -/
def rethrowAs (ex : Variable) : Node → Build Node :=
  Node.fold fun n layer ↦
    match n.shape, layer with
    | _, .raise none => raiseCaptured ex
    | .region _ clauses _ _, .region body _ cleanup fault => do
      let body ← body
      let cleanup ← cleanup.mapM id
      let fault ← fault.mapM id
      node (.region body clauses cleanup fault)
    | _, layer => do node (← layer.sequence)

/-! ### Clauses -/

/-- The clauses of a region on both sides of it: what notes the exception inside, and the cases that
handle it behind. -/
structure Moved where
  bound : List Variable
  clauses : List (Clause Node)
  cases : List (Case Node)

/-- Moves the bodies of clauses out of their region. `index` is the number of the first one. -/
def moveClauses (cap : Captured) (which : Variable) : Nat → List (Clause Node) → Build Moved
  | _, [] => return ⟨[], [], []⟩
  | index, c :: cs => do
    let bound ← match c.binder with
      | some v => pure v
      | none => newVariable "__e" .any
    let keep ← assignVar cap.ex bound
    let mark ← assignConst which (.int (Int64.ofNat index))
    let note ← seq [keep, mark]
    let handler ← rethrowAs cap.ex c.body
    let restore ← assignVar bound cap.ex
    let value ← node (.assign cap.value handler)
    let body ← seq [restore, value]
    let moved ← moveClauses cap which (index + 1) cs
    return ⟨bound :: moved.bound, ⟨some bound, c.filter, note⟩ :: moved.clauses,
      ⟨[Int64.ofNat index], body⟩ :: moved.cases⟩

/-- A region some of whose clauses suspend. -/
def reduceClauses (body : Node) (clauses : List (Clause Node)) : Build Node := do
  let cap ← capture
  let which ← newVariable "__catchIndex" .int
  let moved ← moveClauses cap which 0 clauses
  let start ← assignConst which (.int (-1))
  let value ← node (.assign cap.value body)
  let region ← node (.region value moved.clauses none none)
  let handle ← node (.switch (← node (.var which)) moved.cases none)
  let result ← node (.var cap.value)
  node (.block (cap.ex :: which :: cap.value :: moved.bound) [start, region, handle, result])

/-! ### Fault bodies -/

/-- A region with a fault body that suspends. -/
def reduceFault (body fault : Node) : Build Node := do
  let cap ← capture
  let start ← assignConst cap.caught (.bool false)
  let value ← node (.assign cap.value body)
  let region ← node (.region value [← catchAll cap] none none)
  let test ← node (.var cap.caught)
  let again ← raiseCaptured cap.ex
  let handle ← node (.branch test (← seq [fault, again]) none)
  let result ← node (.var cap.value)
  node (.block [cap.ex, cap.caught, cap.value] [start, region, handle, result])

/-! ### Finally bodies -/

/-- A way of leaving a region other than by an exception or at its end. -/
inductive Leaving
  | jump (target : Label)
  | ret
  deriving DecidableEq, Repr

/-- Whether two ways of leaving are one. -/
def Leaving.same : Leaving → Leaving → Bool
  | .jump l, .jump m => l.same m
  | .ret, .ret => true
  | _, _ => false

/-- Computations that number the ways of leaving a region, from one, in the order they turn up. -/
abbrev Collect := StateT (List Leaving) Build

/-- The number of a way of leaving. -/
def indexOf (l : Leaving) : Collect Int64 := do
  let seen ← get
  match seen.findIdx? fun m ↦ l.same m with
  | some i => return Int64.ofNat (i + 1)
  | none =>
    set (seen ++ [l])
    return Int64.ofNat (seen.length + 1)

/-- What a region with a moved finally body uses besides the captured variables. -/
structure Exits where
  /-- The end of the protected body, where every exit goes first. -/
  leave : Label
  /-- The number of the exit under way, zero for none. -/
  pending : Variable
  /-- The value of a return under way. -/
  retval : Variable

/-- Turns the jumps and returns that leave a body into jumps to its end, noting where they lead.
`own` are the labels the body defines itself. -/
def collectExits (own : List SymbolId) (exits : Exits) : Node → Collect Node :=
  Node.fold fun _ layer ↦
    match layer with
    | .goto target =>
      if own.contains target.id then node (.goto target)
      else do
        let index ← indexOf (.jump target)
        let mark ← assignConst exits.pending (.int index)
        let leave ← node (.goto exits.leave)
        seq [mark, leave]
    | .ret value => do
      let value ← match value with
        | some value => value
        | none => empty
      let index ← indexOf .ret
      let keep ← node (.assign exits.retval value)
      let mark ← assignConst exits.pending (.int index)
      let leave ← node (.goto exits.leave)
      seq [keep, mark, leave]
    | layer => do node (← layer.sequence)

/-- Carries out an exit that was noted. -/
def resumeExit (exits : Exits) : Leaving → Build Node
  | .jump target => node (.goto target)
  | .ret => do node (.ret (some (← node (.var exits.retval))))

/-- The cases that carry out the noted exits, the first of them with number `index`. -/
def resumeCases (exits : Exits) : Nat → List Leaving → Build (List (Case Node))
  | _, [] => return []
  | index, l :: ls => do
    let resume ← resumeExit exits l
    return ⟨[Int64.ofNat index], resume⟩ :: (← resumeCases exits (index + 1) ls)

/-- A region with a finally body that suspends. -/
def reduceCleanup (body cleanup : Node) : Build Node := do
  let cap ← capture
  let leave ← newLabel "__leave"
  let pending ← newVariable "__pending" .int
  let retval ← newVariable "__retval" .any
  let exits : Exits := ⟨leave, pending, retval⟩
  let (body, left) ← (collectExits body.labelsWithin exits body).run []
  let value ← node (.assign cap.value body)
  let inside ← if left.isEmpty then pure value else do
    seq [value, ← node (.label leave)]
  let start ← assignConst cap.caught (.bool false)
  let clear ← assignConst pending (.int 0)
  let region ← node (.region inside [← catchAll cap] none none)
  let test ← node (.var cap.caught)
  let again ← node (.branch test (← raiseCaptured cap.ex) none)
  let dispatch ← if left.isEmpty then pure [] else do
    let cases ← resumeCases exits 1 left
    pure [← node (.switch (← node (.var pending)) cases none)]
  let result ← node (.var cap.value)
  node (.block [cap.ex, cap.caught, cap.value, pending, retval]
    ([start, clear, region, cleanup, again] ++ dispatch ++ [result]))

/-! ### Regions -/

/-- A region whose parts are reduced already. -/
def reduceRegion (body : Node) (clauses : List (Clause Node)) (cleanup fault : Option Node) :
    Build Node := do
  let clausesSuspend := clauses.any fun c ↦ c.body.containsAwait
  let suspends (part : Option Node) := part.any Node.containsAwait
  if !(clausesSuspend || suspends cleanup || suspends fault) then
    return ← node (.region body clauses cleanup fault)
  let body ←
    if clauses.isEmpty then pure body
    else if clausesSuspend then reduceClauses body clauses
    else node (.region body clauses none none)
  let body ← match cleanup with
    | none => pure body
    | some part =>
      if part.containsAwait then reduceCleanup body part
      else node (.region body [] (some part) none)
  match fault with
  | none => return body
  | some part =>
    if part.containsAwait then reduceFault body part
    else node (.region body [] none (some part))

end Handlers

open Handlers in
/-- Moves handler bodies that suspend out of their regions, everywhere in a tree. -/
def Node.reduceHandlers : Node → Build Node :=
  Node.fold fun _ layer ↦ do
    match ← layer.sequence with
    | .region body clauses cleanup fault => reduceRegion body clauses cleanup fault
    | shape => node shape

end Suspension
