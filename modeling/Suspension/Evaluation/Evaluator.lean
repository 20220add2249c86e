import Suspension.Evaluation.Operator
import Suspension.Lowering.Contract

/-!
# The evaluator

`eval` walks a tree. A jump unwinds to the innermost block or loop that defines its label beneath
one of its children, and enters that child again in search of the label: evaluation with a label to
*seek* skips everything that stands before the label. A switch or a branch is entered through the
arm that holds the label, without its test; an operand is entered after those before it have been
evaluated again, provided that it makes no difference; a protected region or a lock cannot be
entered so at all.

The recursion is on `fuel`, which bounds the depth of the tree and the number of rounds of every
loop. Each step is a function of how children are evaluated (`Evaluator`), so `eval` only ties the
knot. With enough fuel the result does not depend on it, and too little is its own way to stop.

With `Setting.waits` this is the direct execution of a body: a suspend point waits for its future
and goes on with the outcome.
-/

namespace Suspension

/-- How a node is evaluated, given a label to seek. -/
abbrev Evaluator := Node → Option SymbolId → Eval Value

namespace Evaluator

open Eval

variable (s : Setting) (eval : Evaluator)

/-- The statements from the first one on that holds a label. -/
def fromLabel (label : SymbolId) (statements : List Node) : List Node :=
  statements.dropWhile fun n ↦ !s.labels n label

/-- Statements in sequence. `all` are the statements of the block, where jumps may lead; the value
is that of the last one, and `last` where there is none. -/
def statements (all : List Node) : Nat → List Node → Option SymbolId → Value → Eval Value
  | _, [], _, last => pure last
  | 0, _ :: _, _, _ => throw (.stop .outOfFuel)
  | fuel + 1, n :: rest, seek, _ => fun σ ↦
    match eval n seek σ with
    | (.ok value, σ) => statements all fuel rest none value σ
    | (.error (.jump label), σ) =>
      match fromLabel s label all with
      | [] => (.error (.jump label), σ)
      | target => statements all fuel target (some label) .unit σ
    | (.error e, σ) => (.error e, σ)

/-- The rounds of a loop. -/
def rounds (body : Node) (breakLabel continueLabel : Option Label) :
    Nat → Option SymbolId → Eval Value
  | 0, _ => throw (.stop .outOfFuel)
  | fuel + 1, seek => fun σ ↦
    match eval body seek σ with
    | (.ok _, σ) => rounds body breakLabel continueLabel fuel none σ
    | (.error (.jump label), σ) =>
      if breakLabel.any (·.id == label) then (.ok .unit, σ)
      else if continueLabel.any (·.id == label) then
        rounds body breakLabel continueLabel fuel none σ
      else if s.labels body label then
        rounds body breakLabel continueLabel fuel (some label) σ
      else (.error (.jump label), σ)
    | (.error e, σ) => (.error e, σ)

/-- A loop. Seeking its own labels is over at once: behind the loop, or at the start of a round. -/
def loop (fuel : Nat) (body : Node) (breakLabel continueLabel : Option Label)
    (seek : Option SymbolId) : Eval Value :=
  match seek with
  | none => rounds s eval body breakLabel continueLabel fuel none
  | some label =>
    if breakLabel.any (·.id == label) then pure .unit
    else if continueLabel.any (·.id == label) then
      rounds s eval body breakLabel continueLabel fuel none
    else rounds s eval body breakLabel continueLabel fuel (some label)

/-- The arm of a switch or a branch that is entered without its test, because it holds the label
that is sought. -/
def soughtArm? (test : Node) (arms : List Node) (seek : Option SymbolId) : Option Node := do
  let label ← seek
  if s.labels test label then none
  else arms.find? fun arm ↦ s.labels arm label

/-- The place of the operand that holds the label that is sought. The operands before it have to be
stable, because they are evaluated again. -/
def soughtOperand? (operands : List Node) (seek : Option SymbolId) :
    Except FaultCause (Option Nat) :=
  match seek with
  | none => .ok none
  | some label =>
    match operands.findIdx? fun o ↦ s.labels o label with
    | none => .ok none
    | some i => if (operands.take i).all Node.isStable then .ok (some i) else .error .intoOperand

/-- The arm of a switch that a value selects, if any. -/
def caseFor (cases : List (Case Node)) (otherwise : Option Node) (v : Value) :
    Except FaultCause (Option Node) :=
  match v.asInt? with
  | none => .error (.switchOver v.type)
  | some i =>
    match cases.find? fun c ↦ c.tests.contains i with
    | some c => .ok (some c.body)
    | none => .ok otherwise

/-- The arm of a branch that a value selects, if any. -/
def sideFor (yes : Node) (no : Option Node) (v : Value) : Except FaultCause (Option Node) :=
  match v.asBool? with
  | none => .error (.conditionOn v.type)
  | some true => .ok (some yes)
  | some false => .ok no

/-- Evaluates the arm that was selected, from its start. -/
def selected : Option Node → Eval Value
  | some arm => eval arm none
  | none => pure .unit

/-- Evaluates an operand, seeking only if it is the one to enter. -/
def operand (entered : Option Nat) (seek : Option SymbolId) (i : Nat) (o : Node) : Eval Value :=
  eval o (if entered = some i then seek else none)

/-- Whether a filter lets its clause apply. An exception in it counts as no. -/
def applies (filter : Option Node) : Eval Bool :=
  match filter with
  | none => pure true
  | some filter => do
    match ← attempt (eval filter none) with
    | .ok value => return value.asBool? == some true
    | .error (.thrown _) => return false
    | .error e => throw e

/-- The first clause that applies to an exception handles it. Answers how that ended; if none
applies, the exception goes on. -/
def handle (ex : Value) : List (Clause Node) → Eval (Except Exit Value)
  | [] => return .error (.thrown ex)
  | c :: cs => do
    match c.binder with
    | some v => bind s v ex
    | none => pure ()
    if ← applies eval c.filter then
      modify fun σ ↦ { σ with handling := ex :: σ.handling }
      let r ← attempt (eval c.body none)
      modify fun σ ↦ { σ with handling := σ.handling.tail }
      return r
    else handle ex cs

/-- The end of a region that is left so: the fault body if an exception is left over, and the
finally body unless the run is to stop. -/
def windUp (cleanup fault : Option Node) (r : Except Exit Value) : Eval Value := do
  match fault, r with
  | some part, .error (.thrown _) => discard (eval part none)
  | _, _ => pure ()
  match cleanup, r with
  | some _, .error (.stop _) => pure ()
  | some part, _ => discard (eval part none)
  | none, _ => pure ()
  conclude r

/-- A protected region, from its start: the body, a clause for an exception, and the parts that run
at its end. -/
def region (body : Node) (clauses : List (Clause Node)) (cleanup fault : Option Node) :
    Eval Value := do
  match ← attempt (eval body none) with
  | .error (.thrown ex) => windUp eval cleanup fault (← handle s eval ex clauses)
  | r => windUp eval cleanup fault r

/-- A call, its arguments evaluated. The operation that hands over an awaiter is the evaluator's
own. -/
def invoke (callee : String) (args : List Value) (n : Node) : Eval Value := do
  if callee = onCompleted then
    match args with
    | awaiter :: _ => handOver s awaiter
    | [] => pure ()
    return .unit
  else callHost s callee args n

/-- A step of the awaiter protocol. -/
def awaiterStep (step : AwaitStep) (v : Value) (n : Node) : Eval Value := do
  let (_, f) ← cell v n
  match step with
  | .acquire => return v
  | .isCompleted => return .bool f.isCompleted
  | .getResult => result f n

/-- Waits for an awaitable value, by its own awaiter or the one that an operation yields. -/
def waitFor (acquire : Option String) (v : Value) (n : Node) : Eval Value := do
  let awaiter ← match acquire with
    | some name => invoke s name [v] n
    | none => pure v
  let (i, f) ← cell awaiter n
  result (← wait i f) n

/-- Raises again the exception that is being handled. -/
def rethrow (n : Node) : Eval Value := do
  match (← get).handling with
  | ex :: _ => leave s (.thrown ex)
  | [] => fault .rethrowOutsideHandler n

/-- One node, given how its children are evaluated. -/
def step (fuel : Nat) : Evaluator := fun n seek ↦ do
  match n.shape with
  | .block declared body =>
    declare declared
    let start := match seek with
      | some label => fromLabel s label body
      | none => body
    statements s eval body fuel start seek .unit
  | .await o acquire _ =>
    if s.waits then waitFor s acquire (← eval o seek) n else fault .unloweredAwait n
  | .awaiter question o => awaiterStep question (← eval o seek) n
  | .region body clauses cleanup fault =>
    if seek.isSome then Eval.fault .intoRegion n
    else region s eval body clauses cleanup fault
  | .loop body breakLabel continueLabel => loop s eval fuel body breakLabel continueLabel seek
  | .label _ => return .unit
  | .goto target => leave s (.jump target.id)
  | .switch value cases otherwise =>
    match soughtArm? s value (cases.map Case.body ++ otherwise.toList) seek with
    | some arm => eval arm seek
    | none =>
      let v ← eval value seek
      selected eval (← orFault (caseFor cases otherwise v) n)
  | .branch test yes no =>
    match soughtArm? s test (yes :: no.toList) seek with
    | some arm => eval arm seek
    | none =>
      let v ← eval test seek
      selected eval (← orFault (sideFor yes no v) n)
  | .lock guard body =>
    if seek.isSome then fault .intoLock n
    else do
      discard (eval guard none)
      eval body none
  | .ret none => leave s (.ret .unit)
  | .ret (some value) => do leave s (.ret (← eval value seek))
  | .raise (some value) => do leave s (.thrown (← eval value seek))
  | .raise none => rethrow s n
  | .assign target value =>
    let v ← eval value seek
    store s target v n
    return v
  | .binary op left right =>
    let entered ← orFault (soughtOperand? s [left, right] seek) n
    let l ← operand eval entered seek 0 left
    let r ← operand eval entered seek 1 right
    binary op l r n
  | .unary op o => unary op (← eval o seek) n
  | .call callee args =>
    let entered ← orFault (soughtOperand? s args seek) n
    let values ← args.zipIdx.mapM fun (o, i) ↦ operand eval entered seek i o
    invoke s callee values n
  | .var source => load source n
  | .const value => return value.value
  | .defaultOf ty => return ty.defaultValue

end Evaluator

/-- Evaluates a node, given a label to seek. -/
def eval (s : Setting) : Nat → Evaluator
  | 0 => fun _ _ ↦ throw (.stop .outOfFuel)
  | fuel + 1 => fun n seek ↦ do
    Eval.note s (.visit n.id seek)
    Evaluator.step s (eval s fuel) fuel n seek

/-- How a run of a body ended. -/
inductive Completion
  /-- At the end of the body, with its value. -/
  | normal (value : Value)
  | returned (value : Value)
  | threw (value : Value)
  deriving DecidableEq, Repr

/-- A run of a body as a whole: an exit that nothing caught is the end of it, and a jump that
nothing caught leads nowhere. -/
def completion : Except Exit Value → Except Stop Completion
  | .ok value => .ok (.normal value)
  | .error (.ret value) => .ok (.returned value)
  | .error (.thrown value) => .ok (.threw value)
  | .error (.jump label) => .error (.fault ⟨.undefinedLabel label, none⟩)
  | .error (.stop reason) => .error reason

/-- Runs a body from its start. -/
def runBody (s : Setting) (fuel : Nat) (body : Node) (persisted : Store) (host : Host) :
    Except Stop Completion × Frame :=
  let (r, σ) := (eval s fuel body none).run { persisted, host }
  (completion r, σ)

end Suspension
