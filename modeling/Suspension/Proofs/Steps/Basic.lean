import Suspension.Proofs.Effects
import Suspension.Proofs.Simulation

/-!
# Evaluation as a machine

`eval` is a recursion, so the rest of an evaluation is nowhere in it: it is the stack of the calls
under way. A body that stops to wait and is entered again later loses that stack and builds it anew,
and to say that it comes back the same, the stack has to be data. Here it is: a `Configuration` is a
node to enter or an outcome to leave one with, the tasks that wait for it, and the frame; `next` is
one step.

A `Task` is a node and the `Stage` that its evaluation has reached. What a stage does with the
outcome of the child that it waits for (`leaveTo`) and what a node does when it is entered
(`enterNode`) only look at the node and the frame, never at the stack below, and push at most one
task: a `Move` is what they come to, and putting it on the stack (`Move.on`) is all that is left to
`next`.
-/

namespace Suspension

namespace Steps

/-- What the evaluation of a node waits for. -/
inductive Stage
  /-- A statement of a block, with those that come after it. -/
  | statements (rest : List Node)
  /-- A round of a loop. -/
  | round
  /-- The only operand. -/
  | operand
  /-- One of several operands, between the values of those before it and those that come after it,
  each with what is sought in it. -/
  | operands (done : List Value) (rest : List (Node × Option SymbolId))
  /-- The test of a switch or a branch. -/
  | test
  /-- What the whole node ends as: an arm, or the body of a lock. -/
  | arm
  /-- The guard of a lock. -/
  | guard
  /-- The body of a protected region. -/
  | body
  /-- The filter of a clause, with the clauses that come after it. -/
  | filter (ex : Value) (c : Clause Node) (cs : List (Clause Node))
  /-- The body of a clause. -/
  | handler (c : Clause Node)
  /-- The fault body of a region that is left so. -/
  | fault (r : Outcome)
  /-- The finally body of a region that is left so. -/
  | cleanup (r : Outcome)

/-- A node under evaluation, waiting for a child. -/
structure Task where
  node : Node
  stage : Stage

/-- Where an evaluation is. -/
inductive Control
  /-- About to evaluate a node, seeking a label or not. -/
  | enter (n : Node) (seek : Option SymbolId)
  /-- About to leave the node that was entered last and is not left yet. -/
  | leave (r : Outcome)

/-- An evaluation between two steps. -/
structure Configuration where
  control : Control
  /-- The nodes under evaluation, the innermost first. -/
  tasks : List Task
  frame : Frame

/-- What a step does: where it leads, and which tasks it adds. -/
structure Move where
  control : Control
  tasks : List Task
  frame : Frame

/-- A move on top of a stack. -/
def Move.on (m : Move) (below : List Task) : Configuration :=
  ⟨m.control, m.tasks ++ below, m.frame⟩

/-! ### Moves -/

/-- Leaves with an outcome. -/
def give (r : Outcome) (σ : Frame) : Move :=
  ⟨.leave r, [], σ⟩

/-- Leaves with what an evaluation without children comes to. -/
def perform (x : Eval Value) (σ : Frame) : Move :=
  give (x σ).1 (x σ).2

/-- Enters a child. -/
def descend (n : Node) (stage : Stage) (c : Node) (seek : Option SymbolId) (σ : Frame) : Move :=
  ⟨.enter c seek, [⟨n, stage⟩], σ⟩

variable (s : Setting)

/-- The rest of a block, whose last value so far is `last`. -/
def nextStatement (n : Node) (rest : List Node) (seek : Option SymbolId) (last : Value)
    (σ : Frame) : Move :=
  match rest with
  | [] => give (.ok last) σ
  | c :: rest => descend n (.statements rest) c seek σ

/-- The statements of a block. -/
def statementsOf (n : Node) : List Node :=
  match n.shape with
  | .block _ statements => statements
  | _ => []

/-- A jump that leaves a statement of a block, which may lead to another one. -/
def jumpInBlock (n : Node) (label : SymbolId) (σ : Frame) : Move :=
  match Evaluator.fromLabel s label (statementsOf n) with
  | [] => give (.error (.jump label)) σ
  | c :: rest => descend n (.statements rest) c (some label) σ

/-- A jump that leaves the body of a loop, which may lead behind it, to its next round or back into
it. -/
def jumpInLoop (n : Node) (label : SymbolId) (σ : Frame) : Move :=
  match n.shape with
  | .loop body breakLabel continueLabel =>
    if breakLabel.any (·.id == label) then give (.ok .unit) σ
    else if continueLabel.any (·.id == label) then descend n .round body none σ
    else if s.labels body label then descend n .round body (some label) σ
    else give (.error (.jump label)) σ
  | _ => give (.error (.jump label)) σ

/-- The next round of a loop. -/
def nextRound (n : Node) (σ : Frame) : Move :=
  match n.shape with
  | .loop body _ _ => descend n .round body none σ
  | _ => give (.ok .unit) σ

/-- What a node does with the value of its only operand. -/
def finish (n : Node) (v : Value) : Eval Value :=
  match n.shape with
  | .await _ acquire _ => Evaluator.waitFor s acquire v n
  | .awaiter question _ => Evaluator.awaiterStep question v n
  | .ret _ => Eval.leave s (.ret v)
  | .raise _ => Eval.leave s (.thrown v)
  | .assign target _ => do
    Eval.store s target v n
    return v
  | .unary op _ => Eval.unary op v n
  | _ => return v

/-- What a node does with the values of its operands. -/
def combine (n : Node) (values : List Value) : Eval Value :=
  match n.shape, values with
  | .binary op _ _, [l, r] => Eval.binary op l r n
  | .call callee _, values => Evaluator.invoke s callee values n
  | _, _ => return .unit

/-- The operands that are left to evaluate. -/
def nextOperand (n : Node) (done : List Value) (rest : List (Node × Option SymbolId))
    (σ : Frame) : Move :=
  match rest with
  | [] => perform (combine s n done) σ
  | (o, seek) :: rest => descend n (.operands done rest) o seek σ

/-- Operands, each with what is sought in it. -/
def sought (operands : List Node) (entered : Option Nat) (seek : Option SymbolId) :
    List (Node × Option SymbolId) :=
  operands.zipIdx.map fun (o, i) ↦ (o, if entered = some i then seek else none)

/-- Several operands, from the first one on. -/
def firstOperand (n : Node) (operands : List Node) (seek : Option SymbolId) (σ : Frame) : Move :=
  match Evaluator.soughtOperand? s operands seek with
  | .error cause => perform (Eval.fault cause n) σ
  | .ok entered => nextOperand s n [] (sought operands entered seek) σ

/-- A switch or a branch: the arm that holds the label that is sought, or the test. -/
def testOrArm (n test : Node) (arms : List Node) (seek : Option SymbolId) (σ : Frame) : Move :=
  match Evaluator.soughtArm? s test arms seek with
  | some arm => descend n .arm arm seek σ
  | none => descend n .test test seek σ

/-- The arm that the value of a test selects. -/
def armFor (n : Node) (v : Value) : Except FaultCause (Option Node) :=
  match n.shape with
  | .switch _ cases otherwise => Evaluator.caseFor cases otherwise v
  | .branch _ yes no => Evaluator.sideFor yes no v
  | _ => .ok none

/-- The arm that was selected, from its start. -/
def enterArm (n : Node) (arm : Except FaultCause (Option Node)) (σ : Frame) : Move :=
  match arm with
  | .error cause => perform (Eval.fault cause n) σ
  | .ok none => give (.ok .unit) σ
  | .ok (some arm) => descend n .arm arm none σ

/-- The body of a lock whose guard is taken. -/
def lockBody (n : Node) (σ : Frame) : Move :=
  match n.shape with
  | .lock _ body => descend n .arm body none σ
  | _ => give (.ok .unit) σ

/-- The parts of a region that run however its body was left. -/
def partsOf (n : Node) : Option Node × Option Node :=
  match n.shape with
  | .region _ _ cleanup fault => (cleanup, fault)
  | _ => (none, none)

/-- The clauses of a region. -/
def clausesOf (n : Node) : List (Clause Node) :=
  match n.shape with
  | .region _ clauses _ _ => clauses
  | _ => []

/-- The finally body of a region that is left so, unless the run is to stop. -/
def runCleanup (n : Node) (r : Outcome) (σ : Frame) : Move :=
  match (partsOf n).1, r with
  | some _, .error (.stop _) => give r σ
  | some part, r => descend n (.cleanup r) part none σ
  | none, r => give r σ

/-- The fault body of a region that an exception leaves, then its finally body. -/
def runParts (n : Node) (r : Outcome) (σ : Frame) : Move :=
  match (partsOf n).2, r with
  | some part, .error (.thrown _) => descend n (.fault r) part none σ
  | _, r => runCleanup n r σ

/-- Starts the body of a clause. -/
def enterHandler (n : Node) (ex : Value) (c : Clause Node) (σ : Frame) : Move :=
  descend n (.handler c) c.body none { σ with handling := ex :: σ.handling }

/-- The frame with the variable of a clause bound to an exception. -/
def bindClause (c : Clause Node) (ex : Value) (σ : Frame) : Frame :=
  match c.binder with
  | some v => Eval.bound s v ex σ
  | none => σ

/-- The clauses that are left to try for an exception. -/
def tryClauses (n : Node) (ex : Value) (cs : List (Clause Node)) (σ : Frame) : Move :=
  match cs with
  | [] => runParts n (.error (.thrown ex)) σ
  | c :: cs =>
    match c.filter with
    | none => enterHandler n ex c (bindClause s c ex σ)
    | some filter => descend n (.filter ex c cs) filter none (bindClause s c ex σ)

/-- What a node without children comes to. -/
def leaf (n : Node) : Eval Value :=
  match n.shape with
  | .label _ => return .unit
  | .goto target => Eval.leave s (.jump target.id)
  | .ret none => Eval.leave s (.ret .unit)
  | .raise none => Evaluator.rethrow s n
  | .var source => Eval.load source n
  | .const value => return value.value
  | .defaultOf ty => return ty.defaultValue
  | _ => return .unit

/-- What a node does when its visit is noted. -/
def startNode (n : Node) (seek : Option SymbolId) (σ : Frame) : Move :=
  match n.shape with
  | .block declared body =>
    let start := match seek with
      | some label => Evaluator.fromLabel s label body
      | none => body
    nextStatement n start seek .unit { σ with locals := σ.locals.declare declared }
  | .await o _ _ =>
    if s.waits then descend n .operand o seek σ else perform (Eval.fault .unloweredAwait n) σ
  | .awaiter _ o => descend n .operand o seek σ
  | .region body _ _ _ =>
    if seek.isSome then perform (Eval.fault .intoRegion n) σ else descend n .body body none σ
  | .loop body breakLabel continueLabel =>
    match seek with
    | none => descend n .round body none σ
    | some label =>
      if breakLabel.any (·.id == label) then give (.ok .unit) σ
      else if continueLabel.any (·.id == label) then descend n .round body none σ
      else descend n .round body (some label) σ
  | .switch value cases otherwise =>
    testOrArm s n value (cases.map Case.body ++ otherwise.toList) seek σ
  | .branch test yes no => testOrArm s n test (yes :: no.toList) seek σ
  | .lock guard _ =>
    if seek.isSome then perform (Eval.fault .intoLock n) σ else descend n .guard guard none σ
  | .ret (some value) => descend n .operand value seek σ
  | .raise (some value) => descend n .operand value seek σ
  | .assign _ value => descend n .operand value seek σ
  | .binary _ left right => firstOperand s n [left, right] seek σ
  | .unary _ o => descend n .operand o seek σ
  | .call _ args => firstOperand s n args seek σ
  | _ => perform (leaf s n) σ

/-- What a node does when it is entered. -/
def enterNode (n : Node) (seek : Option SymbolId) (σ : Frame) : Move :=
  startNode s n seek (Eval.noted s (.visit n.id seek) σ)

/-- What a task does with the outcome of the child that it waits for. -/
def leaveTo (t : Task) (r : Outcome) (σ : Frame) : Move :=
  match t.stage, r with
  | .statements rest, .ok v => nextStatement t.node rest none v σ
  | .statements _, .error (.jump label) => jumpInBlock s t.node label σ
  | .statements _, r => give r σ
  | .round, .ok _ => nextRound t.node σ
  | .round, .error (.jump label) => jumpInLoop s t.node label σ
  | .round, r => give r σ
  | .operand, .ok v => perform (finish s t.node v) σ
  | .operand, r => give r σ
  | .operands done rest, .ok v => nextOperand s t.node (done ++ [v]) rest σ
  | .operands _ _, r => give r σ
  | .test, .ok v => enterArm t.node (armFor t.node v) σ
  | .test, r => give r σ
  | .arm, r => give r σ
  | .guard, .ok _ => lockBody t.node σ
  | .guard, r => give r σ
  | .body, .error (.thrown ex) => tryClauses s t.node ex (clausesOf t.node) σ
  | .body, r => runParts t.node r σ
  | .filter ex c cs, .ok v =>
    if v.asBool? == some true then enterHandler t.node ex c σ else tryClauses s t.node ex cs σ
  | .filter ex _ cs, .error (.thrown _) => tryClauses s t.node ex cs σ
  | .filter _ _ _, r => give r σ
  | .handler _, r => runParts t.node r { σ with handling := σ.handling.tail }
  | .fault r, .ok _ => runCleanup t.node r σ
  | .fault _, r => give r σ
  | .cleanup r, .ok _ => give r σ
  | .cleanup _, r => give r σ

/-! ### Steps -/

/-- One step. A configuration that has no more to do stays as it is. -/
def next (c : Configuration) : Configuration :=
  match c.control, c.tasks with
  | .enter n seek, tasks => (enterNode s n seek c.frame).on tasks
  | .leave r, t :: tasks => (leaveTo s t r c.frame).on tasks
  | .leave _, [] => c

/-- The outcome and the frame of an evaluation that is over. -/
def Configuration.result? (c : Configuration) : Option (Outcome × Frame) :=
  match c.control, c.tasks with
  | .leave r, [] => some (r, c.frame)
  | _, _ => none

/-- Evaluation as a transition system. -/
def system : TransitionSystem Configuration (Outcome × Frame) where
  next := next s
  result? := Configuration.result?
  next_of_result := by
    rintro ⟨control, tasks, σ⟩ r h
    cases control <;> cases tasks <;> simp_all [Configuration.result?, next]

end Steps

end Suspension
