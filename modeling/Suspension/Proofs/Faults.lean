import Suspension.Proofs.Sessions
import Suspension.Proofs.Steps.Invariant

/-!
# Where runs are stopped

A run that is stopped is stopped at one node of its tree. The form of that node, the values of its
operands and the frame say for which cause (`Shape.Refuses`): a variable has no slot where it is
read or assigned to, an operand is of the wrong kind for the node that takes it, an outcome is asked
for before it is there. Once a run is stopped, nothing is evaluated any more, so the cause that it
ends with is the cause at that node (`Steps.stops_at`). In particular a fault always names the node
that its cause is about, and the causes that are left to the driver never come of a run
(`runBody_inner`).
-/

namespace Suspension

open Eval in
/-- What a node of some form cannot go on with: the values of its operands, in a frame. -/
inductive Shape.Refuses {α : Type} (σ : Frame) : Shape α → List Value → FaultCause → Prop
  | source {v : Variable} (free : lookup σ v.id = none) : Refuses σ (.var v) [] (.unbound v)
  | target {v : Variable} {o : α} {value : Value} (free : lookup σ v.id = none) :
    Refuses σ (.assign v o) [value] (.unbound v)
  | callee {name : String} {args : List α} {values : List Value}
    (unknown : (σ.host.call name values).1 = .unknown) :
    Refuses σ (.call name args) values (.unknownOperation name)
  | acquire {o : α} {name : String} {ty : Ty} {value : Value}
    (unknown : (σ.host.call name [value]).1 = .unknown) :
    Refuses σ (.await o (some name) ty) [value] (.unknownOperation name)
  | switch {value : α} {cases : List (Case α)} {otherwise : Option α} {v : Value}
    (noInt : v.asInt? = none) : Refuses σ (.switch value cases otherwise) [v] (.switchOver v.type)
  | branch {test yes : α} {no : Option α} {v : Value} (noBool : v.asBool? = none) :
    Refuses σ (.branch test yes no) [v] (.conditionOn v.type)
  | minus {o : α} {v : Value} (noInt : ∀ i, v ≠ .int i) :
    Refuses σ (.unary .minus o) [v] (.negationOf v.type)
  | not {o : α} {v : Value} (noBool : v.asBool? = none) :
    Refuses σ (.unary .not o) [v] (.negationOf v.type)
  | binary {op : BinaryOp} {l r : α} {a b : Value} (unfit : op.apply a b = none) :
    Refuses σ (.binary op l r) [a, b] (.operands op a.type b.type)
  | awaiter {question : AwaitStep} {o : α} {v : Value} (noFuture : cell? σ.host v = none) :
    Refuses σ (.awaiter question o) [v] (.notAwaitable v.type)
  | incomplete {o : α} {v : Value} {i : Nat} {f : Future} (asked : cell? σ.host v = some (i, f))
    (pending : f.isCompleted = false) : Refuses σ (.awaiter .getResult o) [v] .incomplete
  /-- What a suspend point waits for is its operand, or what an operation made of it. -/
  | await {o : α} {acquire : Option String} {ty : Ty} {v awaiter : Value} {host : Host}
    (noFuture : cell? host awaiter = none) :
    Refuses σ (.await o acquire ty) [v] (.notAwaitable awaiter.type)
  | unlowered {o : α} {acquire : Option String} {ty : Ty} :
    Refuses σ (.await o acquire ty) [] .unloweredAwait
  | rethrow (idle : σ.handling = []) : Refuses σ (.raise none) [] .rethrowOutsideHandler
  | intoBinary {op : BinaryOp} {l r : α} : Refuses σ (.binary op l r) [] .intoOperand
  | intoCall {name : String} {args : List α} : Refuses σ (.call name args) [] .intoOperand
  | intoRegion {body : α} {cs : List (Clause α)} {cleanup fault : Option α} :
    Refuses σ (.region body cs cleanup fault) [] .intoRegion
  | intoLock {guard body : α} : Refuses σ (.lock guard body) [] .intoLock

/-- What a run is stopped for at a node, given the values of its operands and the frame. -/
inductive Node.Stops (n : Node) (σ : Frame) : List Value → Stop → Prop
  | fault {values : List Value} {cause : FaultCause} (refuses : n.shape.Refuses σ values cause) :
    Stops n σ values (.fault ⟨cause, some n.id⟩)
  | negationOverflow {o : Node} (shape : n.shape = .unary .minus o) :
    Stops n σ [.int Int64.minValue] .negationOverflow

/-- No cause that is left to the driver is that of a node. -/
theorem Shape.Refuses.inner {α : Type} {σ : Frame} {sh : Shape α} {values : List Value}
    {cause : FaultCause} (h : sh.Refuses σ values cause) : cause.isDrivers = false := by
  cases h <;> rfl

namespace Steps

open Eval TransitionSystem

variable {s : Setting} {n root : Node} {σ τ : Frame} {vs : List Value} {reason : Stop}

/-! ### Computations -/

theorem lookup_noted (e : Event) (σ : Frame) (id : SymbolId) :
    lookup (noted s e σ) id = lookup σ id := by
  rw [lookup, lookup, noted_locals, noted_persisted]

/-- A computation that stops a run only for what is told of a node. -/
def StopsBy {α : Type} (stops : Stop → Prop) (x : Eval α) (σ : Frame) : Prop :=
  ∀ reason, (x σ).1 = .error (.stop reason) → stops reason

namespace StopsBy

variable {α β : Type} {stops : Stop → Prop} {x : Eval α}

theorem pure (a : α) : StopsBy stops (pure a : Eval α) σ := by
  rintro _ ⟨⟩

theorem fault {cause : FaultCause} (h : stops (.fault ⟨cause, some n.id⟩)) :
    StopsBy stops (fault cause n : Eval α) σ := by
  rintro _ ⟨⟩
  exact h

theorem bind {k : α → Eval β} (h : StopsBy stops x σ)
    (h' : ∀ a τ, x σ = (.ok a, τ) → StopsBy stops (k a) τ) : StopsBy stops (x >>= k) σ := by
  intro reason stopped
  rw [bind_apply] at stopped
  rcases eq : x σ with ⟨e | a, τ⟩
  · rw [eq] at stopped
    cases stopped
    exact h reason (by rw [eq])
  · rw [eq] at stopped
    exact h' a τ eq reason stopped

theorem leave {e : Exit} (h : ∀ reason, e ≠ .stop reason) :
    StopsBy stops (leave s e : Eval α) σ := by
  intro reason stopped
  rw [leave_apply] at stopped
  exact absurd (Except.error.inj stopped) (h reason)

theorem load {v : Variable} (h : lookup σ v.id = none → stops (.fault ⟨.unbound v, some n.id⟩)) :
    StopsBy stops (load v n) σ := by
  intro reason stopped
  rw [load_apply] at stopped
  split at stopped
  · cases stopped
  · rename_i free
    exact fault (h free) reason stopped

theorem store {v : Variable} {value : Value}
    (h : lookup σ v.id = none → stops (.fault ⟨.unbound v, some n.id⟩)) :
    StopsBy stops (store s v value n) σ := by
  intro reason stopped
  rw [store_apply] at stopped
  split at stopped
  · cases stopped
  · rename_i unset
    refine fault (h ?_) reason stopped
    rw [assigned?] at unset
    split at unset
    · cases unset
    · rename_i noLocal
      split at unset
      · cases unset
      · rename_i noSlot
        rw [Store.contains, Bool.not_eq_true, Option.isSome_eq_false_iff, Option.isNone_iff_eq_none]
          at noLocal noSlot
        rw [lookup, noLocal, noSlot]

theorem cell {v : Value}
    (h : cell? σ.host v = none → stops (.fault ⟨.notAwaitable v.type, some n.id⟩)) :
    StopsBy stops (cell v n) σ := by
  intro reason stopped
  rw [cell_apply] at stopped
  split at stopped
  · cases stopped
  · rename_i noFuture
    exact fault (h noFuture) reason stopped

theorem result {f : Future}
    (h : f.isCompleted = false → stops (.fault ⟨.incomplete, some n.id⟩)) :
    StopsBy stops (result f n) σ := by
  intro reason stopped
  rw [Eval.result, Future.outcome?] at stopped
  cases completed : f.isCompleted with
  | false =>
    rw [completed] at stopped
    exact fault (h completed) reason stopped
  | true =>
    rw [completed] at stopped
    rcases outcome : f.outcome with ex | v <;> simp [outcome, pure_apply, throw_apply] at stopped

theorem invoke {callee : String} {values : List Value}
    (h : (σ.host.call callee values).1 = .unknown →
      stops (.fault ⟨.unknownOperation callee, some n.id⟩)) :
    StopsBy stops (Evaluator.invoke s callee values n) σ := by
  intro reason stopped
  rw [Evaluator.invoke] at stopped
  split at stopped
  · cases values with
    | nil => cases stopped
    | cons awaiter rest =>
      dsimp only at stopped
      rw [bind_apply, handOver_apply] at stopped
      cases stopped
  · rw [callHost_apply] at stopped
    split at stopped
    · rename_i unknown
      exact fault (h unknown) reason stopped
    · cases stopped
    · cases stopped

end StopsBy

/-! ### Nodes -/

/-- What is told of an event makes no difference to what a node refuses. -/
theorem refuses_noted {e : Event} {sh : Shape Node} {cause : FaultCause}
    (h : sh.Refuses (noted s e σ) vs cause) : sh.Refuses σ vs cause := by
  cases h with
  | source free => exact .source (lookup_noted e σ _ ▸ free)
  | target free => exact .target (lookup_noted e σ _ ▸ free)
  | callee unknown => exact .callee (noted_host s σ e ▸ unknown)
  | acquire unknown => exact .acquire (noted_host s σ e ▸ unknown)
  | awaiter noFuture => exact .awaiter (noted_host s σ e ▸ noFuture)
  | incomplete asked pending => exact .incomplete (noted_host s σ e ▸ asked) pending
  | rethrow idle => exact .rethrow (noted_handling s σ e ▸ idle)
  | switch h => exact .switch h
  | branch h => exact .branch h
  | minus h => exact .minus h
  | not h => exact .not h
  | binary h => exact .binary h
  | await h => exact .await h
  | unlowered => exact .unlowered
  | intoBinary => exact .intoBinary
  | intoCall => exact .intoCall
  | intoRegion => exact .intoRegion
  | intoLock => exact .intoLock

theorem stops_noted {e : Event} (h : n.Stops (noted s e σ) vs reason) : n.Stops σ vs reason := by
  cases h with
  | fault refuses => exact .fault (refuses_noted refuses)
  | negationOverflow shape => exact .negationOverflow shape

theorem leaf_stops : StopsBy (n.Stops σ []) (leaf s n) σ := by
  obtain ⟨i, sh⟩ := n
  cases sh with
  | var v => exact .load fun free ↦ .fault (.source free)
  | goto target => exact .leave (by rintro _ ⟨⟩)
  | ret value =>
    cases value with
    | none => exact .leave (by rintro _ ⟨⟩)
    | some o => exact .pure _
  | raise value =>
    cases value with
    | some o => exact .pure _
    | none =>
      refine StopsBy.bind (x := get) (by rintro _ ⟨⟩) fun _ _ same ↦ ?_
      cases same
      cases handling : σ.handling with
      | cons ex rest => exact .leave (by rintro _ ⟨⟩)
      | nil => exact .fault (.fault (.rethrow handling))
  | _ => exact .pure _

theorem finish_stops (v : Value) : StopsBy (n.Stops σ [v]) (finish s n v) σ := by
  obtain ⟨i, sh⟩ := n
  cases sh with
  | await o acquire ty =>
    let n : Node := ⟨i, .await o acquire ty⟩
    have waits (awaiter : Value) (τ : Frame) :
        StopsBy (n.Stops σ [v]) (Evaluator.waitFor s none awaiter n) τ := by
      refine StopsBy.bind (x := Eval.cell awaiter n)
        (.cell fun noFuture ↦ .fault (.await noFuture)) fun c τ _ ↦ ?_
      refine StopsBy.bind (x := Eval.wait c.1 c.2) (by rintro _ ⟨⟩) fun f τ' waited ↦ ?_
      -- A future that was waited for is not pending any more.
      refine .result fun pending ↦ ?_
      cases waited
      cases pending
    cases acquire with
    | none => exact waits v σ
    | some name =>
      exact .bind (.invoke fun unknown ↦ .fault (.acquire unknown))
        fun awaiter τ _ ↦ waits awaiter τ
  | awaiter question o =>
    refine .bind (.cell fun noFuture ↦ .fault (.awaiter noFuture)) fun c τ asked ↦ ?_
    cases question with
    | acquire => exact .pure _
    | isCompleted => exact .pure _
    | getResult =>
      rw [cell_apply] at asked
      split at asked
      · rename_i here
        cases asked
        exact .result fun pending ↦ .fault (.incomplete here pending)
      · cases asked
  | ret value => exact .leave (by rintro _ ⟨⟩)
  | raise value => exact .leave (by rintro _ ⟨⟩)
  | assign target o =>
    exact .bind (.store fun free ↦ .fault (.target free)) fun _ _ _ ↦ .pure _
  | unary op o =>
    change StopsBy _ (Eval.unary op v _) σ
    cases op with
    | minus =>
      cases v with
      | int i =>
        unfold Eval.unary
        by_cases least : i = Int64.minValue
        · rw [least]
          rintro _ ⟨⟩
          exact .negationOverflow rfl
        · simp only [least, if_false]
          exact .pure _
      | _ => exact .fault (.fault (.minus (by rintro _ ⟨⟩)))
    | not =>
      unfold Eval.unary
      cases noBool : v.asBool? with
      | none => exact .fault (.fault (.not noBool))
      | some b => exact .pure _
  | _ => exact .pure _

theorem combine_stops (vs : List Value) : StopsBy (n.Stops σ vs) (combine s n vs) σ := by
  obtain ⟨i, sh⟩ := n
  cases sh with
  | binary op l r =>
    rcases vs with _ | ⟨a, _ | ⟨b, _ | _⟩⟩
    · exact .pure _
    · exact .pure _
    · change StopsBy _ (Eval.binary op a b _) σ
      unfold Eval.binary
      rcases unfit : op.apply a b with _ | ex | v
      · exact .fault (.fault (.binary unfit))
      · rintro _ ⟨⟩
      · exact .pure _
    · exact .pure _
  | call callee args => exact .invoke fun unknown ↦ .fault (.callee unknown)
  | _ => exact .pure _

/-! ### Moves -/

/-- A region under way that is left by what stops a run is left at once: no part of it waits to go
on with that. -/
def Stage.IsOpen : Stage → Prop
  | .fault r => ∀ reason, r ≠ .error (.stop reason)
  | .cleanup r => ∀ reason, r ≠ .error (.stop reason)
  | _ => True

/-- The values of the operands of a node at a stage, where the operand that it waits for has a
value and is the last. -/
inductive Stage.Completes : Stage → Value → List Value → Prop
  | operand (v : Value) : Completes .operand v [v]
  | test (v : Value) : Completes .test v [v]
  | operands (done : List Value) (v : Value) : Completes (.operands done []) v (done ++ [v])

/-- A move that stops the run only for what is told. -/
structure Move.StopsBy (stops : Stop → Prop) (m : Move) : Prop where
  control : ∀ reason, m.control = .leave (.error (.stop reason)) → stops reason
  tasks : ∀ t ∈ m.tasks, t.stage.IsOpen

namespace Move.StopsBy

variable {stops : Stop → Prop}

theorem give {r : Outcome} (h : ∀ reason, r = .error (.stop reason) → stops reason) (σ : Frame) :
    (give r σ).StopsBy stops :=
  ⟨fun reason same ↦ h reason (Control.leave.inj same), List.forall_mem_nil _⟩

theorem perform {x : Eval Value} (h : Steps.StopsBy stops x σ) : (perform x σ).StopsBy stops :=
  give h _

theorem fault {cause : FaultCause} (h : n.shape.Refuses σ [] cause) (e : Event) :
    (Steps.perform (Eval.fault cause n) (noted s e σ)).StopsBy (n.Stops σ []) :=
  perform (.fault (.fault h))

theorem descend {st : Stage} {c : Node} {seek : Option SymbolId} (h : st.IsOpen) (σ : Frame) :
    (descend n st c seek σ).StopsBy stops :=
  ⟨by rintro _ ⟨⟩, List.forall_mem_singleton.2 h⟩

theorem nextStatement {rest : List Node} {seek : Option SymbolId} (last : Value) (σ : Frame) :
    (nextStatement n rest seek last σ).StopsBy stops := by
  cases rest with
  | nil => exact give (by rintro _ ⟨⟩) σ
  | cons c rest => exact descend (by trivial) _

theorem nextOperand {done : List Value} {rest : List (Node × Option SymbolId)}
    (h : rest = [] → Steps.StopsBy stops (combine s n done) σ) :
    (nextOperand s n done rest σ).StopsBy stops := by
  cases rest with
  | nil => exact perform (h rfl)
  | cons o rest => exact descend (by trivial) _

theorem runCleanup {r : Outcome} (h : ∀ reason, r = .error (.stop reason) → stops reason)
    (σ : Frame) : (runCleanup n r σ).StopsBy stops := by
  unfold Steps.runCleanup
  cases (partsOf n).1 with
  | none => exact give h σ
  | some part =>
    have runs (open' : Stage.IsOpen (.cleanup r)) :
        (Steps.descend n (.cleanup r) part none σ).StopsBy stops := descend open' σ
    rcases r with (label | v | ex | reason) | v
    · exact runs (by rintro _ ⟨⟩)
    · exact runs (by rintro _ ⟨⟩)
    · exact runs (by rintro _ ⟨⟩)
    · exact give h σ
    · exact runs (by rintro _ ⟨⟩)

theorem runParts {r : Outcome} (h : ∀ reason, r = .error (.stop reason) → stops reason)
    (σ : Frame) : (runParts n r σ).StopsBy stops := by
  have cleanup : (Steps.runCleanup n r σ).StopsBy stops := runCleanup h σ
  unfold Steps.runParts
  cases (partsOf n).2 with
  | none => exact cleanup
  | some part =>
    rcases r with (label | v | ex | reason) | v
    · exact cleanup
    · exact cleanup
    · exact descend (by rintro _ ⟨⟩) σ
    · exact cleanup
    · exact cleanup

theorem tryClauses (ex : Value) (cs : List (Clause Node)) (σ : Frame) :
    (tryClauses s n ex cs σ).StopsBy stops := by
  cases cs with
  | nil => exact runParts (by rintro _ ⟨⟩) σ
  | cons c cs =>
    rw [Steps.tryClauses]
    split
    · exact descend (by trivial) _
    · exact descend (by trivial) _

/-- A test whose value selects no arm is refused. -/
theorem enterArm (v : Value) (σ : Frame) :
    (enterArm n (armFor n v) σ).StopsBy (n.Stops σ [v]) := by
  have arm {o : Except FaultCause (Option Node)}
      (h : ∀ cause, o = .error cause → n.shape.Refuses σ [v] cause) :
      (Steps.enterArm n o σ).StopsBy (n.Stops σ [v]) := by
    rcases o with cause | _ | arm
    · exact perform (.fault (.fault (h cause rfl)))
    · exact give (by rintro _ ⟨⟩) σ
    · exact descend (by trivial) _
  obtain ⟨i, sh⟩ := n
  cases sh with
  | switch value cases otherwise =>
    refine arm fun cause refused ↦ ?_
    change Evaluator.caseFor cases otherwise v = _ at refused
    rw [Evaluator.caseFor] at refused
    split at refused
    · rename_i noInt
      cases refused
      exact .switch noInt
    · split at refused <;> cases refused
  | branch test yes no =>
    refine arm fun cause refused ↦ ?_
    change Evaluator.sideFor yes no v = _ at refused
    rw [Evaluator.sideFor] at refused
    split at refused
    · rename_i noBool
      cases refused
      exact .branch noBool
    · cases refused
    · cases refused
  | _ => exact arm (by rintro _ ⟨⟩)

/-- Entering a node stops the run only for what the node refuses without any operand. -/
theorem enterNode (s : Setting) (n : Node) (seek : Option SymbolId) (σ : Frame) :
    (enterNode s n seek σ).StopsBy (n.Stops σ []) := by
  obtain ⟨i, sh⟩ := n
  let e : Event := .visit i seek
  have plain {st : Stage} {c : Node} {seek : Option SymbolId} (h : st.IsOpen) :
      (Steps.descend ⟨i, sh⟩ st c seek (noted s e σ)).StopsBy (Node.Stops ⟨i, sh⟩ σ []) :=
    descend h _
  have leafs : (Steps.perform (leaf s ⟨i, sh⟩) (noted s e σ)).StopsBy (Node.Stops ⟨i, sh⟩ σ []) :=
    perform fun reason stopped ↦ stops_noted (leaf_stops reason stopped)
  have arms (test : Node) (others : List Node) :
      (testOrArm s ⟨i, sh⟩ test others seek (noted s e σ)).StopsBy (Node.Stops ⟨i, sh⟩ σ []) := by
    unfold testOrArm
    split
    · exact plain trivial
    · exact plain trivial
  have operands (os : List Node) (into : sh.Refuses σ [] .intoOperand) :
      (firstOperand s ⟨i, sh⟩ os seek (noted s e σ)).StopsBy (Node.Stops ⟨i, sh⟩ σ []) := by
    unfold firstOperand
    split
    · rename_i cause refused
      obtain rfl : cause = .intoOperand := by
        cases seek with
        | none => cases refused
        | some label =>
          simp only [Evaluator.soughtOperand?] at refused
          split at refused
          · cases refused
          · split at refused <;> cases refused
            rfl
      exact fault into e
    · exact nextOperand fun _ reason stopped ↦ stops_noted (combine_stops [] reason stopped)
  cases sh with
  | block declared body =>
    exact nextStatement .unit _
  | await o acquire ty =>
    simp only [Steps.enterNode, startNode, Node.shape]
    split
    · exact plain trivial
    · exact fault .unlowered e
  | awaiter question o => exact plain trivial
  | region body cs cleanup part =>
    simp only [Steps.enterNode, startNode, Node.shape]
    split
    · exact fault .intoRegion e
    · exact plain trivial
  | loop body breakLabel continueLabel =>
    simp only [Steps.enterNode, startNode, Node.shape]
    split
    · exact plain trivial
    · split
      · exact give (by rintro _ ⟨⟩) _
      · split
        · exact plain trivial
        · exact plain trivial
  | switch value cases otherwise => exact arms _ _
  | branch test yes no => exact arms _ _
  | lock guard body =>
    simp only [Steps.enterNode, startNode, Node.shape]
    split
    · exact fault .intoLock e
    · exact plain trivial
  | ret value =>
    cases value with
    | none => exact leafs
    | some o => exact plain trivial
  | raise value =>
    cases value with
    | none => exact leafs
    | some o => exact plain trivial
  | assign target o => exact plain trivial
  | binary op l r => exact operands [l, r] .intoBinary
  | unary op o => exact plain trivial
  | call callee args => exact operands args .intoCall
  | label target => exact leafs
  | goto target => exact leafs
  | var v => exact leafs
  | const value => exact leafs
  | defaultOf ty => exact leafs

/-- Leaving to a task stops the run only for what stopped the child, or for what the node refuses
when its operands have their values. -/
theorem leaveTo {t : Task} (s : Setting) {r : Outcome} {stops : Stop → Prop} (h : t.stage.IsOpen)
    (passes : ∀ reason, r = .error (.stop reason) → stops reason)
    (acts : ∀ v vs, r = .ok v → t.stage.Completes v vs → ∀ reason, t.node.Stops σ vs reason →
      stops reason) : (leaveTo s t r σ).StopsBy stops := by
  obtain ⟨n, st⟩ := t
  have given {r : Outcome} (h : ∀ reason, r ≠ .error (.stop reason)) :
      (Steps.give r σ).StopsBy stops := give (fun reason same ↦ absurd same (h reason)) σ
  have plain {st : Stage} {c : Node} {seek : Option SymbolId} (h : st.IsOpen) :
      (Steps.descend n st c seek σ).StopsBy stops := descend h σ
  -- The cases are those of `leaveTo`, in its order.
  unfold Steps.leaveTo
  split
  · exact nextStatement _ σ
  · unfold jumpInBlock
    split
    · exact given (by rintro _ ⟨⟩)
    · exact plain trivial
  · exact give passes σ
  · unfold nextRound
    split
    · exact plain trivial
    · exact given (by rintro _ ⟨⟩)
  · unfold jumpInLoop
    split
    · split
      · exact given (by rintro _ ⟨⟩)
      · split
        · exact plain trivial
        · split
          · exact plain trivial
          · exact given (by rintro _ ⟨⟩)
    · exact given (by rintro _ ⟨⟩)
  · exact give passes σ
  · rename_i stage
    obtain rfl := stage
    exact perform fun reason stopped ↦
      acts _ _ rfl (.operand _) reason (finish_stops _ reason stopped)
  · exact give passes σ
  · rename_i stage
    obtain rfl := stage
    refine nextOperand fun last reason stopped ↦ ?_
    subst last
    exact acts _ _ rfl (.operands _ _) reason (combine_stops _ reason stopped)
  · exact give passes σ
  · rename_i v stage
    obtain rfl := stage
    have arm := enterArm (n := n) v σ
    refine ⟨fun reason stopped ↦ ?_, arm.tasks⟩
    exact acts v _ rfl (.test v) reason (arm.control reason stopped)
  · exact give passes σ
  · exact give passes σ
  · unfold lockBody
    split
    · exact plain trivial
    · exact given (by rintro _ ⟨⟩)
  · exact give passes σ
  · exact tryClauses _ _ σ
  · exact runParts passes σ
  · split
    · exact descend (by trivial) _
    · exact tryClauses _ _ σ
  · exact tryClauses _ _ σ
  · exact give passes σ
  · exact runParts passes _
  · rename_i stage
    obtain rfl := stage
    exact runCleanup (fun reason same ↦ absurd same (h reason)) σ
  · exact give passes σ
  · rename_i stage
    obtain rfl := stage
    exact given h
  · exact give passes σ

end Move.StopsBy

/-! ### Runs -/

/-- A node is about to do what it does with the values of its operands. -/
inductive Configuration.Acts : Configuration → Node → List Value → Prop
  | enter (n : Node) (seek : Option SymbolId) (K : List Task) (σ : Frame) :
    Acts ⟨.enter n seek, K, σ⟩ n []
  | leave {v : Value} {vs : List Value} {st : Stage} (n : Node) (K : List Task) (σ : Frame)
    (completes : st.Completes v vs) : Acts ⟨.leave (.ok v), ⟨n, st⟩ :: K, σ⟩ n vs

/-- A run comes to a node of its tree that cannot go on for this reason. -/
def MeetsStop (s : Setting) (root : Node) (start : Configuration) (reason : Stop) : Prop :=
  ∃ c n vs, (system s).Reaches start c ∧ c.Acts n vs ∧ n ∈ root.walk ∧ n.Stops c.frame vs reason

/-- No task waits to go on with a stop, and a stop under way is one that is accounted for. -/
structure Configuration.AccountsFor (stops : Stop → Prop) (c : Configuration) : Prop where
  tasks : ∀ t ∈ c.tasks, t.stage.IsOpen
  control : ∀ reason, c.control = .leave (.error (.stop reason)) → stops reason

theorem Move.StopsBy.on {stops : Stop → Prop} {m : Move} (moved : m.StopsBy stops) {K : List Task}
    (below : ∀ t ∈ K, t.stage.IsOpen) : (m.on K).AccountsFor stops :=
  ⟨List.forall_mem_append.2 ⟨moved.tasks, below⟩, moved.control⟩

/-- Every configuration of a run accounts for its stop by a node the run came to before. -/
theorem accountsFor_run (s : Setting) (root : Node) (seek : Option SymbolId) (σ : Frame) (k : Nat) :
    ((system s).run k (start root seek σ)).AccountsFor (MeetsStop s root (start root seek σ)) := by
  induction k with
  | zero => exact ⟨List.forall_mem_nil _, by rintro _ ⟨⟩⟩
  | succ k ih =>
    have reach : (system s).Reaches (start root seek σ) ((system s).run k (start root seek σ)) :=
      ⟨k, rfl⟩
    obtain ⟨m, lineage, isNode⟩ := Invariant.lineage_of_reaches s reach
    rw [run_add, run_one]
    generalize (system s).run k (start root seek σ) = c at ih reach lineage isNode
    obtain ⟨control, tasks, τ⟩ := c
    obtain ⟨opens, found⟩ := ih
    cases control with
    | enter n sought =>
      obtain rfl := isNode n sought rfl
      have moved := Move.StopsBy.enterNode s m sought τ
      refine Move.StopsBy.on ⟨fun reason stopped ↦ ?_, moved.tasks⟩ opens
      exact ⟨_, m, [], reach, .enter m sought tasks τ, lineage.within, moved.control reason stopped⟩
    | leave r =>
      cases tasks with
      | nil => exact ⟨opens, found⟩
      | cons t K =>
        obtain ⟨isOpen, below⟩ := List.forall_mem_cons.1 opens
        -- A stop that the task lets through was under way before.
        have passes : ∀ reason, r = .error (.stop reason) →
            MeetsStop s root (start root seek σ) reason :=
          fun reason stopped ↦ found reason (congrArg _ stopped)
        refine Move.StopsBy.on (.leaveTo s isOpen passes ?_) below
        rintro v vs rfl completes reason stops
        cases lineage with
        | child outer awaits =>
          exact ⟨_, t.node, vs, reach, .leave t.node K τ completes, outer.within, stops⟩

/-- **A run is stopped at a node of its tree**, for what that node cannot go on with in the frame in
which it is about to act. -/
theorem stops_at {seek : Option SymbolId} {σ' : Frame}
    (h : (system s).Ends (start root seek σ) (.error (.stop reason), σ')) :
    ∃ c n vs, (system s).Reaches (start root seek σ) c ∧ c.Acts n vs ∧ n ∈ root.walk ∧
      n.Stops c.frame vs reason := by
  obtain ⟨c, ⟨k, rfl⟩, result⟩ := h
  refine (accountsFor_run s root seek σ k).control reason ?_
  generalize (system s).run k (start root seek σ) = c at result
  obtain ⟨_ | _, _ | _, _⟩ := c <;> cases result
  rfl

/-- A task lets through what stops a run. -/
theorem leaveTo_stop (t : Task) (reason : Stop) (σ : Frame) :
    ∃ exs, leaveTo s t (.error (.stop reason)) σ =
      give (.error (.stop reason)) { σ with handling := exs } := by
  obtain ⟨n, st⟩ := t
  have parts (σ : Frame) :
      runParts n (.error (.stop reason)) σ = give (.error (.stop reason)) σ := by
    simp only [runParts, runCleanup]
    rcases partsOf n with ⟨_ | _, _ | _⟩ <;> rfl
  cases st with
  | handler c => exact ⟨_, parts _⟩
  | body => exact ⟨σ.handling, parts σ⟩
  | _ => exact ⟨σ.handling, rfl⟩

/-- What stops a run is how it ends, and nothing happens behind it. -/
theorem ends_of_stop (reason : Stop) (K : List Task) (σ : Frame) :
    ∃ exs, (system s).Ends ⟨.leave (.error (.stop reason)), K, σ⟩
      (.error (.stop reason), { σ with handling := exs }) := by
  induction K generalizing σ with
  | nil => exact ⟨σ.handling, .of_result rfl⟩
  | cons t K ih =>
    obtain ⟨exs, through⟩ := leaveTo_stop (s := s) t reason σ
    obtain ⟨exs', ends⟩ := ih { σ with handling := exs }
    refine ⟨exs', .of_next ?_⟩
    have passes : next s ⟨.leave (.error (.stop reason)), t :: K, σ⟩ =
        ⟨.leave (.error (.stop reason)), K, { σ with handling := exs }⟩ := by
      rw [next]
      dsimp only
      rw [through]
      rfl
    exact (congrArg (fun c ↦ (system s).Ends c _) passes).mpr ends

end Steps

/-! ### Bodies -/

open Steps

/-- An evaluation that is stopped was stopped by a node of its tree. -/
theorem eval_stops {s : Setting} {fuel : Nat} {root : Node} {seek : Option SymbolId} {σ σ' : Frame}
    {reason : Stop} (h : eval s fuel root seek σ = (.error (.stop reason), σ'))
    (enough : reason ≠ .outOfFuel) :
    ∃ n ∈ root.walk, ∃ τ values, n.Stops τ values reason := by
  have ends := ends_of_eval h fun out ↦ enough (Exit.stop.inj (Except.error.inj out))
  obtain ⟨c, n, values, -, -, within, stops⟩ := stops_at ends
  exact ⟨n, within, c.frame, values, stops⟩

/-- A run that stops with a fault does so for a cause that the evaluator finds. -/
theorem runBody_inner {s : Setting} {fuel : Nat} {body : Node} {persisted : Store} {host : Host}
    {f : Fault} (stopped : (runBody s fuel body persisted host).1 = .error (.fault f)) :
    f.cause.isDrivers = false := by
  rcases run : eval s fuel body none { persisted, host } with ⟨r, σ⟩
  rw [runBody_of_eval run] at stopped
  rcases r with (label | v | v | reason) | v <;> cases stopped
  · rfl
  · obtain ⟨n, -, τ, values, stops⟩ := eval_stops run (by rintro ⟨⟩)
    cases stops with
    | fault refuses => exact refuses.inner

end Suspension
