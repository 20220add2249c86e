import Suspension.Proofs.Steps.Adequacy

/-!
# Recording makes no difference

Whether events are recorded changes nothing but the record: with the record left out of sight
(`Frame.forget`), a run that records and one that does not go through the same configurations
(`forget_next`), so they come to the same result (`ends_forget`).
-/

namespace Suspension

/-- A frame without its record. -/
def Frame.forget (σ : Frame) : Frame :=
  { σ with moments := [] }

/-- A setting that does not record. -/
def Setting.mute (s : Setting) : Setting :=
  { s with records := false }

namespace Steps

open Eval TransitionSystem

/-- A computation that comes to the same with and without a record. -/
def Blind {α : Type} (x x' : Eval α) : Prop :=
  ∀ σ, x' σ.forget = ((x σ).1, (x σ).2.forget)

variable {s : Setting}

/-- An event that is not recorded is forgotten. -/
@[simp] theorem forget_noted (e : Event) (σ : Frame) :
    noted s.mute e σ.forget = (noted s e σ).forget := by
  rw [noted, noted]
  split
  · contradiction
  · split <;> rfl

namespace Blind

variable {α β : Type} {x x' : Eval α}

/-- Blindness goes through a sequence. -/
theorem bind {k k' : α → Eval β} (h : Blind x x') (h' : ∀ a, Blind (k a) (k' a)) :
    Blind (x >>= k) (x' >>= k') := by
  intro σ
  rw [bind_apply, bind_apply, h σ]
  rcases x σ with ⟨e | a, σ'⟩
  · rfl
  · exact h' a σ'

theorem pure (a : α) : Blind (pure a : Eval α) (pure a) := fun _ ↦ rfl

theorem throw (e : Exit) : Blind (throw e : Eval α) (throw e) := fun _ ↦ rfl

theorem fault (cause : FaultCause) (n : Node) : Blind (fault cause n : Eval α) (fault cause n) :=
  throw _

theorem note (e : Event) : Blind (note s e) (note s.mute e) := by
  intro σ
  rw [note_apply, note_apply, forget_noted]

theorem leave (e : Exit) : Blind (leave s e : Eval α) (leave s.mute e) :=
  (note (.exit e)).bind fun _ ↦ throw e

theorem load (v : Variable) (n : Node) : Blind (load v n) (load v n) := by
  intro σ
  have same : lookup σ.forget v.id = lookup σ v.id := rfl
  rw [load_apply, load_apply, same]
  cases lookup σ v.id <;> rfl

/-- Assignments do not look at the record. -/
theorem store (v : Variable) (value : Value) (n : Node) :
    Blind (store s v value n) (store s.mute v value n) := by
  intro σ
  have same : assigned? s.mute v value σ.forget = (assigned? s v value σ).map Frame.forget := by
    rw [assigned?, assigned?, forget_noted]
    change (if σ.locals.contains v.id then _ else if σ.persisted.contains v.id then _ else _) = _
    split
    · rfl
    · split <;> rfl
  rw [store_apply, store_apply, same]
  cases assigned? s v value σ <;> rfl

/-- Handing over an awaiter does not look at the record. -/
theorem handOver (awaiter : Value) : Blind (handOver s awaiter) (handOver s.mute awaiter) := by
  intro σ
  rw [handOver_apply, handOver_apply, forget_noted]
  rfl

/-- Calls of the host do not look at the record. -/
theorem callHost (name : String) (args : List Value) (n : Node) :
    Blind (callHost s name args n) (callHost s.mute name args n) := by
  intro σ
  have same : called name args σ.forget = (called name args σ).forget := rfl
  have host : σ.forget.host = σ.host := rfl
  rw [callHost_apply, callHost_apply, host, same, forget_noted]
  cases (σ.host.call name args).1 <;> rfl

theorem cell (v : Value) (n : Node) : Blind (cell v n) (cell v n) := by
  intro σ
  have same : cell? σ.forget.host v = cell? σ.host v := rfl
  rw [cell_apply, cell_apply, same]
  cases cell? σ.host v <;> rfl

theorem result (f : Future) (n : Node) : Blind (result f n) (result f n) := by
  unfold Eval.result
  split
  · exact pure _
  · exact throw _
  · exact fault _ n

/-- Operations do not look at the record. -/
theorem invoke (callee : String) (args : List Value) (n : Node) :
    Blind (Evaluator.invoke s callee args n) (Evaluator.invoke s.mute callee args n) := by
  unfold Evaluator.invoke
  split
  · cases args with
    | nil => exact pure _
    | cons awaiter => exact (handOver awaiter).bind fun _ ↦ pure _
  · exact callHost callee args n

/-- Waiting does not look at the record. -/
theorem waitFor (acquire : Option String) (v : Value) (n : Node) :
    Blind (Evaluator.waitFor s acquire v n) (Evaluator.waitFor s.mute acquire v n) := by
  have waits (awaiter : Value) : Blind (Evaluator.waitFor s none awaiter n)
      (Evaluator.waitFor s.mute none awaiter n) :=
    (cell awaiter n).bind fun _ ↦ bind (fun _ ↦ rfl) fun f ↦ result f n
  cases acquire with
  | none => exact waits v
  | some name => exact (invoke name [v] n).bind waits

/-- Steps of the awaiter protocol do not look at the record. -/
theorem awaiterStep (step : AwaitStep) (v : Value) (n : Node) :
    Blind (Evaluator.awaiterStep step v n) (Evaluator.awaiterStep step v n) := by
  refine (cell v n).bind fun c ↦ ?_
  cases step with
  | acquire => exact pure v
  | isCompleted => exact pure _
  | getResult => exact result _ n

/-- A bare rethrow does not look at the record. -/
theorem rethrow (n : Node) : Blind (Evaluator.rethrow s n) (Evaluator.rethrow s.mute n) := by
  intro σ
  unfold Evaluator.rethrow
  have same : σ.forget.handling = σ.handling := rfl
  rw [bind_apply, bind_apply, get_apply, get_apply]
  dsimp only
  rw [same]
  cases σ.handling with
  | nil => exact fault _ n σ
  | cons ex => exact leave _ σ

theorem binary (op : BinaryOp) (l r : Value) (n : Node) :
    Blind (binary op l r n) (binary op l r n) := by
  unfold Eval.binary
  split
  · exact pure _
  · exact throw _
  · exact fault _ n

theorem unary (op : UnaryOp) (v : Value) (n : Node) : Blind (unary op v n) (unary op v n) := by
  unfold Eval.unary
  split
  · split
    · exact throw _
    · exact pure _
  · exact fault _ n
  · split
    · exact pure _
    · exact fault _ n

variable (n : Node)

/-- Nodes without children do not look at the record. -/
theorem leaf : Blind (leaf s n) (leaf s.mute n) := by
  unfold Steps.leaf
  split
  · exact pure _
  · exact leave _
  · exact leave _
  · exact rethrow n
  · exact load _ n
  · exact pure _
  · exact pure _
  · exact pure _

/-- What is made of an only operand does not depend on the record. -/
theorem finish (v : Value) : Blind (finish s n v) (finish s.mute n v) := by
  unfold Steps.finish
  split
  · exact waitFor _ v n
  · exact awaiterStep _ v n
  · exact leave _
  · exact leave _
  · exact (store _ v n).bind fun _ ↦ pure v
  · exact unary _ v n
  · exact pure v

/-- What is made of operands does not depend on the record. -/
theorem combine (values : List Value) : Blind (combine s n values) (combine s.mute n values) := by
  unfold Steps.combine
  split
  · exact binary _ _ _ n
  · exact invoke _ _ n
  · exact pure _

end Blind

/-! ### Steps -/

/-- A move without its record. -/
def Move.forget (m : Move) : Move :=
  { m with frame := m.frame.forget }

/-- A configuration without its record. -/
def Configuration.forget (c : Configuration) : Configuration :=
  { c with frame := c.frame.forget }

/-- A blind computation gives the same whether or not the record is kept. -/
theorem Blind.perform {x x' : Eval Value} (h : Blind x x') (σ : Frame) :
    perform x' σ.forget = (perform x σ).forget := by
  rw [Steps.perform, h σ]
  rfl

section Moves

variable (n : Node) (σ : Frame)

/-- The next statement is the same without a record. -/
theorem forget_nextStatement (rest : List Node) (seek : Option SymbolId) (last : Value) :
    nextStatement n rest seek last σ.forget = (nextStatement n rest seek last σ).forget := by
  cases rest <;> rfl

/-- The next operand is the same without a record. -/
theorem forget_nextOperand (done : List Value) (rest : List (Node × Option SymbolId)) :
    nextOperand s.mute n done rest σ.forget = (nextOperand s n done rest σ).forget := by
  cases rest with
  | nil => exact (Blind.combine n done).perform σ
  | cons => rfl

/-- The finally body is entered alike without a record. -/
theorem forget_runCleanup (r : Outcome) :
    runCleanup n r σ.forget = (runCleanup n r σ).forget := by
  unfold runCleanup
  split <;> rfl

/-- The parts of a region are entered alike without a record. -/
theorem forget_runParts (r : Outcome) : runParts n r σ.forget = (runParts n r σ).forget := by
  unfold runParts
  split
  · rfl
  · exact forget_runCleanup n σ _

/-- The variable of a clause is bound alike without a record. -/
theorem forget_bindClause (c : Clause Node) (ex : Value) :
    bindClause s.mute c ex σ.forget = (bindClause s c ex σ).forget := by
  unfold bindClause
  split
  · rw [bound, bound, forget_noted]
    change (if σ.persisted.contains _ then _ else _) = _
    split <;> rfl
  · rfl

/-- The clauses of a region are tried alike without a record. -/
theorem forget_tryClauses (ex : Value) (cs : List (Clause Node)) :
    tryClauses s.mute n ex cs σ.forget = (tryClauses s n ex cs σ).forget := by
  cases cs with
  | nil => exact forget_runParts n σ _
  | cons c cs =>
    rw [tryClauses, tryClauses, forget_bindClause]
    split <;> rfl

/-- An arm is entered alike without a record. -/
theorem forget_enterArm (arm : Except FaultCause (Option Node)) :
    enterArm n arm σ.forget = (enterArm n arm σ).forget := by
  unfold enterArm
  split <;> rfl

/-- Entering a node. -/
theorem forget_enterNode (seek : Option SymbolId) :
    enterNode s.mute n seek σ.forget = (enterNode s n seek σ).forget := by
  rw [enterNode, enterNode, forget_noted]
  generalize noted s (.visit n.id seek) σ = σ
  have operands (os : List Node) :
      firstOperand s.mute n os seek σ.forget = (firstOperand s n os seek σ).forget := by
    have same : Evaluator.soughtOperand? s.mute os seek = Evaluator.soughtOperand? s os seek := rfl
    rw [firstOperand, firstOperand, same]
    cases Evaluator.soughtOperand? s os seek with
    | error cause => rfl
    | ok entered => exact forget_nextOperand n σ _ _
  have arms (test : Node) (others : List Node) :
      testOrArm s.mute n test others seek σ.forget = (testOrArm s n test others seek σ).forget := by
    have same : Evaluator.soughtArm? s.mute test others seek =
        Evaluator.soughtArm? s test others seek := rfl
    rw [testOrArm, testOrArm, same]
    cases Evaluator.soughtArm? s test others seek <;> rfl
  -- The cases are those of `startNode`, in its order.
  unfold startNode
  split
  · exact forget_nextStatement n { σ with locals := _ } _ _ _
  · change (if s.waits then _ else _) = _
    split <;> rfl
  · rfl
  · split <;> rfl
  · split
    · rfl
    · split
      · rfl
      · split <;> rfl
  · exact arms _ _
  · exact arms _ _
  · split <;> rfl
  · rfl
  · rfl
  · rfl
  · exact operands _
  · rfl
  · exact operands _
  · exact (Blind.leaf n).perform σ

/-- Leaving to a task. -/
theorem forget_leaveTo (t : Task) (r : Outcome) :
    leaveTo s.mute t r σ.forget = (leaveTo s t r σ).forget := by
  -- The cases are those of `leaveTo`, in its order.
  unfold leaveTo
  split
  · exact forget_nextStatement _ _ _ _ _
  · rename_i label _
    have same : Evaluator.fromLabel s.mute label (statementsOf t.node) =
        Evaluator.fromLabel s label (statementsOf t.node) := rfl
    rw [jumpInBlock, jumpInBlock, same]
    cases Evaluator.fromLabel s label (statementsOf t.node) <;> rfl
  · rfl
  · unfold nextRound
    split <;> rfl
  · unfold jumpInLoop
    split
    · split
      · rfl
      · split
        · rfl
        · change (if s.labels _ _ then _ else _) = _
          split <;> rfl
    · rfl
  · rfl
  · exact (Blind.finish _ _).perform σ
  · rfl
  · exact forget_nextOperand _ σ _ _
  · rfl
  · exact forget_enterArm _ _ _
  · rfl
  · rfl
  · unfold lockBody
    split <;> rfl
  · rfl
  · exact forget_tryClauses _ σ _ _
  · exact forget_runParts _ _ _
  · split
    · rfl
    · exact forget_tryClauses _ σ _ _
  · exact forget_tryClauses _ σ _ _
  · rfl
  · exact forget_runParts _ { σ with handling := _ } _
  · exact forget_runCleanup _ _ _
  · rfl
  · rfl
  · rfl

/-- One step. -/
theorem forget_next (c : Configuration) : next s.mute c.forget = (next s c).forget := by
  obtain ⟨control, tasks, σ⟩ := c
  cases control with
  | enter n seek =>
    change (enterNode s.mute n seek σ.forget).on tasks = _
    rw [forget_enterNode]
    rfl
  | leave r =>
    cases tasks with
    | nil => rfl
    | cons t tasks =>
      change (leaveTo s.mute t r σ.forget).on tasks = _
      rw [forget_leaveTo]
      rfl

end Moves

/-- What a run comes by without a record. -/
theorem run_forget (k : Nat) (c : Configuration) :
    (system s.mute).run k c.forget = ((system s).run k c).forget := by
  induction k with
  | zero => rfl
  | succ k ih =>
    rw [run_add, run_add, ih, run_one, run_one]
    exact forget_next _

/-- A run without a record comes to the same result, without the record. -/
theorem result_forget (c : Configuration) :
    c.forget.result? = c.result?.map fun x ↦ (x.1, x.2.forget) := by
  obtain ⟨control, tasks, σ⟩ := c
  cases control <;> cases tasks <;> rfl

/-- A run comes to the same result with and without a record. -/
theorem ends_forget {n : Node} {seek : Option SymbolId} {σ σ' : Frame} {r : Outcome}
    (h : (system s).Ends (start n seek σ) (r, σ')) :
    (system s.mute).Ends (start n seek σ.forget) (r, σ'.forget) := by
  obtain ⟨_, ⟨k, rfl⟩, result⟩ := h
  replace result : Configuration.result? ((system s).run k (start n seek σ)) = some (r, σ') :=
    result
  refine ⟨_, ⟨k, rfl⟩, ?_⟩
  show Configuration.result? ((system s.mute).run k (start n seek σ).forget) = _
  rw [run_forget, result_forget, result]
  rfl

/-- A run that comes to a result without a record comes to one with a record. -/
theorem ends_of_forget {n : Node} {seek : Option SymbolId} {σ : Frame} {x : Outcome × Frame}
    (h : (system s.mute).Ends (start n seek σ.forget) x) :
    ∃ σ', (system s).Ends (start n seek σ) (x.1, σ') ∧ σ'.forget = x.2 := by
  obtain ⟨_, ⟨k, rfl⟩, result⟩ := h
  replace result : Configuration.result? ((system s.mute).run k (start n seek σ).forget) =
    some x := result
  rw [run_forget, result_forget] at result
  obtain ⟨⟨r, σ'⟩, recorded, rfl⟩ := Option.map_eq_some_iff.1 result
  exact ⟨σ', ⟨_, ⟨k, rfl⟩, recorded⟩, rfl⟩

end Steps

end Suspension
