import Mathlib.Data.Nat.Init
import Suspension.Proofs.Steps.Basic

/-!
# What is recorded stays recorded

A step puts moments before those of the frame and lines behind those that the host has traced, and
takes none back. So what a run has recorded by some time is the end of all that it records, and what
it has traced by some time is the start of all that it traces.
-/

namespace Suspension

/-- What is recorded in a frame is still recorded in a later one. -/
structure Frame.KeptBy (σ σ' : Frame) : Prop where
  moments : σ.moments <:+ σ'.moments
  trace : σ.host.trace.toList <+: σ'.host.trace.toList

namespace Frame.KeptBy

variable {σ σ' σ'' : Frame}

/-- A frame with the same record and the same log keeps both. -/
theorem of_eq (moments : σ'.moments = σ.moments) (trace : σ'.host.trace = σ.host.trace) :
    σ.KeptBy σ' :=
  ⟨moments ▸ List.suffix_refl _, trace ▸ List.prefix_refl _⟩

theorem refl (σ : Frame) : σ.KeptBy σ :=
  of_eq rfl rfl

/-- Records and logs are kept by one step after another. -/
theorem trans (h : σ.KeptBy σ') (h' : σ'.KeptBy σ'') : σ.KeptBy σ'' :=
  ⟨h.moments.trans h'.moments, h.trace.trans h'.trace⟩

/-- What keeps a frame keeps every frame with the same record and the same log. -/
theorem after (h : σ'.KeptBy σ'') (moments : σ'.moments = σ.moments)
    (trace : σ'.host.trace = σ.host.trace) : σ.KeptBy σ'' :=
  (of_eq moments trace).trans h

end Frame.KeptBy

/-- An operation of the host takes back no line. -/
theorem Host.trace_call (h : Host) (name : String) (args : List Value) :
    h.trace.toList <+: (h.call name args).2.trace.toList := by
  unfold Host.call
  split
  · rw [answer, traceLine, Array.toList_push]
    exact List.prefix_append _ _
  · exact List.prefix_refl _
  · exact List.prefix_refl _
  · exact List.prefix_refl _
  · exact List.prefix_refl _
  · exact List.prefix_refl _
  · exact List.prefix_refl _
  · split <;> exact List.prefix_refl _
  · exact List.prefix_refl _

namespace Steps

open Eval

/-- A computation that takes back nothing of what is recorded. -/
def Keeps {α : Type} (x : Eval α) : Prop :=
  ∀ σ : Frame, σ.KeptBy (x σ).2

namespace Keeps

variable {α β : Type} {x : Eval α}

/-- A computation that touches neither the record nor the log keeps them. -/
theorem of_eq (moments : ∀ σ, (x σ).2.moments = σ.moments)
    (trace : ∀ σ, (x σ).2.host.trace = σ.host.trace) : Keeps x :=
  fun σ ↦ .of_eq (moments σ) (trace σ)

/-- A sequence of computations keeps what each of them keeps. -/
theorem bind {k : α → Eval β} (h : Keeps x) (h' : ∀ a, Keeps (k a)) : Keeps (x >>= k) := by
  intro σ
  have first := h σ
  rw [bind_apply]
  generalize x σ = made at first ⊢
  obtain ⟨e | a, σ₁⟩ := made
  · exact first
  · exact first.trans (h' a σ₁)

theorem pure (a : α) : Keeps (pure a : Eval α) :=
  of_eq (fun _ ↦ rfl) fun _ ↦ rfl

theorem throw (e : Exit) : Keeps (throw e : Eval α) :=
  of_eq (fun _ ↦ rfl) fun _ ↦ rfl

theorem fault (cause : FaultCause) (n : Node) : Keeps (fault cause n : Eval α) :=
  throw _

theorem get : Keeps (get : Eval Frame) :=
  of_eq (fun _ ↦ rfl) fun _ ↦ rfl

/-- Recording an event adds to the record. -/
theorem note (s : Setting) (e : Event) : Keeps (note s e) := by
  intro σ
  rw [note_apply, noted]
  split
  · exact ⟨List.suffix_cons _ _, List.prefix_refl _⟩
  · exact .refl σ

/-- A change of the frame keeps record and log if it leaves them alone. -/
theorem modify {f : Frame → Frame} (moments : ∀ σ, (f σ).moments = σ.moments)
    (trace : ∀ σ, (f σ).host.trace = σ.host.trace) : Keeps (modify f : Eval Unit) :=
  of_eq moments trace

theorem leave (s : Setting) (e : Exit) : Keeps (leave s e : Eval α) :=
  (note s _).bind fun _ ↦ throw e

theorem load (v : Variable) (n : Node) : Keeps (load v n) := by
  refine get.bind fun σ ↦ ?_
  split
  · exact pure _
  · split
    · exact pure _
    · exact fault _ n

/-- An assignment adds to the record. -/
theorem store (s : Setting) (v : Variable) (value : Value) (n : Node) :
    Keeps (store s v value n) := by
  refine get.bind fun σ ↦ ?_
  split
  · exact (note s _).bind fun _ ↦ modify (fun _ ↦ rfl) fun _ ↦ rfl
  · split
    · exact (note s _).bind fun _ ↦ modify (fun _ ↦ rfl) fun _ ↦ rfl
    · exact fault _ n

/-- Handing over an awaiter adds to the record. -/
theorem handOver (s : Setting) (awaiter : Value) : Keeps (handOver s awaiter) :=
  (note s _).bind fun _ ↦ modify (fun _ ↦ rfl) fun _ ↦ rfl

/-- A call of the host adds to the record and to the log. -/
theorem callHost (s : Setting) (name : String) (args : List Value) (n : Node) :
    Keeps (callHost s name args n) := by
  refine bind (fun σ ↦ ⟨List.suffix_refl _, σ.host.trace_call name args⟩) fun answer ↦ ?_
  cases answer with
  | unknown => exact fault _ n
  | value v => exact (note s _).bind fun _ ↦ pure v
  | raised ex => exact (note s _).bind fun _ ↦ throw _

theorem cell (v : Value) (n : Node) : Keeps (cell v n) := by
  intro σ
  rw [cell_apply]
  split
  · exact .refl _
  · exact fault _ n σ

theorem result (f : Future) (n : Node) : Keeps (result f n) := by
  unfold Eval.result
  split
  · exact pure _
  · exact throw _
  · exact fault _ n

/-- Operators on two values keep record and log. -/
theorem binary (op : BinaryOp) (l r : Value) (n : Node) : Keeps (binary op l r n) := by
  unfold Eval.binary
  split
  · exact pure _
  · exact throw _
  · exact fault _ n

/-- Operators on one value keep record and log. -/
theorem unary (op : UnaryOp) (v : Value) (n : Node) : Keeps (unary op v n) := by
  unfold Eval.unary
  split
  · split
    · exact throw _
    · exact pure _
  · exact fault _ n
  · split
    · exact pure _
    · exact fault _ n

/-- Operations keep record and log, but for what they add. -/
theorem invoke (s : Setting) (callee : String) (args : List Value) (n : Node) :
    Keeps (Evaluator.invoke s callee args n) := by
  unfold Evaluator.invoke
  split
  · cases args with
    | nil => exact pure _
    | cons awaiter => exact (handOver s awaiter).bind fun _ ↦ pure _
  · exact callHost s callee args n

/-- Waiting keeps record and log, but for what it adds. -/
theorem waitFor (s : Setting) (acquire : Option String) (v : Value) (n : Node) :
    Keeps (Evaluator.waitFor s acquire v n) := by
  have waits (awaiter : Value) : Keeps (Evaluator.waitFor s none awaiter n) :=
    (cell awaiter n).bind fun _ ↦ bind (of_eq (fun _ ↦ rfl) fun _ ↦ rfl) fun f ↦ result f n
  cases acquire with
  | none => exact waits v
  | some name => exact (invoke s name [v] n).bind waits

/-- Steps of the awaiter protocol keep record and log, but for what they add. -/
theorem awaiterStep (step : AwaitStep) (v : Value) (n : Node) :
    Keeps (Evaluator.awaiterStep step v n) := by
  refine (cell v n).bind fun c ↦ ?_
  cases step with
  | acquire => exact pure v
  | isCompleted => exact pure _
  | getResult => exact result _ n

/-- A bare rethrow keeps record and log, but for what it adds. -/
theorem rethrow (s : Setting) (n : Node) : Keeps (Evaluator.rethrow s n) := by
  refine get.bind fun σ ↦ ?_
  split
  · exact leave s _
  · exact fault _ n

variable (s : Setting) (n : Node)

/-- Nodes without children keep record and log. -/
theorem leaf : Keeps (leaf s n) := by
  unfold Steps.leaf
  split
  · exact pure _
  · exact leave s _
  · exact leave s _
  · exact rethrow s n
  · exact load _ n
  · exact pure _
  · exact pure _
  · exact pure _

/-- What is made of an only operand keeps record and log, but for what it adds. -/
theorem finish (v : Value) : Keeps (finish s n v) := by
  unfold Steps.finish
  split
  · exact waitFor s _ v n
  · exact awaiterStep _ v n
  · exact leave s _
  · exact leave s _
  · exact (store s _ v n).bind fun _ ↦ pure v
  · exact unary _ v n
  · exact pure v

/-- What is made of operands keeps record and log, but for what it adds. -/
theorem combine (values : List Value) : Keeps (combine s n values) := by
  unfold Steps.combine
  split
  · exact binary _ _ _ n
  · exact invoke s _ _ n
  · exact pure _

end Keeps

/-! ### Steps -/

section Moves

variable (s : Setting) (n : Node) (σ : Frame)

/-- Going on to the next statement keeps record and log. -/
theorem kept_nextStatement (rest : List Node) (seek : Option SymbolId) (last : Value) :
    σ.KeptBy (nextStatement n rest seek last σ).frame := by
  cases rest <;> exact .of_eq rfl rfl

/-- Going on to the next operand keeps record and log. -/
theorem kept_nextOperand (done : List Value) (rest : List (Node × Option SymbolId)) :
    σ.KeptBy (nextOperand s n done rest σ).frame := by
  cases rest with
  | nil => exact Keeps.combine s n done σ
  | cons => exact .of_eq rfl rfl

/-- Going on to the finally body keeps record and log. -/
theorem kept_runCleanup (r : Outcome) : σ.KeptBy (runCleanup n r σ).frame := by
  unfold runCleanup
  split <;> exact .of_eq rfl rfl

/-- Going on to the parts of a region keeps record and log. -/
theorem kept_runParts (r : Outcome) : σ.KeptBy (runParts n r σ).frame := by
  unfold runParts
  split
  · exact .of_eq rfl rfl
  · exact kept_runCleanup n σ _

/-- Binding the variable of a clause keeps record and log, but for what it adds. -/
theorem kept_bindClause (c : Clause Node) (ex : Value) :
    σ.KeptBy (bindClause s c ex σ) := by
  unfold bindClause
  split
  · rename_i v _
    have kept := Keeps.note s (.bind v ex) σ
    rw [note_apply] at kept
    rw [bound]
    split <;> exact ⟨kept.moments, kept.trace⟩
  · exact .of_eq rfl rfl

/-- Trying clauses keeps record and log, but for what it adds. -/
theorem kept_tryClauses (ex : Value) (cs : List (Clause Node)) :
    σ.KeptBy (tryClauses s n ex cs σ).frame := by
  cases cs with
  | nil => exact kept_runParts n σ _
  | cons c cs =>
    rw [tryClauses]
    split
    · exact (kept_bindClause s σ c ex).trans (.of_eq rfl rfl)
    · exact kept_bindClause s σ c ex

/-- Entering an arm keeps record and log. -/
theorem kept_enterArm (arm : Except FaultCause (Option Node)) :
    σ.KeptBy (enterArm n arm σ).frame := by
  unfold enterArm
  split <;> exact .of_eq rfl rfl

/-- Entering a node whose visit is noted. -/
theorem kept_startNode (seek : Option SymbolId) :
    σ.KeptBy (startNode s n seek σ).frame := by
  have operands (os : List Node) : σ.KeptBy (firstOperand s n os seek σ).frame := by
    unfold firstOperand
    split
    · exact .of_eq rfl rfl
    · exact kept_nextOperand s n σ _ _
  have arms (test : Node) (others : List Node) :
      σ.KeptBy (testOrArm s n test others seek σ).frame := by
    unfold testOrArm
    split <;> exact .of_eq rfl rfl
  unfold startNode
  split
  · exact (kept_nextStatement _ _ _ _ _).after rfl rfl
  · split <;> exact .of_eq rfl rfl
  · exact .of_eq rfl rfl
  · split <;> exact .of_eq rfl rfl
  · split
    · exact .of_eq rfl rfl
    · split
      · exact .of_eq rfl rfl
      · split <;> exact .of_eq rfl rfl
  · exact arms _ _
  · exact arms _ _
  · split <;> exact .of_eq rfl rfl
  · exact .of_eq rfl rfl
  · exact .of_eq rfl rfl
  · exact .of_eq rfl rfl
  · exact operands _
  · exact .of_eq rfl rfl
  · exact operands _
  · exact Keeps.leaf s n σ

/-- Entering a node. -/
theorem kept_enterNode (seek : Option SymbolId) :
    σ.KeptBy (enterNode s n seek σ).frame := by
  have visited := Keeps.note s (.visit n.id seek) σ
  rw [note_apply] at visited
  exact visited.trans (kept_startNode s n _ seek)

/-- Leaving to a task. -/
theorem kept_leaveTo (t : Task) (r : Outcome) :
    σ.KeptBy (leaveTo s t r σ).frame := by
  -- The cases are those of `leaveTo`, in its order.
  unfold leaveTo
  split
  · exact kept_nextStatement _ _ _ _ _
  · unfold jumpInBlock
    split <;> exact .of_eq rfl rfl
  · exact .of_eq rfl rfl
  · unfold nextRound
    split <;> exact .of_eq rfl rfl
  · unfold jumpInLoop
    split
    · split
      · exact .of_eq rfl rfl
      · split
        · exact .of_eq rfl rfl
        · split <;> exact .of_eq rfl rfl
    · exact .of_eq rfl rfl
  · exact .of_eq rfl rfl
  · exact Keeps.finish s _ _ σ
  · exact .of_eq rfl rfl
  · exact kept_nextOperand s _ σ _ _
  · exact .of_eq rfl rfl
  · exact kept_enterArm _ _ _
  · exact .of_eq rfl rfl
  · exact .of_eq rfl rfl
  · unfold lockBody
    split <;> exact .of_eq rfl rfl
  · exact .of_eq rfl rfl
  · exact kept_tryClauses s _ σ _ _
  · exact kept_runParts _ _ _
  · split
    · exact .of_eq rfl rfl
    · exact kept_tryClauses s _ σ _ _
  · exact kept_tryClauses s _ σ _ _
  · exact .of_eq rfl rfl
  · exact (kept_runParts _ _ _).after rfl rfl
  · exact kept_runCleanup _ _ _
  · exact .of_eq rfl rfl
  · exact .of_eq rfl rfl
  · exact .of_eq rfl rfl

/-- One step. -/
theorem kept_next (c : Configuration) :
    c.frame.KeptBy (next s c).frame := by
  obtain ⟨control, tasks, σ⟩ := c
  cases control with
  | enter n seek => exact kept_enterNode s n σ seek
  | leave r =>
    cases tasks with
    | nil => exact .of_eq rfl rfl
    | cons t tasks => exact kept_leaveTo s σ t r

/-- Any number of steps. -/
theorem kept_run {k m : Nat} (le : k ≤ m) (c : Configuration) :
    ((system s).run k c).frame.KeptBy ((system s).run m c).frame := by
  induction m, le using Nat.le_induction with
  | base => exact .refl _
  | succ m le ih => exact ih.trans ((system s).run_add m 1 c ▸ kept_next s _)

/-- **Whatever the machine does, it keeps what was recorded and traced before.** -/
theorem kept_of_reaches {c d : Configuration} (reach : (system s).Reaches c d) :
    c.frame.KeptBy d.frame := by
  obtain ⟨k, rfl⟩ := reach
  exact kept_run s (Nat.zero_le k) c

/-- What is recorded after some steps is the end of what is recorded after more of them. -/
theorem moments_run {k m : Nat} (le : k ≤ m) (c : Configuration) :
    ((system s).run k c).frame.moments <:+ ((system s).run m c).frame.moments :=
  (kept_run s le c).moments

end Moves

end Steps

end Suspension
