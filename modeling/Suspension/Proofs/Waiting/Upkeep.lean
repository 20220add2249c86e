import Suspension.Proofs.Suspending.Running

/-!
# What the stack says of the frame

A block on the stack has declared its variables, and no variable of a run is ever taken back. A
clause whose body runs has put its exception on those that are handled, and takes it off when it is
left. So what stands on the stack tells which variables have slots and how many exceptions are being
handled (`Configuration.Upkept`), whatever the run has done.
-/

namespace Suspension

/-- A later frame has slots for the variables of the run that had some, and the same exceptions are
being handled. -/
structure Frame.WidensTo (σ σ' : Frame) : Prop where
  locals : ∀ id, σ.locals.contains id = true → σ'.locals.contains id = true
  handling : σ'.handling = σ.handling

namespace Frame.WidensTo

variable {σ σ' σ'' : Frame}

/-- A frame widens to one with the same variables and the same exceptions being handled. -/
theorem of_eq (locals : σ'.locals = σ.locals) (handling : σ'.handling = σ.handling) :
    σ.WidensTo σ' :=
  ⟨fun _ slot ↦ locals ▸ slot, handling⟩

theorem refl (σ : Frame) : σ.WidensTo σ :=
  of_eq rfl rfl

/-- Frames widen step by step. -/
theorem trans (h : σ.WidensTo σ') (h' : σ'.WidensTo σ'') : σ.WidensTo σ'' :=
  ⟨fun id slot ↦ h'.locals id (h.locals id slot), h'.handling.trans h.handling⟩

end Frame.WidensTo

namespace Steps

open Eval TransitionSystem

/-- A computation that takes back no variable and leaves alone which exceptions are handled. -/
def Widens {α : Type} (x : Eval α) : Prop :=
  ∀ σ : Frame, σ.WidensTo (x σ).2

namespace Widens

variable {α β : Type} {x : Eval α}

/-- A frame widens when an event is recorded. -/
theorem noted (s : Setting) (e : Event) (σ : Frame) : σ.WidensTo (noted s e σ) :=
  .of_eq (noted_locals s σ e) (noted_handling s σ e)

/-- Computations widen step by step. -/
theorem bind {k : α → Eval β} (h : Widens x) (h' : ∀ a, Widens (k a)) : Widens (x >>= k) := by
  intro σ
  have first := h σ
  rw [bind_apply]
  generalize x σ = made at first ⊢
  obtain ⟨e | a, σ₁⟩ := made
  · exact first
  · exact first.trans (h' a σ₁)

/-- What leaves frames alone widens them. -/
theorem of_frame (h : ∀ σ, (x σ).2 = σ) : Widens x :=
  fun σ ↦ by rw [h σ]; exact .refl σ

theorem leave (s : Setting) (e : Exit) : Widens (leave s e : Eval α) :=
  fun σ ↦ by rw [leave_apply]; exact noted s _ σ

/-- Assignments widen frames. -/
theorem store (s : Setting) (v : Variable) (value : Value) (n : Node) :
    Widens (store s v value n) := by
  intro σ
  rw [store_apply]
  cases set : assigned? s v value σ with
  | none => exact .refl σ
  | some τ =>
    rw [assigned?] at set
    split at set
    · cases set
      exact ⟨fun id slot ↦ Store.contains_insert_of slot, noted_handling s σ _⟩
    · split at set
      · cases set
        exact .of_eq (noted_locals s σ _) (noted_handling s σ _)
      · cases set

/-- Calls of the host widen frames. -/
theorem callHost (s : Setting) (name : String) (args : List Value) (n : Node) :
    Widens (callHost s name args n) := by
  intro σ
  have called : σ.WidensTo (called name args σ) := .of_eq rfl rfl
  rw [callHost_apply]
  cases (σ.host.call name args).1 with
  | unknown => exact called
  | value v => exact called.trans (noted s _ _)
  | raised ex => exact called.trans (noted s _ _)

theorem invoke (s : Setting) (callee : String) (args : List Value) (n : Node) :
    Widens (Evaluator.invoke s callee args n) := by
  unfold Evaluator.invoke
  split
  · cases args with
    | nil => exact of_frame fun _ ↦ rfl
    | cons awaiter =>
      have handOver : Widens (handOver s awaiter) := fun σ ↦ by
        rw [handOver_apply]
        exact (noted s _ σ).trans (.of_eq rfl rfl)
      exact handOver.bind fun _ ↦ of_frame fun _ ↦ rfl
  · exact callHost s callee args n

theorem waitFor (s : Setting) (acquire : Option String) (v : Value) (n : Node) :
    Widens (Evaluator.waitFor s acquire v n) := by
  have result (f : Future) : Widens (result f n) := of_frame fun σ ↦ by
    rw [Eval.result]
    rcases f.outcome? with _ | _ | _ <;> rfl
  have cell (awaiter : Value) : Widens (cell awaiter n) := of_frame fun σ ↦ by
    rw [cell_apply]
    cases cell? σ.host awaiter <;> rfl
  have waits (awaiter : Value) : Widens (Evaluator.waitFor s none awaiter n) :=
    (cell awaiter).bind fun _ ↦ bind (fun _ ↦ .of_eq rfl rfl) result
  cases acquire with
  | none => exact waits v
  | some name => exact (invoke s name [v] n).bind waits

variable (s : Setting) (n : Node)

/-- Nodes without children widen frames. -/
theorem leaf : Widens (leaf s n) := by
  intro σ
  rcases leaf_frame s n σ with same | ⟨e, same⟩
  · rw [same]
    exact .refl σ
  · rw [same]
    exact noted s _ σ

/-- What is made of an only operand widens frames. -/
theorem finish (v : Value) : Widens (finish s n v) := by
  unfold Steps.finish
  split
  · exact waitFor s _ v n
  · exact of_frame (awaiterStep_frame _ v n)
  · exact leave s _
  · exact leave s _
  · exact (store s _ v n).bind fun _ ↦ of_frame fun _ ↦ rfl
  · exact of_frame (unary_frame _ v n)
  · exact of_frame fun _ ↦ rfl

/-- What is made of operands widens frames. -/
theorem combine (values : List Value) : Widens (combine s n values) := by
  unfold Steps.combine
  split
  · exact of_frame (binary_frame _ _ _ n)
  · exact invoke s _ _ n
  · exact of_frame fun _ ↦ rfl

end Widens

/-! ### Moves -/

/-- Most stages say nothing of the frame: they wait neither for a statement of a block nor for the
body of a clause. -/
def Stage.isQuiet : Stage → Bool
  | .statements _ | .handler _ => false
  | _ => true

/-- Whether a task waits for the body of a clause. -/
def Task.isHandler (t : Task) : Bool :=
  match t.stage with
  | .handler _ => true
  | _ => false

/-- A block that waits for a statement has slots for its variables. -/
def Task.Declared (t : Task) (σ : Frame) : Prop :=
  ∀ rest, t.stage = .statements rest → ∀ v ∈ t.node.shape.declared, σ.locals.contains v.id = true

/-- A move takes back no variable, and its task tells which have slots and whether one more
exception is handled. -/
structure Move.Upholds (σ : Frame) (m : Move) : Prop where
  locals : ∀ id, σ.locals.contains id = true → m.frame.locals.contains id = true
  handling : m.frame.handling.length = σ.handling.length + m.tasks.countP Task.isHandler
  declared : ∀ t ∈ m.tasks, t.Declared m.frame

namespace Move.Upholds

variable {s : Setting} {n c : Node} {seek : Option SymbolId} {σ τ : Frame}

/-- A result upholds what the frame upheld before. -/
theorem give (r : Outcome) (h : σ.WidensTo τ) : (give r τ).Upholds σ :=
  ⟨h.locals, by rw [Steps.give, h.handling]; rfl, List.forall_mem_nil _⟩

/-- A computation that widens frames upholds. -/
theorem perform {x : Eval Value} (h : Widens x) (before : σ.WidensTo τ) :
    (perform x τ).Upholds σ :=
  give _ (before.trans (h τ))

/-- At most stages a child leaves the frame as it is. -/
theorem descend {st : Stage} (quiet : st.isQuiet = true) (h : σ.WidensTo τ) :
    (descend n st c seek τ).Upholds σ where
  locals := h.locals
  handling := by
    have none : Task.isHandler ⟨n, st⟩ = false := by
      cases st with
      | handler clause => cases quiet
      | _ => rfl
    simp [Steps.descend, h.handling, none]
  declared := by
    rintro t member rest waits
    obtain rfl := List.mem_singleton.1 member
    obtain rfl : st = .statements rest := waits
    cases quiet

/-- Going on to the next statement upholds, if the variables of the block have slots. -/
theorem nextStatement {rest : List Node} (last : Value) (h : σ.WidensTo τ)
    (declared : ∀ v ∈ n.shape.declared, τ.locals.contains v.id = true) :
    (nextStatement n rest seek last τ).Upholds σ := by
  cases rest with
  | nil => exact give _ h
  | cons c rest =>
    refine ⟨h.locals, ?_, ?_⟩
    · simp [Steps.nextStatement, Steps.descend, h.handling, Task.isHandler]
    · rintro t member rest' -
      obtain rfl := List.mem_singleton.1 member
      exact declared

/-- Going on to the next operand upholds. -/
theorem nextOperand (done : List Value) (rest : List (Node × Option SymbolId))
    (h : σ.WidensTo τ) : (nextOperand s n done rest τ).Upholds σ := by
  cases rest with
  | nil => exact perform (.combine s n done) h
  | cons => exact descend rfl h

theorem firstOperand (os : List Node) (h : σ.WidensTo τ) :
    (firstOperand s n os seek τ).Upholds σ := by
  unfold Steps.firstOperand
  split
  · exact perform (.of_frame fun _ ↦ rfl) h
  · exact nextOperand _ _ h

/-- Going on to the finally body upholds. -/
theorem runCleanup (r : Outcome) (h : σ.WidensTo τ) : (runCleanup n r τ).Upholds σ := by
  unfold Steps.runCleanup
  split
  · exact give _ h
  · exact descend rfl h
  · exact give _ h

/-- Going on to the parts of a region upholds. -/
theorem runParts (r : Outcome) (h : σ.WidensTo τ) : (runParts n r τ).Upholds σ := by
  unfold Steps.runParts
  split
  · exact descend rfl h
  · exact runCleanup _ h

/-- Binding the variable of a clause widens frames. -/
theorem bindClause (s : Setting) (c : Clause Node) (ex : Value) (σ : Frame) :
    σ.WidensTo (bindClause s c ex σ) := by
  unfold Steps.bindClause
  split
  · rename_i v _
    rw [bound]
    split
    · exact .of_eq (noted_locals s σ _) (noted_handling s σ _)
    · exact ⟨fun id slot ↦ Store.contains_insert_of slot, noted_handling s σ _⟩
  · exact .refl σ

/-- The body of a clause is under way. -/
theorem enterHandler (ex : Value) (clause : Clause Node) (h : σ.WidensTo τ) :
    (enterHandler n ex clause τ).Upholds σ where
  locals := h.locals
  handling := by simp [Steps.enterHandler, Steps.descend, h.handling, Task.isHandler]
  declared := by
    rintro t member rest waits
    obtain rfl := List.mem_singleton.1 member
    cases waits

/-- Trying clauses upholds. -/
theorem tryClauses (ex : Value) (cs : List (Clause Node)) :
    (tryClauses s n ex cs σ).Upholds σ := by
  cases cs with
  | nil => exact runParts _ (.refl σ)
  | cons c cs =>
    have bound := bindClause s c ex σ
    rw [Steps.tryClauses]
    split
    · exact enterHandler ex c bound
    · exact descend rfl bound

/-- Entering an arm upholds. -/
theorem enterArm (arm : Except FaultCause (Option Node)) : (enterArm n arm σ).Upholds σ := by
  unfold Steps.enterArm
  split
  · exact perform (.of_frame fun _ ↦ rfl) (.refl σ)
  · exact give _ (.refl σ)
  · exact descend rfl (.refl σ)

/-- Entering a node. -/
theorem enterNode (s : Setting) (n : Node) (seek : Option SymbolId) (σ : Frame) :
    (enterNode s n seek σ).Upholds σ := by
  have visited := Widens.noted s (.visit n.id seek) σ
  rw [Steps.enterNode]
  generalize noted s (.visit n.id seek) σ = τ at visited
  have plain {st : Stage} {c : Node} {seek : Option SymbolId} (quiet : st.isQuiet = true) :
      (Steps.descend n st c seek τ).Upholds σ := descend quiet visited
  have fault {cause : FaultCause} : (Steps.perform (Eval.fault cause n) τ).Upholds σ :=
    perform (.of_frame fun _ ↦ rfl) visited
  have arms (test : Node) (others : List Node) :
      (testOrArm s n test others seek τ).Upholds σ := by
    unfold testOrArm
    split <;> exact plain rfl
  -- The cases are those of `startNode`, in its order.
  unfold startNode
  split
  · rename_i declared body shape
    refine nextStatement _ ⟨fun id slot ↦ ?_, visited.handling⟩ fun v member ↦ ?_
    · exact Store.contains_declare (.inr (visited.locals id slot))
    · rw [shape] at member
      exact Store.contains_declare (.inl (List.mem_map_of_mem member))
  · split
    · exact plain rfl
    · exact fault
  · exact plain rfl
  · split
    · exact fault
    · exact plain rfl
  · split
    · exact plain rfl
    · split
      · exact give _ visited
      · split <;> exact plain rfl
  · exact arms _ _
  · exact arms _ _
  · split
    · exact fault
    · exact plain rfl
  · exact plain rfl
  · exact plain rfl
  · exact plain rfl
  · exact firstOperand _ visited
  · exact plain rfl
  · exact firstOperand _ visited
  · exact perform (.leaf s n) visited

/-- Leaving to a task, other than the body of a clause. -/
theorem leaveTo {t : Task} (s : Setting) (r : Outcome) (declared : t.Declared σ)
    (calm : t.isHandler = false) : (leaveTo s t r σ).Upholds σ := by
  obtain ⟨n, st⟩ := t
  have same := Frame.WidensTo.refl σ
  have given (r : Outcome) : (Steps.give r σ).Upholds σ := give r same
  have plain {st : Stage} {c : Node} {seek : Option SymbolId} (quiet : st.isQuiet = true) :
      (Steps.descend n st c seek σ).Upholds σ := descend quiet same
  -- The cases are those of `leaveTo`, in its order.
  unfold Steps.leaveTo
  split
  · exact nextStatement _ same (declared _ ‹_›)
  · rename_i stage
    unfold jumpInBlock
    split
    · exact given _
    · exact @nextStatement _ _ _ _ (_ :: _) .unit same (declared _ stage)
  · exact given _
  · unfold nextRound
    split
    · exact plain rfl
    · exact given _
  · unfold jumpInLoop
    split
    · split
      · exact given _
      · split
        · exact plain rfl
        · split
          · exact plain rfl
          · exact given _
    · exact given _
  · exact given _
  · exact perform (.finish s n _) same
  · exact given _
  · exact nextOperand _ _ same
  · exact given _
  · exact enterArm _
  · exact given _
  · exact given _
  · unfold lockBody
    split
    · exact plain rfl
    · exact given _
  · exact given _
  · exact tryClauses _ _
  · exact runParts _ same
  · split
    · exact enterHandler _ _ same
    · exact tryClauses _ _
  · exact tryClauses _ _
  · exact given _
  · rename_i stage
    obtain rfl := stage
    cases calm
  · exact runCleanup _ same
  · exact given _
  · exact given _
  · exact given _

end Move.Upholds

/-! ### Runs -/

/-- Blocks on the stack have slots for their variables, and as many exceptions are handled as there
are bodies of clauses under way. -/
structure Configuration.Upkept (c : Configuration) : Prop where
  declared : ∀ t ∈ c.tasks, t.Declared c.frame
  handling : c.frame.handling.length = c.tasks.countP Task.isHandler

/-- What a move upholds is kept up above the tasks that were there. -/
theorem Move.Upholds.on {m : Move} {σ : Frame} {K : List Task} (h : m.Upholds σ)
    (declared : ∀ t ∈ K, t.Declared σ) (handling : σ.handling.length = K.countP Task.isHandler) :
    (m.on K).Upkept where
  declared := List.forall_mem_append.2 ⟨h.declared, fun t member rest waits v inside ↦
    h.locals _ (declared t member rest waits v inside)⟩
  handling := by
    rw [Move.on, List.countP_append, h.handling, handling, Nat.add_comm]

/-- A step keeps up what was kept up. -/
theorem Configuration.Upkept.next {s : Setting} {c : Configuration} (h : c.Upkept) :
    (next s c).Upkept := by
  obtain ⟨control, tasks, σ⟩ := c
  cases control with
  | enter n seek => exact (Move.Upholds.enterNode s n seek σ).on h.declared h.handling
  | leave r =>
    cases tasks with
    | nil => exact h
    | cons t K =>
      have below : ∀ t ∈ K, t.Declared σ :=
        fun t member ↦ h.declared t (List.mem_cons_of_mem _ member)
      have counted : σ.handling.length = (t :: K).countP Task.isHandler := h.handling
      by_cases handler : t.isHandler = true
      · obtain ⟨n, st⟩ := t
        cases st with
        | handler clause =>
          -- The exception that was handled is taken off.
          have parts : Move.Upholds { σ with handling := σ.handling.tail }
              (leaveTo s ⟨n, .handler clause⟩ r σ) := by
            simp only [leaveTo]
            exact .runParts r (.refl _)
          refine parts.on below ?_
          rw [List.countP_cons_of_pos handler] at counted
          simp [counted]
        | _ => cases handler
      · have calm := Bool.eq_false_iff.2 handler
        refine (Move.Upholds.leaveTo s r (h.declared t List.mem_cons_self) calm).on below ?_
        rw [counted, List.countP_cons_of_neg (by simp [calm])]

/-- What the stack says of the frame is so in every run. -/
theorem Configuration.Upkept.of_reaches {s : Setting} {c d : Configuration} (h : c.Upkept)
    (reach : (system s).Reaches c d) : d.Upkept := by
  obtain ⟨k, rfl⟩ := reach
  induction k with
  | zero => exact h
  | succ k ih =>
    rw [run_add]
    exact ih.next

/-- A run starts with nothing on the stack and nothing handled. -/
theorem Configuration.Upkept.start (root : Node) (seek : Option SymbolId) (store : Store)
    (host : Host) : (start root seek { persisted := store, host }).Upkept :=
  ⟨List.forall_mem_nil _, rfl⟩

end Steps

end Suspension
