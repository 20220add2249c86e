import Suspension.Evaluation.Evaluator

/-!
# What primitive evaluations do

An evaluation without children is a function of the frame. The equations here say which function,
for everything that `eval` uses besides itself, so that what is proved about evaluations never opens
the monad they are written in. `noted`, `bound` and `assigned?` are the changes of a frame that they
come down to.
-/

namespace Suspension

/-- How the evaluation of a node ends. -/
abbrev Outcome := Except Exit Value

namespace Eval

variable {α β : Type} (s : Setting) (σ : Frame)

/-! ### Plumbing -/

/-- What comes after an exit is not evaluated. -/
theorem bind_apply (x : Eval α) (k : α → Eval β) :
    (x >>= k) σ = match x σ with
      | (.ok a, σ) => k a σ
      | (.error e, σ) => (.error e, σ) := by
  change ExceptT.bindCont (m := StateM Frame) k (x σ).1 (x σ).2 = _
  rcases x σ with ⟨e | a, σ'⟩ <;> rfl

/-- A value changes nothing. -/
theorem pure_apply (a : α) : (pure a : Eval α) σ = (.ok a, σ) := rfl

/-- An exit changes nothing. -/
theorem throw_apply (e : Exit) : (throw e : Eval α) σ = (.error e, σ) := rfl

theorem modify_apply (f : Frame → Frame) : (modify f : Eval Unit) σ = (.ok (), f σ) := rfl

theorem get_apply : (get : Eval Frame) σ = (.ok σ, σ) := rfl

theorem fault_apply (cause : FaultCause) (n : Node) :
    (fault cause n : Eval α) σ = (.error (.stop (.fault ⟨cause, some n.id⟩)), σ) := rfl

/-- Concluding with a result changes nothing. -/
theorem conclude_apply (r : Except Exit α) : conclude r σ = (r, σ) := by
  cases r <;> rfl

/-- An attempt has what it came to as its value, also if that is an exit. -/
theorem attempt_apply (x : Eval α) : attempt x σ = (.ok (x σ).1, (x σ).2) := rfl

/-- Discarding a value keeps the exits and what was done. -/
theorem discard_apply (x : Eval α) :
    (discard x : Eval Unit) σ = ((x σ).1.map fun _ ↦ (), (x σ).2) := by
  change ExceptT.bindCont (m := StateM Frame) (fun _ ↦ (pure () : Eval Unit)) (x σ).1 (x σ).2 = _
  rcases x σ with ⟨e | v, σ'⟩ <;> rfl

/-! ### Events and variables -/

/-- A frame in which an event is noted, if events are recorded. -/
def noted (e : Event) (σ : Frame) : Frame :=
  if s.records then { σ with moments := ⟨e, σ.persisted, σ.locals⟩ :: σ.moments } else σ

/-- Recording an event never fails. -/
theorem note_apply (e : Event) : note s e σ = (.ok (), noted s e σ) := by
  rw [note, noted]
  split <;> rfl

/-- An exit is recorded when it is taken. -/
theorem leave_apply (e : Exit) : (leave s e : Eval α) σ = (.error e, noted s (.exit e) σ) := by
  rw [leave, bind_apply, note_apply]
  rfl

/-- The value of a variable: that of the run, or else the one that outlives it. -/
def lookup (σ : Frame) (id : SymbolId) : Option Value :=
  match σ.locals.get? id with
  | some value => some value
  | none => σ.persisted.get? id

/-- A variable is read, or there is a fault at the node that reads it. -/
theorem load_apply (v : Variable) (n : Node) :
    load v n σ = match lookup σ v.id with
      | some value => (.ok value, σ)
      | none => fault (.unbound v) n σ := by
  rw [load, bind_apply, get_apply, lookup]
  dsimp only
  cases σ.locals.get? v.id with
  | some value => rfl
  | none => cases σ.persisted.get? v.id <;> rfl

/-- A frame in which a variable that has a value is given a new one. -/
def assigned? (v : Variable) (value : Value) (σ : Frame) : Option Frame :=
  if σ.locals.contains v.id then
    some { noted s (.store v value) σ with locals := σ.locals.insert v.id value }
  else if σ.persisted.contains v.id then
    some { noted s (.store v value) σ with persisted := σ.persisted.insert v.id value }
  else none

/-- Recording an event leaves the variables of the run alone. -/
@[simp] theorem noted_locals (e : Event) : (noted s e σ).locals = σ.locals := by
  rw [noted]; split <;> rfl

/-- Recording an event leaves the variables that outlive the run alone. -/
@[simp] theorem noted_persisted (e : Event) : (noted s e σ).persisted = σ.persisted := by
  rw [noted]; split <;> rfl

/-- Recording an event leaves the host alone. -/
@[simp] theorem noted_host (e : Event) : (noted s e σ).host = σ.host := by
  rw [noted]; split <;> rfl

/-- Recording an event leaves the exceptions being handled alone. -/
@[simp] theorem noted_handling (e : Event) : (noted s e σ).handling = σ.handling := by
  rw [noted]; split <;> rfl

/-- Recording an event leaves the awaiters alone. -/
@[simp] theorem noted_awaiters (e : Event) : (noted s e σ).awaiters = σ.awaiters := by
  rw [noted]; split <;> rfl

/-- What was assigned is what is found. -/
theorem lookup_assigned {v : Variable} {value : Value} {σ' : Frame}
    (h : assigned? s v value σ = some σ') : lookup σ' v.id = some value := by
  rw [assigned?] at h
  split at h
  · cases h
    simp only [lookup, Store.get?_insert, if_pos]
  · rename_i free
    split at h
    · cases h
      have none : σ.locals.get? v.id = none := by
        simpa [Store.contains] using free
      simp only [lookup, noted_locals, none, Store.get?_insert, if_pos]
    · cases h

/-- A variable is assigned to where it has a slot, and elsewhere there is a fault at the node. -/
theorem store_apply (v : Variable) (value : Value) (n : Node) :
    store s v value n σ = match assigned? s v value σ with
      | some σ => (.ok (), σ)
      | none => fault (.unbound v) n σ := by
  rw [store, bind_apply, get_apply, assigned?]
  dsimp only
  split
  · rw [bind_apply, note_apply]
    simp only [modify_apply, noted_locals]
  · split
    · rw [bind_apply, note_apply]
      simp only [modify_apply, noted_persisted]
    · rfl

/-- A frame in which the variable of a clause is bound. -/
def bound (v : Variable) (value : Value) (σ : Frame) : Frame :=
  if σ.persisted.contains v.id then
    { noted s (.bind v value) σ with persisted := σ.persisted.insert v.id value }
  else { noted s (.bind v value) σ with locals := σ.locals.insert v.id value }

/-- The variable of a clause gets its exception, wherever it has a slot. -/
theorem bind_clause_apply (v : Variable) (value : Value) :
    bind s v value σ = (.ok (), bound s v value σ) := by
  rw [bind, bind_apply, note_apply, bound]
  simp only [modify_apply, noted_persisted, noted_locals]

theorem declare_apply (vs : List Variable) :
    declare vs σ = (.ok (), { σ with locals := σ.locals.declare vs }) := rfl

/-! ### The host -/

theorem handOver_apply (awaiter : Value) :
    handOver s awaiter σ =
      (.ok (), { noted s (.handOver awaiter) σ with awaiters := σ.awaiters.push awaiter }) := by
  rw [handOver, bind_apply, note_apply]
  simp only [modify_apply, noted_awaiters]

/-- A frame whose host has carried out an operation. -/
def called (name : String) (args : List Value) (σ : Frame) : Frame :=
  { σ with host := (σ.host.call name args).2 }

/-- What an operation of the host comes to: its value, what it raises, or a fault where there is no
such operation. Calls of operations that there are, are recorded. -/
theorem callHost_apply (name : String) (args : List Value) (n : Node) :
    callHost s name args n σ = match (σ.host.call name args).1 with
      | .unknown => fault (.unknownOperation name) n (called name args σ)
      | .value v => (.ok v, noted s (.call name args) (called name args σ))
      | .raised ex => (.error (.thrown ex), noted s (.call name args) (called name args σ)) := by
  change ((modifyGet _ : Eval Host.Answer) >>= _) σ = _
  rw [bind_apply]
  change (match (σ.host.call name args).1 with
    | .unknown => (fault (.unknownOperation name) n : Eval Value)
    | .value v => (do note s (.call name args); return v : Eval Value)
    | .raised ex => do note s (.call name args); throw (Exit.thrown ex)) (called name args σ) = _
  cases (σ.host.call name args).1 with
  | unknown => rfl
  | value v =>
    dsimp only
    rw [bind_apply, note_apply]
    rfl
  | raised ex =>
    dsimp only
    rw [bind_apply, note_apply]
    rfl

theorem wait_apply (i : Nat) (f : Future) :
    wait i f σ = (.ok f.complete, { σ with host := σ.host.changeFuture i Future.complete }) := rfl

/-- The cell of a value, if it is a future that has one. -/
def cell? (h : Host) : Value → Option (Nat × Future)
  | .future i => (h.future? i).map fun f ↦ (i, f)
  | _ => none

/-- A future has a cell, and any other value is a fault where one is needed. -/
theorem cell_apply (v : Value) (n : Node) :
    cell v n σ = match cell? σ.host v with
      | some c => (.ok c, σ)
      | none => fault (.notAwaitable v.type) n σ := by
  cases v with
  | future i =>
    rw [cell, bind_apply, get_apply, cell?]
    dsimp only
    cases σ.host.future? i <;> rfl
  | _ => rfl

end Eval

end Suspension
