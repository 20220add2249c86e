import Suspension.Proofs.Steps.Lockstep

/-!
# Frames that agree

A tree and what a pass makes of it are evaluated over the same variables, but for those that the
pass adds. `Agree` relates the frames of the two evaluations: below a bound on the numbers of
symbols their variables hold the same, the host and what is handled and handed over is the same, and
the same operations of the host were called. Above the bound the second frame is free, except for
variables that are known to hold a value.

No primitive evaluation tells frames that agree apart (`Parallel`). So trees of one form go hand in
hand from such frames, whatever stands in their places (`Agree.lockstep`).
-/

namespace Suspension

/-- An operation of the host that is called by an event, with its arguments. -/
def Event.call? : Event → Option (String × List Value)
  | .call name args => some (name, args)
  | _ => none

/-- The operations of the host that were called, the latest first. -/
def Frame.calls (σ : Frame) : List (String × List Value) :=
  σ.moments.filterMap fun m ↦ m.event.call?

namespace Steps

open Eval

/-- Variables that hold known values. -/
abbrev Held := List (SymbolId × Value)

/-- A value for one of the variables. -/
def Held.set (held : Held) (id : SymbolId) (value : Value) : Held :=
  (id, value) :: held.filter fun p ↦ p.1 ≠ id

/-- Frames that tell the same apart from variables whose numbers are not below a bound. Some of
those hold known values in the second frame. -/
structure Agree (base : Nat) (held : Held) (σ σ' : Frame) : Prop where
  locals : ∀ id : SymbolId, id.toNat < base → σ.locals.get? id = σ'.locals.get? id
  persisted : ∀ id : SymbolId, id.toNat < base → σ.persisted.get? id = σ'.persisted.get? id
  host : σ.host = σ'.host
  handling : σ.handling = σ'.handling
  awaiters : σ.awaiters = σ'.awaiters
  calls : σ.calls = σ'.calls
  held : ∀ p ∈ held, base ≤ p.1.toNat ∧ σ'.locals.get? p.1 = some p.2

/-- Ends of evaluations that differ at most in the place of a fault. Labels that are jumped to have
numbers below a bound. -/
inductive SameEnd (base : Nat) {α : Type} : Except Exit α → Except Exit α → Prop
  | value (a : α) : SameEnd base (.ok a) (.ok a)
  | exit (e : Exit) (old : ∀ label, e = .jump label → label.toNat < base) :
    SameEnd base (.error e) (.error e)
  | fault (cause : FaultCause) (place place' : Option NodeId) : SameEnd base
    (.error (.stop (.fault ⟨cause, place⟩))) (.error (.stop (.fault ⟨cause, place'⟩)))

/-- Ends that are the same are outcomes that correspond. -/
theorem SameEnd.outcomes {base : Nat} {r r' : Outcome} (h : SameEnd base r r') :
    Outcomes (fun label ↦ label.toNat < base) (fun _ _ ↦ False) r r' := by
  cases h with
  | value v => exact .value v
  | fault cause place place' => exact .fault cause place place'
  | exit e old =>
    cases e with
    | jump label => exact .jump (old label rfl)
    | ret v => exact .ret v
    | thrown v => exact .thrown v
    | stop reason =>
      cases reason with
      | fault f => exact .fault f.cause f.node f.node
      | negationOverflow => exact .negationOverflow
      | outOfFuel => exact .outOfFuel

variable {s s' : Setting} {base : Nat} {held : Held} {σ σ' : Frame}

namespace Agree

/-- Every frame agrees with itself. -/
theorem refl (base : Nat) (σ : Frame) : Agree base [] σ σ :=
  ⟨fun _ _ ↦ rfl, fun _ _ ↦ rfl, rfl, rfl, rfl, rfl, List.forall_mem_nil _⟩

/-- Known values may be forgotten. -/
theorem forget {known : Held} (h : Agree base (known ++ held) σ σ') :
    Agree base held σ σ' :=
  { h with held := fun p member ↦ h.held p (List.mem_append_right _ member) }

/-- Old variables are looked up alike. -/
theorem lookup_eq (h : Agree base held σ σ') {id : SymbolId} (old : id.toNat < base) :
    lookup σ id = lookup σ' id := by
  rw [lookup, lookup, h.locals id old, h.persisted id old]

/-- Old variables have slots alike. -/
theorem contains_locals (h : Agree base held σ σ') {id : SymbolId} (old : id.toNat < base) :
    σ.locals.contains id = σ'.locals.contains id := by
  rw [Store.contains, Store.contains, h.locals id old]

theorem contains_persisted (h : Agree base held σ σ') {id : SymbolId} (old : id.toNat < base) :
    σ.persisted.contains id = σ'.persisted.contains id := by
  rw [Store.contains, Store.contains, h.persisted id old]

/-- Events count only if they are calls. -/
theorem noted (records : s.records = s'.records) {e e' : Event} (same : e.call? = e'.call?)
    (h : Agree base held σ σ') : Agree base held (noted s e σ) (noted s' e' σ') := by
  rw [Eval.noted, Eval.noted, ← records]
  split
  · refine { h with calls := ?_ }
    rw [Frame.calls, Frame.calls, List.filterMap_cons, List.filterMap_cons, same]
    have calls : σ.moments.filterMap _ = σ'.moments.filterMap _ := h.calls
    rw [calls]
  · exact h

/-- A variable of the run below the bound is given a value. -/
theorem insertLocal (h : Agree base held σ σ') {id : SymbolId} (old : id.toNat < base)
    (value : Value) : Agree base held { σ with locals := σ.locals.insert id value }
      { σ' with locals := σ'.locals.insert id value } where
  locals j lt := by
    rw [Store.get?_insert, Store.get?_insert, h.locals j lt]
  persisted := h.persisted
  host := h.host
  handling := h.handling
  awaiters := h.awaiters
  calls := h.calls
  held p member := by
    obtain ⟨new, value'⟩ := h.held p member
    refine ⟨new, ?_⟩
    rw [Store.get?_insert, if_neg (by rintro rfl; omega), value']

/-- A variable that outlives the run is given a value. -/
theorem insertPersisted (h : Agree base held σ σ') (id : SymbolId) (value : Value) :
    Agree base held { σ with persisted := σ.persisted.insert id value }
      { σ' with persisted := σ'.persisted.insert id value } := by
  refine { h with persisted := fun j lt ↦ ?_ }
  show (σ.persisted.insert id value).get? j = (σ'.persisted.insert id value).get? j
  rw [Store.get?_insert, Store.get?_insert, h.persisted j lt]

/-- The variables of a block below the bound start. -/
theorem declare (h : Agree base held σ σ') {vs : List Variable}
    (old : ∀ v ∈ vs, v.id.toNat < base) : Agree base held
      { σ with locals := σ.locals.declare vs } { σ' with locals := σ'.locals.declare vs } := by
  refine { h with locals := fun id lt ↦ ?_, held := fun p member ↦ ?_ }
  · by_cases inside : id ∈ vs.map Variable.id
    · obtain ⟨value, found⟩ := Store.get?_declare_of_mem inside
      show (σ.locals.declare vs).get? id = (σ'.locals.declare vs).get? id
      rw [found, found]
    · show (σ.locals.declare vs).get? id = (σ'.locals.declare vs).get? id
      rw [Store.get?_declare_of_notMem inside, Store.get?_declare_of_notMem inside, h.locals id lt]
  · obtain ⟨new, value⟩ := h.held p member
    refine ⟨new, ?_⟩
    show (σ'.locals.declare vs).get? p.1 = some p.2
    rw [Store.get?_declare_of_notMem, value]
    intro inside
    obtain ⟨v, declared, eq⟩ := List.mem_map.1 inside
    have := old v declared
    rw [eq] at this
    omega

/-- The variable of a clause below the bound is bound. -/
theorem bound (records : s.records = s'.records) (h : Agree base held σ σ') {v : Variable}
    (old : v.id.toNat < base) (value : Value) :
    Agree base held (bound s v value σ) (bound s' v value σ') := by
  have noted : Agree base held (Eval.noted s (.bind v value) σ)
      (Eval.noted s' (.bind v value) σ') := h.noted records rfl
  rw [Eval.bound, Eval.bound, ← h.contains_persisted old]
  split
  · simpa only [noted_persisted] using noted.insertPersisted v.id value
  · simpa only [noted_locals] using noted.insertLocal old value

/-- A variable below the bound is assigned to in both frames or in neither. -/
theorem assigned (records : s.records = s'.records) (h : Agree base held σ σ') {v : Variable}
    (old : v.id.toNat < base) (value : Value) :
    Option.Rel (Agree base held) (assigned? s v value σ) (assigned? s' v value σ') := by
  have noted : Agree base held (Eval.noted s (.store v value) σ)
      (Eval.noted s' (.store v value) σ') := h.noted records rfl
  rw [assigned?, assigned?, ← h.contains_persisted old, ← h.contains_locals old]
  split
  · exact .some (by simpa only [noted_locals] using noted.insertLocal old value)
  · split
    · exact .some (by simpa only [noted_persisted] using noted.insertPersisted v.id value)
    · exact .none

/-! What happens in the second frame alone -/

/-- An event that is no call makes no difference to what was called. -/
theorem calls_noted {s : Setting} {e : Event} (quiet : e.call? = none) (σ : Frame) :
    (Eval.noted s e σ).calls = σ.calls := by
  rw [Eval.noted]
  split
  · rw [Frame.calls, List.filterMap_cons, quiet]
    rfl
  · rfl

/-- An event that is no call may be recorded on the left alone. -/
theorem noted_left (h : Agree base held σ σ') {e : Event} (quiet : e.call? = none) :
    Agree base held (Eval.noted s e σ) σ' where
  locals := by simpa only [noted_locals] using h.locals
  persisted := by simpa only [noted_persisted] using h.persisted
  host := by rw [noted_host, h.host]
  handling := by rw [noted_handling, h.handling]
  awaiters := by rw [noted_awaiters, h.awaiters]
  calls := by rw [calls_noted quiet, h.calls]
  held := h.held

/-- An event that is no call may be recorded on the right alone. -/
theorem noted_right (h : Agree base held σ σ') {e : Event} (quiet : e.call? = none) :
    Agree base held σ (Eval.noted s e σ') where
  locals := by simpa only [noted_locals] using h.locals
  persisted := by simpa only [noted_persisted] using h.persisted
  host := by rw [noted_host, h.host]
  handling := by rw [noted_handling, h.handling]
  awaiters := by rw [noted_awaiters, h.awaiters]
  calls := by rw [calls_noted quiet, h.calls]
  held := by simpa only [noted_locals] using h.held

/-- Variables above the bound start, and have values from then on. -/
theorem declare_right (h : Agree base held σ σ') {vs : List Variable}
    (new : ∀ id ∈ vs.map Variable.id, base ≤ id.toNat ∧ ∀ p ∈ held, p.1 ≠ id) :
    ∃ known : Held, (∀ p ∈ known, p.1 ∈ vs.map Variable.id) ∧
      (∀ v ∈ vs, ∃ value, (v.id, value) ∈ known) ∧
      Agree base (known ++ held) σ { σ' with locals := σ'.locals.declare vs } := by
  have started (id : SymbolId) (inside : id ∈ vs.map Variable.id) :
      (σ'.locals.declare vs).get? id = some (((σ'.locals.declare vs).get? id).getD .unit) := by
    obtain ⟨value, found⟩ := Store.get?_declare_of_mem inside
    rw [found]
    rfl
  refine ⟨(vs.map Variable.id).map fun id ↦ (id, ((σ'.locals.declare vs).get? id).getD .unit),
    List.forall_mem_map.2 fun id inside ↦ inside,
    fun v declared ↦ ⟨_, List.mem_map_of_mem (List.mem_map_of_mem declared)⟩, ?_⟩
  refine { h with
    locals := fun id lt ↦ ?_, held := List.forall_mem_append.2 ⟨?_, fun p member ↦ ?_⟩ }
  · show σ.locals.get? id = (σ'.locals.declare vs).get? id
    rw [Store.get?_declare_of_notMem, h.locals id lt]
    intro inside
    have := (new id inside).1
    omega
  · exact List.forall_mem_map.2 fun id inside ↦ ⟨(new id inside).1, started id inside⟩
  · obtain ⟨large, value⟩ := h.held p member
    refine ⟨large, ?_⟩
    show (σ'.locals.declare vs).get? p.1 = some p.2
    rw [Store.get?_declare_of_notMem, value]
    exact fun inside ↦ (new p.1 inside).2 p member rfl

/-- A variable above the bound is given a value. -/
theorem insert_right {known : Held} (h : Agree base (known ++ held) σ σ') {id : SymbolId}
    (new : base ≤ id.toNat) (apart : ∀ p ∈ held, p.1 ≠ id) (value : Value) :
    Agree base (known.set id value ++ held) σ
      { σ' with locals := σ'.locals.insert id value } := by
  have others (p : SymbolId × Value) (member : p ∈ known ++ held) (other : p.1 ≠ id) :
      base ≤ p.1.toNat ∧ (σ'.locals.insert id value).get? p.1 = some p.2 := by
    rw [Store.get?_insert, if_neg other]
    exact h.held p member
  refine { h with
    locals := fun j lt ↦ ?_, held := List.forall_mem_append.2 ⟨?_, fun p member ↦ ?_⟩ }
  · show σ.locals.get? j = (σ'.locals.insert id value).get? j
    rw [Store.get?_insert, if_neg (by rintro rfl; omega), h.locals j lt]
  · refine List.forall_mem_cons.2 ⟨⟨new, ?_⟩, fun p member ↦ ?_⟩
    · show (σ'.locals.insert id value).get? id = some value
      rw [Store.get?_insert, if_pos rfl]
    · obtain ⟨inside, other⟩ := List.mem_filter.1 member
      exact others p (List.mem_append_left _ inside) (of_decide_eq_true other)
  · exact others p (List.mem_append_right _ member) (apart p member)

end Agree

/-- Computations that come to the same from frames that agree. -/
def Parallel {α : Type} (base : Nat) (held : Held) (x x' : Eval α) : Prop :=
  ∀ σ σ', Agree base held σ σ' →
    SameEnd base (x σ).1 (x' σ').1 ∧ Agree base held (x σ).2 (x' σ').2

namespace Parallel

variable {α β : Type} {x x' : Eval α}

theorem pure (a : α) : Parallel base held (pure a : Eval α) (pure a) := fun _ _ h ↦ ⟨.value a, h⟩

theorem throw (e : Exit) (old : ∀ label, e = .jump label → label.toNat < base) :
    Parallel base held (throw e : Eval α) (throw e) :=
  fun _ _ h ↦ ⟨.exit e old, h⟩

theorem fault (cause : FaultCause) (n n' : Node) :
    Parallel base held (fault cause n : Eval α) (fault cause n') :=
  fun _ _ h ↦ ⟨.fault cause _ _, h⟩

/-- Computations run in parallel step by step. -/
theorem bind {k k' : α → Eval β} (h : Parallel base held x x')
    (h' : ∀ a, Parallel base held (k a) (k' a)) : Parallel base held (x >>= k) (x' >>= k') := by
  intro σ σ' agree
  obtain ⟨ends, after⟩ := h σ σ' agree
  rw [bind_apply, bind_apply]
  rcases run : x σ with ⟨r, σ₁⟩
  rcases run' : x' σ' with ⟨r', σ₁'⟩
  rw [run, run'] at ends after
  dsimp only at ends after
  cases ends with
  | value a => exact h' a σ₁ σ₁' after
  | exit e old => exact ⟨.exit e old, after⟩
  | fault cause place place' => exact ⟨.fault cause place place', after⟩

section

variable (records : s.records = s'.records)

include records

/-- Exits are taken in parallel, where they jump to old labels. -/
theorem leave (e : Exit) (old : ∀ label, e = .jump label → label.toNat < base) :
    Parallel base held (leave s e : Eval α) (leave s' e) := by
  intro σ σ' agree
  rw [leave_apply, leave_apply]
  exact ⟨.exit e old, agree.noted records rfl⟩

/-- Old variables are assigned to in parallel. -/
theorem store {v : Variable} (old : v.id.toNat < base) (value : Value) (n n' : Node) :
    Parallel base held (store s v value n) (store s' v value n') := by
  intro σ σ' agree
  have assigned := agree.assigned records old value
  rw [store_apply, store_apply]
  generalize assigned? s v value σ = r at assigned
  generalize assigned? s' v value σ' = r' at assigned
  cases assigned with
  | none => exact fault _ n n' σ σ' agree
  | some after => exact ⟨.value (), after⟩

/-- Awaiters are handed over in parallel. -/
theorem handOver (awaiter : Value) :
    Parallel base held (handOver s awaiter) (handOver s' awaiter) := by
  intro σ σ' agree
  have noted : Agree base held (noted s (.handOver awaiter) σ) (noted s' (.handOver awaiter) σ') :=
    agree.noted records rfl
  rw [handOver_apply, handOver_apply]
  exact ⟨.value (), { noted with awaiters := by rw [agree.awaiters] }⟩

/-- The host is called in parallel. -/
theorem callHost (name : String) (args : List Value) (n n' : Node) :
    Parallel base held (callHost s name args n) (callHost s' name args n') := by
  intro σ σ' agree
  have after : Agree base held (called name args σ) (called name args σ') :=
    { agree with host := by rw [called, called, agree.host] }
  have noted : Agree base held (noted s (.call name args) (called name args σ))
      (noted s' (.call name args) (called name args σ')) := after.noted records rfl
  rw [callHost_apply, callHost_apply, ← agree.host]
  cases (σ.host.call name args).1 with
  | unknown => exact fault _ n n' _ _ after
  | value v => exact ⟨.value v, noted⟩
  | raised ex => exact ⟨.exit _ (by rintro _ ⟨⟩), noted⟩

/-- Operations run in parallel. -/
theorem invoke (callee : String) (args : List Value) (n n' : Node) :
    Parallel base held (Evaluator.invoke s callee args n)
      (Evaluator.invoke s' callee args n') := by
  unfold Evaluator.invoke
  split
  · cases args with
    | nil => exact pure _
    | cons awaiter => exact (handOver records awaiter).bind fun _ ↦ pure _
  · exact callHost records callee args n n'

theorem rethrow (n n' : Node) :
    Parallel base held (Evaluator.rethrow s n) (Evaluator.rethrow s' n') := by
  intro σ σ' agree
  unfold Evaluator.rethrow
  rw [bind_apply, bind_apply, get_apply, get_apply]
  dsimp only
  rw [← agree.handling]
  cases σ.handling with
  | nil => exact fault _ n n' σ σ' agree
  | cons ex => exact leave records _ (by rintro _ ⟨⟩) σ σ' agree

end

theorem load {v : Variable} (old : v.id.toNat < base) (n n' : Node) :
    Parallel base held (load v n) (load v n') := by
  intro σ σ' agree
  rw [load_apply, load_apply, ← agree.lookup_eq old]
  cases lookup σ v.id with
  | none => exact fault _ n n' σ σ' agree
  | some value => exact ⟨.value value, agree⟩

theorem cell (v : Value) (n n' : Node) : Parallel base held (cell v n) (cell v n') := by
  intro σ σ' agree
  rw [cell_apply, cell_apply, ← agree.host]
  cases cell? σ.host v with
  | none => exact fault _ n n' σ σ' agree
  | some c => exact ⟨.value c, agree⟩

theorem result (f : Future) (n n' : Node) : Parallel base held (result f n) (result f n') := by
  unfold Eval.result
  split
  · exact pure _
  · exact throw _ (by rintro _ ⟨⟩)
  · exact fault _ n n'

theorem wait (i : Nat) (f : Future) : Parallel base held (wait i f) (wait i f) := by
  intro σ σ' agree
  rw [wait_apply, wait_apply]
  exact ⟨.value _, { agree with host := by rw [agree.host] }⟩

/-- Waiting runs in parallel, if both record or neither does. -/
theorem waitFor (records : s.records = s'.records) (acquire : Option String) (v : Value)
    (n n' : Node) : Parallel base held (Evaluator.waitFor s acquire v n)
      (Evaluator.waitFor s' acquire v n') := by
  have waits (awaiter : Value) : Parallel base held (Evaluator.waitFor s none awaiter n)
      (Evaluator.waitFor s' none awaiter n') :=
    (cell awaiter n n').bind fun c ↦ (wait c.1 c.2).bind fun f ↦ result f n n'
  cases acquire with
  | none => exact waits v
  | some name => exact (invoke records name [v] n n').bind waits

/-- Steps of the awaiter protocol run in parallel. -/
theorem awaiterStep (step : AwaitStep) (v : Value) (n n' : Node) :
    Parallel base held (Evaluator.awaiterStep step v n) (Evaluator.awaiterStep step v n') := by
  refine (cell v n n').bind fun c ↦ ?_
  cases step with
  | acquire => exact pure v
  | isCompleted => exact pure _
  | getResult => exact result _ n n'

theorem binary (op : BinaryOp) (l r : Value) (n n' : Node) :
    Parallel base held (binary op l r n) (binary op l r n') := by
  unfold Eval.binary
  split
  · exact pure _
  · exact throw _ (by rintro _ ⟨⟩)
  · exact fault _ n n'

theorem unary (op : UnaryOp) (v : Value) (n n' : Node) :
    Parallel base held (unary op v n) (unary op v n') := by
  unfold Eval.unary
  split
  · split
    · exact throw _ (by rintro _ ⟨⟩)
    · exact pure _
  · exact fault _ n n'
  · split
    · exact pure _
    · exact fault _ n n'

section Nodes

variable (records : s.records = s'.records) {n n' : Node}

include records

/-- Nodes without children run in parallel, if they are the same. -/
theorem leaf (same : n.shape = n'.shape) (old : ∀ id ∈ n.shape.ownSymbols, id.toNat < base) :
    Parallel base held (leaf s n) (leaf s' n') := by
  unfold Steps.leaf
  rw [← same]
  split
  · exact pure _
  · rename_i target shape
    refine leave records _ fun label same ↦ ?_
    cases same
    exact old target.id (by rw [shape]; exact List.mem_cons_self)
  · exact leave records _ (by rintro _ ⟨⟩)
  · exact rethrow records n n'
  · rename_i v shape
    exact load (old v.id (by rw [shape]; exact List.mem_cons_self)) n n'
  · exact pure _
  · exact pure _
  · exact pure _

/-- What is made of an only operand runs in parallel. -/
theorem finish {o o' : Node} (same : SameUnary n.shape n'.shape o o')
    (old : ∀ id ∈ n.shape.ownSymbols, id.toNat < base) (v : Value) :
    Parallel base held (finish s n v) (finish s' n' v) := by
  obtain ⟨i, shape⟩ := n
  obtain ⟨i', shape'⟩ := n'
  dsimp only [Node.shape] at same old
  cases same with
  | await => exact waitFor records _ v _ _
  | awaiter => exact awaiterStep _ v _ _
  | ret => exact leave records _ (by rintro _ ⟨⟩)
  | raise => exact leave records _ (by rintro _ ⟨⟩)
  | assign _ _ target =>
    exact (store records (old target.id List.mem_cons_self) v _ _).bind fun _ ↦ pure v
  | unary => exact unary _ v _ _

/-- What is made of operands runs in parallel. -/
theorem combine {os os' : List Node} (same : SameOperands n.shape n'.shape os os')
    (values : List Value) : Parallel base held (combine s n values) (combine s' n' values) := by
  obtain ⟨i, shape⟩ := n
  obtain ⟨i', shape'⟩ := n'
  dsimp only [Node.shape] at same
  cases same with
  | binary op l r l' r' =>
    match values with
    | [v, w] => exact binary op v w _ _
    | [] => exact pure _
    | [_] => exact pure _
    | _ :: _ :: _ :: _ => exact pure _
  | call callee args args' length => exact invoke records callee values _ _

end Nodes

end Parallel

/-! ### Trees of one form -/

/-- Trees go hand in hand from frames that agree. -/
def Agree.lockstep (s s' : Setting) (base : Nat) (held : Held)
    (Nodes : Node → Node → Prop) : Lockstep where
  s := s
  s' := s'
  Nodes _ := Nodes
  Frames _ := Agree base held
  Jumps label := label.toNat < base
  Escapes _ _ := False
  Admits _ n _ := ∀ id ∈ n.shape.ownSymbols, id.toNat < base

/-- Frames that agree stay so, if labels are found in the same places. -/
theorem Agree.lawful {Nodes : Node → Node → Prop} (waits : s.waits = s'.waits)
    (records : s.records = s'.records)
    (labels : ∀ {n n'}, Nodes n n' → ∀ label, s.labels n label = s'.labels n' label)
    (stable : ∀ {n n'}, Nodes n n' → n.isStable = n'.isStable) :
    (Agree.lockstep s s' base held Nodes).Lawful where
  waits _ _ := waits
  labels related _ := labels related _
  stable _ _ := stable
  passing := False.elim
  escapes := False.elim
  escapes' := False.elim
  elsewhere := False.elim
  elsewhere' := False.elim
  within _ h := h
  handling h := h.handling
  handle exs h := { h with handling := rfl }
  visit _ h := h.noted records rfl
  declare {_ n _ declared ns _ _} old shape h := by
    refine h.declare fun v member ↦ old v.id ?_
    rw [shape]
    exact List.mem_map_of_mem member
  bind {_ n _ body cs cleanup fault clause v ex _ _} old shape member bound h := by
    refine h.bound records (old v.id ?_) ex
    rw [shape]
    exact List.mem_map_of_mem (List.mem_filterMap.2 ⟨clause, member, bound⟩)
  hold h _ _ := h
  leaf _ same old h := by
    obtain ⟨ends, after⟩ := Parallel.leaf records same old _ _ h
    exact ⟨ends.outcomes, after⟩
  finish same old _ h := by
    obtain ⟨ends, after⟩ := Parallel.finish records same old _ _ _ h
    exact ⟨ends.outcomes, after⟩
  combine same _ h := by
    obtain ⟨ends, after⟩ := Parallel.combine records same _ _ _ h
    exact ⟨ends.outcomes, after⟩

end Steps

end Suspension
