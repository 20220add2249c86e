import Suspension.Proofs.Resumption.Arrival
import Suspension.Proofs.Steps.Invariant
import Suspension.Proofs.Suspending.Steady

/-!
# While a body runs

Between the dispatch and the way out of a body both copies of its state are at running. That is the
invariant of a run (`Lowered.Running`): every node outside of the ways out keeps it
(`Layout.underway_lawful`), and a body comes by it at the dispatch if it starts, or with the
question for the outcome if it goes on.
-/

namespace Suspension

open Steps Eval

/-! ### Evaluations that leave the frame as it is -/

theorem awaiterStep_frame (step : AwaitStep) (v : Value) (n : Node) (σ : Frame) :
    (Evaluator.awaiterStep step v n σ).2 = σ := by
  rw [Evaluator.awaiterStep, bind_apply, cell_apply]
  cases cell? σ.host v with
  | none => rfl
  | some c =>
    cases step with
    | acquire => rfl
    | isCompleted => rfl
    | getResult =>
      dsimp only [Eval.result]
      rcases c.2.outcome? with _ | _ | _ <;> rfl

theorem unary_frame (op : UnaryOp) (v : Value) (n : Node) (σ : Frame) :
    (unary op v n σ).2 = σ := by
  unfold unary
  split
  · split <;> rfl
  · rfl
  · cases v.asBool? <;> rfl

theorem binary_frame (op : BinaryOp) (l r : Value) (n : Node) (σ : Frame) :
    (binary op l r n σ).2 = σ := by
  unfold binary
  rcases op.apply l r with _ | _ | _ <;> rfl

/-- A node without children leaves the frame as it is, or notes an exit. -/
theorem leaf_frame (s : Setting) (n : Node) (σ : Frame) :
    (leaf s n σ).2 = σ ∨ ∃ e, (leaf s n σ).2 = noted s (.exit e) σ := by
  obtain ⟨i, sh⟩ := n
  cases sh with
  | goto target => exact .inr ⟨_, congrArg Prod.snd (leave_apply s σ _)⟩
  | ret value =>
    cases value with
    | none => exact .inr ⟨_, congrArg Prod.snd (leave_apply s σ _)⟩
    | some => exact .inl rfl
  | raise value =>
    cases value with
    | none =>
      simp only [leaf, Node.shape, Evaluator.rethrow, bind_apply, get_apply]
      cases σ.handling with
      | nil => exact .inl rfl
      | cons ex exs => exact .inr ⟨_, congrArg Prod.snd (leave_apply s σ _)⟩
    | some => exact .inl rfl
  | var source =>
    simp only [leaf, Node.shape, load_apply]
    cases lookup σ source.id <;> exact .inl rfl
  | _ => exact .inl rfl

/-! ### The invariant -/

/-- A moment of a body that is not on its way out: host operations find both copies of the state at
running, and no way out is entered. -/
structure Lowered.Inside (l : Lowered) (m : Moment) : Prop where
  call : ∀ {name args}, m.event = .call name args →
    m.persisted.get? l.contract.state.id = some (.int running) ∧
      m.locals.get? l.contract.localState.id = some (.int running)
  visit : ∀ {i}, m.event = .visit i none → ∀ d ∈ l.body.walk, d.id = i → ¬ d.Departs l.contract

/-- A frame of a body that is not on its way out. Where nothing but the ways out hands awaiters
over, there are none. -/
structure Lowered.Running (l : Lowered) (banned : String → Prop) (σ : Frame) : Prop where
  state : σ.persisted.get? l.contract.state.id = some (.int running)
  localState : σ.locals.get? l.contract.localState.id = some (.int running)
  outside : ∀ id ∈ l.contract.state.id :: l.fields.map Variable.id, σ.locals.get? id = none
  slots : ∀ v ∈ l.persisted, σ.persisted.contains v.id = true
  silent : banned onCompleted → σ.awaiters = #[]
  moments : ∀ m ∈ σ.moments, l.Inside m

/-- The way out of a lowered body at one of its states. -/
def Lowered.WayOut (l : Lowered) (n : Node) : Prop :=
  ∃ q, IsSuspension l.contract q n ∧ q.awaiter ∈ l.fields ∧
    ∃ i < l.stateCount, Int64.ofNat q.index = Int64.ofNat i

theorem Lowered.WayOut.departs {l : Lowered} {n : Node} (h : l.WayOut n) : n.Departs l.contract :=
  ⟨h.choose, h.choose_spec.1⟩

/-- The states in which a lowered body waits, each with the variable that holds the awaiter. -/
def Lowered.waits (l : Lowered) : List (Int64 × Variable) :=
  ((List.range l.stateCount).map Int64.ofNat).zip l.fields

/-- The question of a suspend point of a lowered body. -/
def Lowered.Asks (l : Lowered) (n : Node) : Prop :=
  ∃ q suspend, IsQuestion l.contract q suspend n ∧ (Int64.ofNat q.index, q.awaiter) ∈ l.waits

theorem Node.Departs.kind {c : Contract} {n : Node} (h : n.Departs c) : n.kind = .block := by
  obtain ⟨_, _, _, shape⟩ := h.shape
  exact congrArg Shape.kind shape

/-- The only way out beneath a question is its arm. -/
theorem IsQuestion.parent_of_departs {c : Contract} {q : Point} {suspend b n d : Node}
    (h : IsQuestion c q suspend b) (within : n ∈ b.walk) (child : d ∈ n.children)
    (departs : d.Departs c) : n = b ∧ d = suspend := by
  have block := departs.kind
  cases h with
  | mk i j k l suspension =>
    cases suspension with
    | mk _ _ _ _ update =>
      cases update with
      | mk =>
        simp only [Node.walk_mk, Shape.children, Option.toList_none, List.flatMap_cons,
          List.flatMap_nil, List.append_nil, List.cons_append, List.nil_append, List.mem_cons,
          List.not_mem_nil, or_false] at within
        -- No node beneath the two has a block as a child.
        rcases within with rfl | within
        · rcases List.mem_pair.1 child with rfl | rfl
          · cases block
          · exact ⟨rfl, rfl⟩
        · refine absurd block ?_
          rcases within with rfl | rfl | rfl | rfl | rfl | rfl | rfl | rfl | rfl | rfl <;>
            simp only [Node.children, Node.shape, Shape.children, List.mem_cons, List.not_mem_nil,
              or_false] at child <;>
            rcases child with rfl | rfl | rfl <;> rintro ⟨⟩

/-- Beneath a question there is a way out and nothing else of note. -/
theorem Lowered.Asks.around {l : Lowered} {banned : String → Prop} {n : Node} (h : l.Asks n) :
    n.Around l.WayOut (Node.Steady l.contract l.fields banned) := by
  obtain ⟨q, suspend, question, waits⟩ := h
  obtain ⟨state, field⟩ := List.of_mem_zip waits
  obtain ⟨i, below, same⟩ := List.mem_map.1 state
  have wayOut (suspension : IsSuspension l.contract q suspend) : l.WayOut suspend :=
    ⟨q, suspension, field, i, List.mem_range.1 below, same.symm⟩
  cases question with
  | mk i j k m suspension =>
    refine .layer (.of_form rfl) (List.forall_mem_cons.2 ⟨?_, List.forall_mem_singleton.2
      (.out (wayOut suspension))⟩)
    exact .layer (.of_form rfl) (List.forall_mem_singleton.2 (.layer (.of_form rfl)
      (List.forall_mem_singleton.2 (.layer (.of_form rfl) (List.forall_mem_nil _)))))

/-- The runs of a lowered body, until they take a way out. -/
def Lowered.underway (l : Lowered) (records : Bool) (banned : String → Prop) : Invariant where
  s := { labels := LabelIndex.build l.body, records }
  Nodes n := n ∈ l.body.walk ∧ n.Around l.WayOut (Node.Steady l.contract l.fields banned)
  Admits n := n ∈ l.body.walk ∧ n.Steady l.contract l.fields banned
  Frames := l.Running banned

namespace Lowered.Running

variable {l : Lowered} {banned : String → Prop} {σ σ' : Frame} {s : Setting}

/-- Noting an event. -/
theorem note (h : l.Running banned σ) (e : Event)
    (visit : ∀ i, e = .visit i none → ∀ d ∈ l.body.walk, d.id = i → ¬ d.Departs l.contract) :
    l.Running banned (noted s e σ) := by
  refine ⟨by rw [noted_persisted, h.state], by rw [noted_locals, h.localState],
    by rw [noted_locals]; exact h.outside, by rw [noted_persisted]; exact h.slots,
    by rw [noted_awaiters]; exact h.silent, ?_⟩
  rw [noted]
  split
  · refine List.forall_mem_cons.2 ⟨⟨fun _ ↦ ⟨h.state, h.localState⟩, fun eq ↦ visit _ eq⟩,
      h.moments⟩
  · exact h.moments

/-- Noting an event that is not a visit. -/
theorem note_plain (h : l.Running banned σ) (e : Event) (plain : ∀ i seek, e ≠ .visit i seek) :
    l.Running banned (noted s e σ) :=
  h.note e fun i eq ↦ absurd eq (plain i none)

/-- Giving a variable a value in the run. -/
theorem insertLocal (h : l.Running banned σ) {id : SymbolId} {value : Value}
    (outside : id ∉ l.contract.state.id :: l.fields.map Variable.id)
    (localState : id = l.contract.localState.id → value = .int running) :
    l.Running banned { σ with locals := σ.locals.insert id value } := by
  refine ⟨h.state, ?_, fun taken inside ↦ ?_, h.slots, h.silent, h.moments⟩
  · rw [Store.get?_insert]
    split
    · rename_i same
      rw [localState same.symm]
    · exact h.localState
  · rw [Store.get?_insert, if_neg (by rintro rfl; exact outside inside)]
    exact h.outside taken inside

/-- Giving a variable a value that outlives the run. -/
theorem insertPersisted (h : l.Running banned σ) {id : SymbolId} {value : Value}
    (state : id = l.contract.state.id → value = .int running) :
    l.Running banned { σ with persisted := σ.persisted.insert id value } := by
  refine ⟨?_, h.localState, h.outside, fun v member ↦ ?_, h.silent, h.moments⟩
  · rw [Store.get?_insert]
    split
    · rename_i same
      rw [state same.symm]
    · exact h.state
  · rw [Store.contains_insert, h.slots v member, Bool.or_true]

/-- Assigning to a variable. -/
theorem assign (h : l.Running banned σ) {v : Variable} {value : Value}
    (set : assigned? s v value σ = some σ')
    (state : v.id = l.contract.state.id → value = .int running)
    (localState : v.id = l.contract.localState.id → value = .int running) :
    l.Running banned σ' := by
  have told := h.note_plain (s := s) (.store v value) (by rintro _ _ ⟨⟩)
  rw [assigned?] at set
  split at set
  · rename_i held
    cases set
    rw [← noted_locals s σ (.store v value)]
    refine told.insertLocal (fun inside ↦ ?_) localState
    rw [Store.contains, h.outside v.id inside] at held
    cases held
  · split at set
    · cases set
      rw [← noted_persisted s σ (.store v value)]
      exact told.insertPersisted state
    · cases set

/-- Binding the variable of a clause. -/
theorem bind (h : l.Running banned σ) {v : Variable} {value : Value}
    (other : v.id ∉ l.contract.state.id :: l.contract.localState.id :: l.fields.map Variable.id) :
    l.Running banned (bound s v value σ) := by
  have told := h.note_plain (s := s) (.bind v value) (by rintro _ _ ⟨⟩)
  simp only [List.mem_cons, not_or] at other
  obtain ⟨notState, notLocal, notField⟩ := other
  rw [bound]
  split
  · rw [← noted_persisted s σ (.bind v value)]
    exact told.insertPersisted fun same ↦ absurd same notState
  · rw [← noted_locals s σ (.bind v value)]
    refine told.insertLocal ?_ fun same ↦ absurd same notLocal
    exact List.not_mem_cons_of_ne_of_not_mem notState notField

/-- Declaring variables of a block. -/
theorem declare (h : l.Running banned σ) {vs : List Variable}
    (others : ∀ v ∈ vs,
      v.id ∉ l.contract.state.id :: l.contract.localState.id :: l.fields.map Variable.id) :
    l.Running banned { σ with locals := σ.locals.declare vs } := by
  have free {id : SymbolId}
      (taken : id ∈ l.contract.state.id :: l.contract.localState.id :: l.fields.map Variable.id) :
      id ∉ vs.map Variable.id := by
    intro inside
    obtain ⟨v, member, rfl⟩ := List.mem_map.1 inside
    exact others v member taken
  refine ⟨h.state, ?_, fun id inside ↦ ?_, h.slots, h.silent, h.moments⟩
  · rw [Store.get?_declare_of_notMem (free (by simp)), h.localState]
  · rw [Store.get?_declare_of_notMem (free ?_), h.outside id inside]
    exact (List.mem_cons.1 inside).elim (fun same ↦ same ▸ List.mem_cons_self)
      fun inside ↦ List.mem_cons_of_mem _ (List.mem_cons_of_mem _ inside)

/-- Calling an operation. -/
theorem invoke (h : l.Running banned σ) {callee : String} (allowed : ¬ banned callee)
    (args : List Value) (n : Node) : l.Running banned (Evaluator.invoke s callee args n σ).2 := by
  have called : l.Running banned (called callee args σ) :=
    ⟨h.state, h.localState, h.outside, h.slots, h.silent, h.moments⟩
  rw [Evaluator.invoke]
  split
  · rename_i same
    cases args with
    | nil => exact h
    | cons awaiter args =>
      dsimp only
      rw [bind_apply, handOver_apply]
      have told := h.note_plain (s := s) (.handOver awaiter) (by rintro _ _ ⟨⟩)
      exact ⟨told.state, told.localState, told.outside, told.slots,
        fun silent ↦ absurd (same ▸ silent) allowed, told.moments⟩
  · rw [callHost_apply]
    split
    · exact called
    · exact called.note_plain _ (by rintro _ _ ⟨⟩)
    · exact called.note_plain _ (by rintro _ _ ⟨⟩)

/-- What the state is read as. -/
theorem lookup_state (h : l.Running banned σ) :
    lookup σ l.contract.state.id = some (.int running) := by
  rw [lookup, h.outside _ List.mem_cons_self, h.state]

/-- What the copy of the state is read as. -/
theorem lookup_localState (h : l.Running banned σ) :
    lookup σ l.contract.localState.id = some (.int running) := by
  rw [lookup, h.localState]

end Lowered.Running

namespace Layout

variable {l : Lowered} (L : Layout l) {banned : String → Prop} {records : Bool}

include L in
/-- Nodes outside of the ways out keep a body running. -/
theorem underway_lawful : (l.underway records banned).Lawful where
  handle exs h := ⟨h.state, h.localState, h.outside, h.slots, h.silent, h.moments⟩
  visit admits h := by
    refine h.note _ fun i eq d within same ↦ ?_
    obtain ⟨rfl, -⟩ := Event.visit.inj eq
    rw [List.inj_on_of_nodup_map L.ids within admits.1 same]
    exact admits.2.stays
  declare {n declared ns σ} admits shape h := by
    refine h.declare fun v member ↦ admits.2.binds v ?_
    rw [shape]
    exact List.mem_append_left _ member
  bind {n body cs cleanup fault clause v ex σ} admits shape member binder h := by
    refine h.bind (admits.2.binds v ?_)
    rw [shape]
    exact List.mem_append_right _ (List.mem_filterMap.2 ⟨clause, member, binder⟩)
  leaf _ _ h := by
    rcases leaf_frame _ _ _ with same | ⟨e, same⟩
    · rw [same]
      exact h
    · rw [same]
      exact h.note_plain _ (by rintro _ _ ⟨⟩)
  finish {n o v σ} same admits yields h := by
    obtain ⟨within, steady⟩ := admits
    obtain ⟨i, sh⟩ := n
    dsimp only [Node.shape] at same
    cases same with
    | await => exact absurd rfl steady.notAwait
    | awaiter =>
      simp only [finish, Node.shape, awaiterStep_frame]
      exact h
    | ret =>
      simp only [finish, Node.shape, leave_apply]
      exact h.note_plain _ (by rintro _ _ ⟨⟩)
    | raise =>
      simp only [finish, Node.shape, leave_apply]
      exact h.note_plain _ (by rintro _ _ ⟨⟩)
    | unary =>
      simp only [finish, Node.shape, unary_frame]
      exact h
    -- Only a store touches a copy of the state, and steady nodes store in it what it holds.
    | assign _ _ target =>
      simp only [finish, Node.shape, bind_apply, store_apply]
      cases set : assigned? (l.underway records banned).s target v σ with
      | none => exact h
      | some σ' =>
        refine h.assign set (fun isState ↦ ?_) fun isLocal ↦ ?_
        · have value := yields v rfl
          rw [steady.state rfl isState] at value
          exact value
        · have value := yields v rfl
          rcases steady.localState rfl isLocal with shape | ⟨_, shape⟩
          · rw [shape] at value
            exact Option.some.inj (value.symm.trans h.lookup_state)
          · rw [shape] at value
            exact Option.some.inj (value.symm.trans h.lookup_state)
  combine {n os vs σ} same admits h := by
    obtain ⟨within, steady⟩ := admits
    obtain ⟨i, sh⟩ := n
    dsimp only [Node.shape] at same
    cases same with
    | binary =>
      rcases vs with _ | ⟨v, _ | ⟨w, _ | _⟩⟩
      · exact h
      · exact h
      · simp only [combine, Node.shape, binary_frame]
        exact h
      · exact h
    | call callee args args' length => exact h.invoke (steady.calls callee List.mem_cons_self) vs _

/-! ### The nodes of a lowered body -/

/-- The variables that the expansion adds are none of those that it must not touch. -/
theorem added_apart : L.added.Apart l.contract l.fields := by
  have names := L.names
  rw [List.nodup_append] at names
  obtain ⟨contract, added, beside⟩ := names
  have ofFields {v : Variable} (member : v ∈ L.added.fields) : v.id ∈ L.added.names :=
    List.mem_append_left _ (List.mem_append_left _ (List.mem_map_of_mem member))
  have ofResults {v : Variable} (member : v ∈ L.added.results) : v.id ∈ L.added.names :=
    List.mem_append_left _ (List.mem_append_right _ (List.mem_map_of_mem member))
  have state : l.contract.state.id ∈ l.contract.names := by simp [Contract.names]
  have localState : l.contract.localState.id ∈ l.contract.names := by simp [Contract.names]
  refine ⟨?_, fun v member inside ↦ ?_, fun v member ↦ ⟨fun same ↦ ?_, fun same ↦ ?_⟩⟩
  · simp only [Contract.names, List.nodup_cons, List.mem_cons, not_or] at contract
    exact contract.1.1
  · rw [L.fields] at inside
    simp only [List.mem_cons] at inside
    rcases inside with same | same | inside
    · exact beside _ state _ (ofResults member) same.symm
    · exact beside _ localState _ (ofResults member) same.symm
    · rw [Added.names, List.nodup_append, List.nodup_append] at added
      exact added.1.2.2 v.id inside v.id (List.mem_map_of_mem member) rfl
  · exact beside _ state _ (ofFields member) same.symm
  · exact beside _ localState _ (ofFields member) same.symm

/-- The states of a lowered body are those that its suspend points have been given. -/
theorem waits_eq : L.added.waits = l.waits := by
  rw [Added.waits, L.tests, ← L.fields]
  rfl

/-- The expanded body sets the state beneath its questions only, and asks the awaiters of its
suspend points nowhere else whether they are completed. -/
theorem expanded_around (allowed : ∀ name ∈ L.prepared.calls, ¬ banned name) :
    L.expanded.Around l.Asks (Node.Still l.contract l.fields banned) := by
  refine (L.twin.around L.added_apart ⟨fun id taken inside ↦ ?_, fun name called ↦
    allowed name (L.prepared.calls_settle ▸ called)⟩).mono ?_
  · refine L.apart id ?_ (L.prepared.symbols_settle inside)
    rw [L.fields] at taken
    simp only [List.mem_cons] at taken
    rcases taken with rfl | rfl | inside
    · simp [Contract.names]
    · simp [Contract.names]
    · exact List.mem_append_right _ (List.mem_append_left _ (List.mem_append_left _ inside))
  · rintro m ⟨q, suspend, question, waits⟩
    exact ⟨q, suspend, question, L.waits_eq ▸ waits⟩

/-- So does the lowered body. -/
theorem children_around (allowed : ∀ name ∈ L.prepared.calls, ¬ banned name) :
    ∀ c ∈ l.body.children, c.Around l.Asks (Node.Still l.contract l.fields banned) := by
  have expanded := L.expanded_around allowed
  have apart := L.added_apart.contract
  have assembled := L.assembled
  generalize l.body = root at assembled
  cases assembled with
  | mk i₀ i₁ i₂ i₃ i₄ i₅ i₆ i₇ =>
    have load : Node.Still l.contract l.fields banned
        ⟨i₁, .assign l.contract.localState ⟨i₂, .var l.contract.state⟩⟩ := by
      refine Node.Steady.still ⟨List.forall_mem_nil _, ?_, ?_, List.forall_mem_nil _, by rintro ⟨⟩,
        trivial, Node.not_departs (by rintro _ _ _ ⟨⟩)⟩ (by rintro ⟨⟩)
      · rintro _ _ ⟨⟩ same
        exact absurd same.symm apart
      · rintro _ _ ⟨⟩ _
        exact .inl rfl
    refine List.forall_mem_cons.2 ⟨.layer load (List.forall_mem_singleton.2
      (.plain rfl (List.forall_mem_nil _))), List.forall_mem_cons.2 ⟨.plain rfl ?_,
        List.forall_mem_cons.2 ⟨.plain rfl (List.forall_mem_singleton.2 expanded),
          List.forall_mem_singleton.2 (.plain rfl (List.forall_mem_nil _))⟩⟩⟩
    refine List.forall_mem_cons.2 ⟨.plain rfl (List.forall_mem_nil _),
      List.forall_mem_append.2 ⟨List.forall_mem_map.2 fun case member ↦ ?_,
        List.forall_mem_singleton.2 (.plain rfl (List.forall_mem_nil _))⟩⟩
    obtain ⟨_, _, _, leads⟩ := L.twin.leads 0 member
    exact leads.around apart

/-- A run may come to what stands in the lowered body. -/
theorem children_nodes (allowed : ∀ name ∈ L.prepared.calls, ¬ banned name) :
    ∀ c ∈ l.body.children, (l.underway records banned).Nodes c := fun c child ↦
  ⟨Node.mem_children_walk child (Node.mem_walk_self _),
    ((L.children_around allowed c child).imp fun _ still ↦ still.toSteady).refine
      fun _ asks ↦ asks.around⟩

include L in
/-- A way out stands beneath the question of its suspend point. -/
theorem asks_of_departs {n d : Node} (within : n ∈ l.body.walk) (child : d ∈ n.children)
    (departs : d.Departs l.contract) :
    ∃ q, IsQuestion l.contract q d n ∧ (Int64.ofNat q.index, q.awaiter) ∈ l.waits := by
  have around := @children_around l L (fun _ ↦ False) fun _ _ ↦ id
  have block := departs.kind
  have beneath (h : d.Around l.Asks (Node.Still l.contract l.fields fun _ ↦ False)) : False := by
    cases h with
    | out here =>
      obtain ⟨_, _, question, _⟩ := here
      cases question
      cases block
    | layer here => exact here.stays departs
  rw [Node.walk_eq] at within
  rcases List.mem_cons.1 within with rfl | within
  · exact (beneath (around d child)).elim
  · obtain ⟨c, top, within⟩ := List.mem_flatMap.1 within
    rcases (around c top).within within with here | ⟨b, -, ⟨q, suspend, question, waits⟩, within⟩
    · cases here with
      | out here =>
        obtain ⟨q, suspend, question, waits⟩ := here
        obtain ⟨-, rfl⟩ := question.parent_of_departs (Node.mem_walk_self n) child departs
        exact ⟨q, question, waits⟩
      | layer _ below => exact (beneath (below d child)).elim
    · obtain ⟨rfl, rfl⟩ := question.parent_of_departs within child departs
      exact ⟨q, question, waits⟩

include L in
/-- Only the questions of suspend points ask their awaiters whether they are completed. -/
theorem asks_of_mem {n : Node} {v : Variable} (within : n ∈ l.body.walk) (field : v ∈ l.fields)
    (asks : n.Asks v) : ∃ b ∈ l.body.walk, l.Asks b ∧ n ∈ b.walk := by
  have around := @children_around l L (fun _ ↦ False) fun _ _ ↦ id
  have awaiter : n.kind = .awaiter := by
    obtain ⟨_, shape⟩ := asks
    exact congrArg Shape.kind shape
  have other : n ≠ l.body := by
    rintro rfl
    have assembled := L.assembled
    generalize l.body = root at assembled awaiter
    cases assembled
    cases awaiter
  rw [Node.walk_eq] at within
  obtain ⟨c, top, within⟩ := List.mem_flatMap.1 ((List.mem_cons.1 within).resolve_left other)
  rcases (around c top).within within with here | ⟨b, above, question, inside⟩
  · cases here with
    | out here =>
      obtain ⟨_, _, question, _⟩ := here
      cases question
      cases awaiter
    | layer here => exact absurd asks (here.asks v field)
  · exact ⟨b, Node.mem_walk_trans above (Node.mem_children_walk top (Node.mem_walk_self _)),
      question, inside⟩

/-- A node outside of the ways out keeps the body running. -/
theorem opens {n : Node} (node : (l.underway records banned).Nodes n)
    (stays : ¬ n.Departs l.contract) : (l.underway records banned).Opens n := by
  obtain ⟨within, around⟩ := node
  cases around with
  | out leaves => exact absurd leaves.departs stays
  | layer here below =>
    exact ⟨⟨within, here⟩, fun c child ↦ ⟨Node.mem_children_walk child within, below c child⟩⟩

section Runs

variable (allowed : ∀ name ∈ L.prepared.calls, ¬ banned name)

include L allowed

/-- The lowered body itself does once it is entered. -/
theorem root_passes (st : Stage) : (l.underway records banned).Passes ⟨l.body, st⟩ where
  admits other := by
    have assembled := L.assembled
    generalize l.body = root at assembled other
    cases assembled
    exact absurd rfl other
  children := L.children_nodes allowed

/-- A node above a question stands in no way out. -/
theorem node_above {n question : Node} (asks : question.kind = .awaiter)
    (inside : question ∈ n.walk) (within : n ∈ l.body.walk) :
    n = l.body ∨ (l.underway records banned).Nodes n ∧ ¬ n.Departs l.contract := by
  have outside {d : Node} (departs : d.Departs l.contract) (above : n ∈ d.walk) : False :=
    departs.not_awaiter (Node.mem_walk_trans inside above) asks
  have all := within
  rw [Node.walk_eq] at within
  rcases List.mem_cons.1 within with same | within
  · exact .inl same
  · obtain ⟨d, child, within⟩ := List.mem_flatMap.1 within
    have around : n.Around l.WayOut (Node.Steady l.contract l.fields banned) :=
      ((@children_nodes l L banned records allowed d child).2.within within).resolve_right
        fun ⟨_, _, leaves, above⟩ ↦ outside leaves.departs above
    exact .inr ⟨⟨all, around⟩, fun departs ↦ outside departs (Node.mem_walk_self n)⟩

/-- The tasks above a question keep the body running. -/
theorem passes_above {question : Node} {K : List Steps.Task} (asks : question.kind = .awaiter)
    (lineage : Lineage l.body question K) : ∀ t ∈ K, (l.underway records banned).Passes t := by
  rintro ⟨n, st⟩ member
  obtain ⟨within, c, awaits, beneath⟩ := lineage.beneath _ member
  have inside : question ∈ n.walk := Node.mem_walk_of_mem_children beneath awaits.child
  rcases L.node_above allowed asks inside within with rfl | ⟨node, stays⟩
  · exact L.root_passes allowed st
  · have opens := opens node stays
    exact ⟨fun _ ↦ opens.admits, opens.children⟩

end Runs

/-! ### Runs -/

/-- A body is about to take a way out. -/
inductive AtWayOut (l : Lowered) : Configuration → Prop
  | mk {d : Node} {K : List Steps.Task} {σ : Frame} (departs : d.Departs l.contract) :
    AtWayOut l ⟨.enter d none, K, σ⟩

include L in
/-- A step of a body that is running, if it does not take a way out. -/
theorem step {c : Configuration} (h : (l.underway records banned).Holds l.body c) :
    AtWayOut l c ∨ (l.underway records banned).Holds l.body
      (next (l.underway records banned).s c) := by
  let I := l.underway records banned
  cases h with
  | @leave n r K σ lineage tasks frames yields =>
    refine .inr ((Invariant.Holds.leave lineage tasks frames yields).step L.underway_lawful ?_)
    rintro _ _ ⟨⟩
  | @enter n seek K σ lineage node tasks frames =>
    by_cases departs : n.Departs l.contract
    · cases seek with
      | none => exact .inl ⟨departs⟩
      | some label =>
        -- The way out has no label in it, so that nothing is found there.
        obtain ⟨wait, handOver, leave, shape⟩ := departs.shape
        have none : ∀ m ∈ [wait, handOver, leave], I.s.labels m label = false := by
          intro m member
          have child : m ∈ n.children := by
            rw [Node.children, shape]
            exact member
          have within := Node.mem_children_walk child node.1
          refine (LabelIndex.build_contains L.ids within label).trans ?_
          have empty := departs.labelsWithin
          rw [n.labelsWithin_eq, List.append_eq_nil_iff, List.flatMap_eq_nil_iff] at empty
          rw [empty.2 m child]
          rfl
        have skips : enterNode I.s n (some label) σ =
            give (.ok .unit) (noted I.s (.visit n.id (some label)) σ) := by
          simp only [enterNode, startNode, shape, fromLabel_eq_nil none]
          rfl
        refine .inr ?_
        rw [next]
        dsimp only
        rw [skips]
        refine .leave lineage tasks (frames.note _ (by rintro _ ⟨⟩))
          (Lockstep.yields_of_untold ?_ _ _)
        rw [shape]
        trivial
    · refine .inr ((Invariant.Holds.enter lineage node tasks frames).step L.underway_lawful ?_)
      rintro _ _ ⟨⟩ node
      exact opens node departs

variable {store : Store} {host : Host} {i : Int64}

/-- A body whose state is back at running is running. -/
theorem running_of_at {σ : Frame} (here : (L.voyage records store host i).At running running σ)
    (slots : ∀ v ∈ l.persisted, store.contains v.id = true) : l.Running banned σ := by
  have law : (L.voyage records store host i).Lawful := L.lawful
  refine ⟨here.state, here.localState, fun id inside ↦ ?_, fun v member ↦ ?_, fun _ ↦ here.awaiters,
    fun m member ↦ ?_⟩
  · rcases List.mem_cons.1 inside with rfl | field
    · exact here.locals _ law.apart law.stateFree
    · obtain ⟨v, member, rfl⟩ := List.mem_map.1 field
      rw [L.fields] at member
      refine here.locals _ (L.added_apart.awaiters v member).2 fun result ↦ ?_
      obtain ⟨w, result, same⟩ := List.mem_map.1 result
      refine L.added_apart.results w result (same ▸ ?_)
      exact List.mem_cons_of_mem _ (List.mem_cons_of_mem _ field)
  · by_cases isState : v.id = l.contract.state.id
    · have held : σ.persisted.get? l.contract.state.id = some (.int running) := here.state
      rw [isState, Store.contains, held]
      rfl
    · rw [Store.contains, here.persisted v.id isState]
      exact slots v member
  · obtain ⟨way, isWay, onWay⟩ := here.moments
    obtain rfl : σ.moments = way := isWay.trans (List.append_nil way)
    have quiet := (onWay m member).event
    refine ⟨fun called ↦ ?_, fun visits d within same ↦ ?_⟩
    · rw [called] at quiet
      exact quiet.elim
    · exact ((onWay m member).visit visits d within same).stays

/-- Until the state is back at running only idle nodes are visited. -/
theorem idle_of_at {σ : Frame} (here : (L.voyage records store host i).At running running σ)
    {m : Moment} (member : m ∈ σ.moments) {id : NodeId} {seek : Option SymbolId}
    (visits : m.event = .visit id seek) {n : Node} (within : n ∈ l.body.walk) (same : n.id = id) :
    n.Idle l.contract := by
  obtain ⟨way, isWay, onWay⟩ := here.moments
  obtain rfl : σ.moments = way := isWay.trans (List.append_nil way)
  exact (onWay m member).visit visits n within same

/-- Whatever its state, a body comes to where it is running, and visits idle nodes only
until then. -/
theorem sets_out (allowed : ∀ name ∈ L.prepared.calls, ¬ banned name) (records : Bool) (host : Host)
    (slots : ∀ v ∈ l.persisted, store.contains v.id = true)
    (waits : store.get? l.contract.state.id = some (.int i))
    (known : i = running ∨ i ∈ L.added.table.flatMap Case.tests) :
    ∃ c, (system (l.underway records banned).s).Reaches
      (start l.body none { persisted := store, host }) c ∧
        (l.underway records banned).Holds l.body c ∧
        ∀ m ∈ c.frame.moments, ∀ {id seek}, m.event = .visit id seek →
          ∀ n ∈ l.body.walk, n.id = id → n.Idle l.contract := by
  -- A body that is running is entered at the start; another one seeks its own suspend point.
  rcases known with rfl | inside
  · obtain ⟨declared, load, dispatch, leave, exit, shape⟩ : ∃ declared load dispatch leave exit,
        l.body.shape = .block declared [load, dispatch, leave, exit] := by
      have assembled := L.assembled
      generalize l.body = root at assembled
      cases assembled
      exact ⟨_, _, _, _, _, rfl⟩
    obtain ⟨σ, here, reach⟩ := L.loads records host waits shape
    obtain ⟨n, lineage, isNode⟩ := Invariant.lineage_of_reaches _ reach
    obtain rfl : n = dispatch := isNode _ _ rfl
    have child : n ∈ l.body.children := by
      rw [Node.children, shape]
      exact List.mem_cons_of_mem _ List.mem_cons_self
    exact ⟨_, reach, .enter lineage (L.children_nodes allowed n child)
      (List.forall_mem_singleton.2 (L.root_passes allowed _)) (L.running_of_at here slots),
      fun m member _ _ visits n within same ↦ L.idle_of_at here member visits within same⟩
  · have filled (id : SymbolId) (keep : l.keeps id) : ∃ v, store.get? id = some v := by
      obtain ⟨v, hoisted, rfl⟩ := List.mem_map.1 keep
      refine Option.isSome_iff_exists.1 (slots v ?_)
      exact List.mem_cons_of_mem _ (List.mem_append_left _ hoisted)
    obtain ⟨_, p, _, n, label, question, within, isPoint, _, goesOn, σ, K, here, _, reach⟩ :=
      L.reaches_question records host waits filled inside
    obtain ⟨m, lineage, isNode⟩ := Invariant.lineage_of_reaches _ reach
    obtain rfl : m = question := isNode _ _ rfl
    obtain ⟨k, shape⟩ := goesOn.asks
    have asks : m.kind = .awaiter := by rw [Node.kind, shape]; rfl
    have node : (l.underway records banned).Nodes m := by
      rcases @node_above l L banned records allowed m m asks (Node.mem_walk_self m)
        lineage.within with same | ⟨node, -⟩
      · have assembled := L.assembled
        rw [← same] at assembled
        cases assembled
        cases asks
      · exact node
    exact ⟨_, reach, .enter lineage node (L.passes_above allowed asks lineage)
      (L.running_of_at here slots),
      fun m member _ _ visits n within same ↦ L.idle_of_at here member visits within same⟩

end Layout

end Suspension
