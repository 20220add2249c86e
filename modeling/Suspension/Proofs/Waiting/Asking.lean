import Suspension.Proofs.Waiting.Points

/-!
# Asking an awaiter

A suspend point acquires an awaiter from its operand and asks it whether it is completed. If it is,
the body goes on to the label. If not, the body takes the way out, the session completes the future
and makes the next run, and that one comes to the label. Behind the label the outcome is asked for.
Either way the session leaves the suspend point as the run in one piece does that waits there
(`Layout.leaves_point`).
-/

namespace Suspension

open Steps Eval TransitionSystem Session

/-- A session of a lowered body under way, since it was started. -/
structure Lowered.Aboard (l : Lowered) (s : Session) (d : UnderWay) : Prop where
  serves : l.Serves d.machine
  reached : driving.Reaches s.begins d

namespace Lowered.Aboard

variable {l : Lowered} {s : Session} {m : Machine} {c c' : Configuration} {d d' : UnderWay}

theorem setting (h : l.Aboard s ⟨m, c⟩) : ({ labels := m.labels } : Setting) = l.setting := by
  rw [Lowered.setting, h.serves.labels]

/-- It is in one of its runs. -/
theorem run (h : l.Aboard s d) : ∃ store host,
    (system l.setting).Reaches (start l.body none { persisted := store, host }) d.here := by
  obtain ⟨t, -, machine, reach⟩ := Session.resumed_of_reaches h.reached
  have body : t.machine.body = l.body := machine ▸ h.serves.body
  have labels : t.machine.labels = LabelIndex.build l.body := machine ▸ h.serves.labels
  rw [Session.begins, UnderWay.setting, labels, body] at reach
  exact ⟨_, _, reach⟩

/-- What its run comes by, a session comes by. -/
theorem reaches (h : l.Aboard s ⟨m, c⟩) (reach : (system l.setting).Reaches c c') :
    driving.Reaches ⟨m, c⟩ ⟨m, c'⟩ :=
  reaches_of_run (by rw [h.setting]; exact reach)

theorem proceeds (h : l.Aboard s ⟨m, c⟩) (live : c.result? = none)
    (reach : (system l.setting).Proceeds c c') : driving.Proceeds ⟨m, c⟩ ⟨m, c'⟩ :=
  proceeds_of_run live (by rw [h.setting]; exact reach)

theorem later (h : l.Aboard s d) (serves : l.Serves d'.machine) (reach : driving.Reaches d d') :
    l.Aboard s d' :=
  ⟨serves, h.reached.trans reach⟩

theorem next (h : l.Aboard s ⟨m, c⟩) (reach : (system l.setting).Reaches c c') :
    l.Aboard s ⟨m, c'⟩ :=
  h.later h.serves (h.reaches reach)

theorem upkept (h : l.Aboard s d) : d.here.Upkept := by
  obtain ⟨store, host, reach⟩ := h.run
  exact (Configuration.Upkept.start l.body none store host).of_reaches reach

theorem lineage (h : l.Aboard s d) : ∃ n, Lineage l.body n d.here.tasks ∧
    ∀ k sought, d.here.control = .enter k sought → n = k := by
  obtain ⟨store, host, reach⟩ := h.run
  exact Invariant.lineage_of_reaches l.setting reach

end Lowered.Aboard

/-- A machine that waits for a future makes the next run when the future is completed. -/
theorem Lowered.Serves.goes_on {l : Lowered} {m : Machine} (h : l.Serves m) {i : Int64} {cell : Nat}
    {τ : Frame} (waits : ¬ i < 0) (state : τ.persisted.get? l.contract.state.id = some (.int i))
    (awaiter : τ.awaiters.back? = some (.future cell)) :
    ∃ m', l.Serves m' ∧ driving.Proceeds ⟨m, ⟨.leave (.ok .unit), [], τ⟩⟩ ⟨m', start l.body none
      { persisted := τ.persisted, host := τ.host.changeFuture cell Future.complete }⟩ := by
  let moved : Machine :=
    { m with persisted := τ.persisted, callbacks := m.callbacks + τ.awaiters.size }
  have stopped : after m (.ok .unit) τ = (.ok (.suspended (.future cell)), ⟨moved, τ.host⟩) := by
    have slot : moved.persisted.get? moved.stateVar.id = some (.int i) := by
      rw [← state, ← h.stateVar]
    have state : moved.state = i := by rw [Machine.state, slot]
    show (progress moved τ.host τ.awaiters (.normal .unit), _) = _
    rw [progress, state, if_neg waits, awaiter]
  refine ⟨{ moved with resumptions := m.resumptions + 1 }, ⟨h.body, h.labels, h.stateVar⟩, ?_⟩
  have goes := proceeds_of_suspended stopped
  rw [Session.begins] at goes
  have body : ((⟨moved, τ.host⟩ : Session).resume (.future cell)).machine.body = l.body := h.body
  rw [body] at goes
  exact goes

namespace Layout

variable {l : Lowered} {L : Layout l} {params : List SymbolId} {A : Scope} {σ τ : Frame}
variable {K K' : List Steps.Task} {q : Point} {s : Session} {m : Machine}

/-! ### The next run -/

/-- A frame of the next run tells the same of what outlives the runs. -/
theorem resumed (fair : L.Fair params) (bare : A.bound = []) (handling : τ.handling = [])
    (h : Abreast (l.outlasts params) L.New l A σ τ) {store : Store} {host : Host} {τ' : Frame}
    (same : ∀ id, id ≠ l.contract.state.id → store.get? id = τ.persisted.get? id)
    (slots : ∀ v ∈ l.persisted, store.contains v.id = true) (alike : σ.host.Alike host) {i : Int64}
    (here : (L.voyage false store host i).At running running τ') :
    Abreast (l.outlasts params) L.New l A σ τ' := by
  have names {id : SymbolId} (old : ¬ L.New id) : id ≠ l.contract.state.id ∧
      id ≠ l.contract.localState.id ∧ id ∉ L.added.results.map Variable.id := by
    simp only [New, Contract.names, Added.names, List.mem_append, List.mem_cons] at old
    tauto
  have persisted {id : SymbolId} (old : ¬ L.New id) :
      τ'.persisted.get? id = τ.persisted.get? id := by
    rw [here.persisted id (names old).1]
    exact same id (names old).1
  refine ⟨⟨?_, ?_, fun id stays ↦ ?_, fun id other old ↦ ?_, ?_, h.alike.held⟩,
    L.running_of_at here slots⟩
  · rw [here.host]
    exact alike
  · rw [here.handling, h.alike.handling, handling]
    rfl
  · obtain ⟨none, -, v, value, value'⟩ := h.alike.kept id stays
    have old := fair.outlasts_old stays
    exact ⟨none, here.locals id (names old).2.1 (names old).2.2, v, value,
      (persisted old).trans value'⟩
  · rw [persisted old]
    exact h.alike.others id other old
  · rw [bare]
    exact List.forall_mem_nil _

/-- No clause is among the tasks at the top of a lowered body, nor among those of a
suspend point. -/
theorem OuterTasks.handlers {e n : Node} {ts : List Steps.Task} (h : OuterTasks e n ts) :
    ts.countP Task.isHandler = 0 := by
  cases h
  rfl

theorem handlers_of_operandTasks {acquire : Option String} {o e : Node} {ts : List Steps.Task}
    (h : OperandTasks acquire o e ts) : ts.countP Task.isHandler = 0 := by
  cases h
  cases acquire <;> rfl

/-- Nothing that handles an exception stands above a place of a track. -/
theorem handlers_of_tracks {slots : SymbolId → Option Value} {p e : Node} {X : Added}
    (tracks : Tracks L slots p e X K') : K'.countP Task.isHandler = 0 := by
  obtain ⟨K₁, K₀, rfl, outer, track⟩ := tracks
  rw [List.countP_append, outer.handlers, Nat.add_zero]
  induction track with
  | root => rfl
  | layer outer twin member opens ih =>
    rw [List.countP_cons, ih]
    cases opens <;> rfl
  | operand outer isPoint twin tasks ih =>
    rw [List.countP_append, handlers_of_operandTasks tasks, ih]
  | body outer entered twin tasks ih =>
    rw [List.countP_append, ih]
    cases tasks
    rfl

/-! ### The question whether a future is completed -/

/-- The branch of a suspend point. -/
def waitBranch (q : Point) (suspend : Node) (i j k n : NodeId) : Node :=
  ⟨i, .branch ⟨j, .unary .not ⟨k, .awaiter .isCompleted ⟨n, .var q.awaiter⟩⟩⟩ suspend none⟩

/-- The awaiter of a suspend point is asked whether it is completed. -/
theorem reaches_asked (K' : List Steps.Task) (suspend : Node) (i j k n : NodeId) {awaiter : Value}
    (held : lookup τ q.awaiter.id = some awaiter) :
    match cell? τ.host awaiter with
    | none => ∃ place, (system l.setting).Reaches
      ⟨.enter (waitBranch q suspend i j k n) none, K', τ⟩
        ⟨.leave (.error (.stop (.fault ⟨.notAwaitable awaiter.type, place⟩))), K', τ⟩
    | some (_, f) => (system l.setting).Reaches ⟨.enter (waitBranch q suspend i j k n) none, K', τ⟩
        (if f.isCompleted then ⟨.leave (.ok .unit), K', τ⟩
          else ⟨.enter suspend none, ⟨waitBranch q suspend i j k n, .arm⟩ :: K', τ⟩) := by
  let question : Node := ⟨k, .awaiter .isCompleted ⟨n, .var q.awaiter⟩⟩
  have asks : (system l.setting).Reaches ⟨.enter (waitBranch q suspend i j k n) none, K', τ⟩
      ⟨.leave (.ok awaiter), ⟨question, .operand⟩ :: ⟨⟨j, .unary .not question⟩, .operand⟩ ::
        ⟨waitBranch q suspend i j k n, .test⟩ :: K', τ⟩ :=
    (reaches_child rfl).trans ((reaches_child rfl).trans ((reaches_child rfl).trans
      (reaches_load held)))
  cases asked : cell? τ.host awaiter with
  | none =>
    have faults : leaveTo l.setting ⟨question, .operand⟩ (.ok awaiter) τ =
        give (.error (.stop (.fault ⟨.notAwaitable awaiter.type, some k⟩))) τ := by
      show perform (Evaluator.awaiterStep .isCompleted awaiter question) τ = _
      rw [perform, Evaluator.awaiterStep, bind_apply, cell_apply, asked]
      rfl
    exact ⟨_, asks.trans ((reaches_over faults).trans
      ((reaches_over rfl).trans (reaches_over rfl)))⟩
  | some c =>
    obtain ⟨cell, f⟩ := c
    have answers : leaveTo l.setting ⟨question, .operand⟩ (.ok awaiter) τ =
        give (.ok (.bool f.isCompleted)) τ := by
      show perform (Evaluator.awaiterStep .isCompleted awaiter question) τ = _
      rw [perform, Evaluator.awaiterStep, bind_apply, cell_apply, asked]
      rfl
    refine asks.trans ((reaches_over answers).trans ((reaches_over rfl).trans ?_))
    cases f.isCompleted
    · exact reaches_sibling rfl
    · exact reaches_over rfl

/-- What a suspend point adds is among what the expansion adds. -/
theorem Fits.of_point {p e entry : Node} {X : Added}
    (fits : L.Fits params A (.twin p e (X ++ .ofPoint q entry))) :
    q.awaiter ∈ l.fields ∧ (∀ v ∈ q.result, v ∈ L.added.results) ∧ A.bound = [] := by
  refine ⟨?_, fun v result ↦ fits.adds.results ?_, fits.bare (by simp [Part.added, Added.ofPoint])⟩
  · rw [L.fields]
    exact fits.adds.fields (List.mem_append_right _ List.mem_cons_self)
  · exact List.mem_append_right _ (Option.mem_toList.2 result)

/-! ### The way out and the next run -/

/-- The variables that operands were read from keep their values in storage when the state
is set. -/
theorem held_persisted (h : Abreast (l.outlasts params) L.New l A σ τ) (state : Value) :
    ∀ r ∈ A.held, l.keeps r.1 →
      (τ.persisted.insert l.contract.state.id state).get? r.1 = some r.2 := by
  intro r inside keeps
  have held := h.alike.held r inside
  obtain ⟨free, -, v, value, value'⟩ := h.alike.kept r.1 (.inl keeps)
  rw [lookup, free, value] at held
  have other : r.1 ≠ l.contract.state.id := fun same ↦
    L.apart r.1 (same ▸ List.mem_cons_self) (L.keeps_symbols keeps)
  rw [Store.get?_insert, if_neg other, value']
  exact held

/-- The state of a suspend point is one of those that were given. -/
theorem exists_state {slots : SymbolId → Option Value} {p e entry : Node} {X : Added}
    {K : List Steps.Task}
    (track : Track l.keeps slots l.contract L.prepared.settle L.expanded L.added
      p e (X ++ .ofPoint q entry) K) :
    ∃ i < l.stateCount, Int64.ofNat q.index = Int64.ofNat i := by
  have inside : Int64.ofNat q.index ∈ (X ++ Added.ofPoint q entry).table.flatMap Case.tests := by
    simp [Added.ofPoint]
  have among := tests_of_track track inside
  rw [L.tests] at among
  obtain ⟨i, below, same⟩ := List.mem_map.1 among
  exact ⟨i, List.mem_range.1 below, same.symm⟩

/-- No exception is handled at a suspend point. -/
theorem handling_of_tracks {slots : SymbolId → Option Value} {p e n : Node} {X : Added}
    {rest : List Node} {control : Control} (tracks : Tracks L slots p e X K')
    (aboard : l.Aboard s ⟨m, ⟨control, ⟨n, .statements rest⟩ :: K', τ⟩⟩) : τ.handling = [] := by
  have counted : τ.handling.length = (⟨n, .statements rest⟩ :: K').countP Task.isHandler :=
    aboard.upkept.handling
  rw [List.countP_cons, handlers_of_tracks tracks] at counted
  exact List.length_eq_zero_iff.1 counted

include L in
/-- A session whose future is not completed takes the way out, completes the future and makes the
next run. -/
theorem goes_out {suspend : Node} {i j k n : NodeId} {index cell : Nat} {f : Future}
    {below : List Steps.Task} (suspension : IsSuspension l.contract q suspend)
    (field : q.awaiter ∈ l.fields) (small : index < l.stateCount)
    (same : Int64.ofNat q.index = Int64.ofNat index)
    (aboard : l.Aboard s ⟨m, ⟨.enter (waitBranch q suspend i j k n) none, below, τ⟩⟩)
    (held : lookup τ q.awaiter.id = some (.future cell)) (future : τ.host.future? cell = some f)
    (pending : f.isCompleted = false) (h : l.Running (fun _ ↦ False) τ) :
    ∃ m', l.Serves m' ∧ τ.persisted.get? q.awaiter.id = some (.future cell) ∧
      driving.Reaches ⟨m, ⟨.enter (waitBranch q suspend i j k n) none, below, τ⟩⟩
        ⟨m', start l.body none
          { persisted := τ.persisted.insert l.contract.state.id (.int (Int64.ofNat q.index))
            host := τ.host.changeFuture cell Future.complete }⟩ := by
  let branch : Node := waitBranch q suspend i j k n
  let question : Node := ⟨k, .awaiter .isCompleted ⟨n, .var q.awaiter⟩⟩
  -- The awaiter says that it is not completed.
  have asked := reaches_asked (l := l) below suspend i j k n held
  have cell' : cell? τ.host (.future cell) = some (cell, f) := by rw [cell?, future]; rfl
  rw [cell'] at asked
  dsimp only at asked
  rw [if_neg (by simp [pending])] at asked
  -- All that stands above the branch lets the way out pass.
  have questioned : (system l.setting).Reaches ⟨.enter branch none, below, τ⟩
      ⟨.enter question none, ⟨⟨j, .unary .not question⟩, .operand⟩ :: ⟨branch, .test⟩ ::
      below, τ⟩ :=
    (reaches_child rfl).trans (reaches_child rfl)
  have allowed : ∀ name ∈ L.prepared.calls, ¬ (fun _ ↦ False : String → Prop) name := fun _ _ ↦ id
  have passes : ∀ t ∈ ⟨branch, .test⟩ :: below, (l.underway false fun _ ↦ False).Passes t := by
    obtain ⟨_, lineage, here⟩ := (aboard.next questioned).lineage
    obtain rfl := here _ _ rfl
    exact fun t member ↦ L.passes_above allowed rfl lineage t (List.mem_cons_of_mem _ member)
  have lineage : Lineage l.body branch below := by
    obtain ⟨_, lineage, here⟩ := aboard.lineage
    obtain rfl := here _ _ rfl
    exact lineage
  obtain ⟨awaiter, τ₁, stored, persisted, host, awaiters, out⟩ := L.reaches_way_out q lineage passes
    (d := suspend) List.mem_cons_self suspension field
    (Node.mem_children_walk (List.mem_cons_of_mem _ List.mem_cons_self) lineage.within) small same h
  -- What is handed over is the future that the session completes.
  have free : τ.locals.get? q.awaiter.id = none :=
    h.outside _ (List.mem_cons_of_mem _ (List.mem_map_of_mem field))
  obtain rfl : awaiter = .future cell := by
    rw [lookup, free, stored] at held
    exact Option.some.inj held
  have state : τ₁.persisted.get? l.contract.state.id = some (.int (Int64.ofNat q.index)) := by
    rw [persisted, Store.get?_insert, if_pos rfl]
  have last : τ₁.awaiters.back? = some (.future cell) := by rw [awaiters, Array.back?_push]
  obtain ⟨m', serves, goes⟩ :=
    aboard.serves.goes_on (L.index_nonneg ⟨index, small, same⟩) state last
  rw [persisted, host] at goes
  exact ⟨m', serves, stored, (aboard.reaches (asked.trans out)).trans goes.reaches⟩

/-- A session whose future is not completed takes the way out, and its next run comes to
the label. -/
theorem reaches_label (fair : L.Fair params) {p e entry a label suspend : Node} {X : Added}
    {declared : List Variable} {rest waiting' : List Node} {i j k n : NodeId} {cell : Nat}
    {f : Future}
    (fits : L.Fits params A (.twin p e (X ++ .ofPoint q entry)))
    (isReturn : IsReturn l.contract q.label entry)
    (outer : L.Stacks params A (.twin p e (X ++ .ofPoint q entry)) K K')
    (shape : e.shape = .block declared (a :: waitBranch q suspend i j k n :: label :: rest))
    (results : declared = q.result.toList) (isLabel : label.shape = .label q.label)
    (suspension : IsSuspension l.contract q suspend)
    (aboard : l.Aboard s ⟨m, ⟨.enter (waitBranch q suspend i j k n) none,
      ⟨e, .statements waiting'⟩ :: K', τ⟩⟩)
    (held : lookup τ q.awaiter.id = some (.future cell)) (future : τ.host.future? cell = some f)
    (pending : f.isCompleted = false) (h : Abreast (l.outlasts params) L.New l A σ τ) :
    ∃ m' τ', l.Serves m' ∧ Abreast (l.outlasts params) L.New l A σ τ' ∧
      lookup τ' q.awaiter.id = some (.future cell) ∧ τ'.host.future? cell = some f.complete ∧
      (∀ v ∈ q.result, τ'.locals.contains v.id = true) ∧
      driving.Reaches
        ⟨m, ⟨.enter (waitBranch q suspend i j k n) none, ⟨e, .statements waiting'⟩ :: K', τ⟩⟩
        ⟨m', ⟨.enter label (some q.label.id), ⟨e, .statements rest⟩ :: K', τ'⟩⟩ := by
  obtain ⟨field, -, bare⟩ := fits.of_point
  let store : Store := τ.persisted.insert l.contract.state.id (.int (Int64.ofNat q.index))
  have tracked : Tracked L store.get? K' (.twin p e (X ++ .ofPoint q entry)) :=
    outer.tracked (by simp [Part.added, Added.ofPoint]) (held_persisted h _)
  have handling : τ.handling = [] := handling_of_tracks tracked aboard
  obtain ⟨K₁, K₀, rfl, bottom, track⟩ := tracked
  obtain ⟨i', small, same⟩ := exists_state track
  obtain ⟨m', serves, stored, left⟩ :=
    L.goes_out suspension field small same aboard held future pending h.running
  -- The next run finds its way back along the track.
  obtain ⟨τ₂, here, declares, resumes⟩ := resumes_at (L := L)
    (τ.host.changeFuture cell Future.complete) track bottom isReturn shape isLabel results
    (by rw [Store.get?_insert, if_pos rfl])
  have onward := aboard.later serves left
  have other {id : SymbolId} (h : id ≠ l.contract.state.id) :
      store.get? id = τ.persisted.get? id := by
    rw [Store.get?_insert, if_neg h]
  have here' : Abreast (l.outlasts params) L.New l A σ τ₂ := by
    refine resumed fair bare handling h (fun id ↦ other) (fun v member ↦ ?_)
      (h.alike.host.complete_right cell) here
    rw [Store.contains_insert, h.running.slots v member, Bool.or_true]
  have apart := L.added_apart.awaiters q.awaiter (L.fields ▸ field)
  refine ⟨m', τ₂, serves, here', ?_, ?_, declares, left.trans (onward.reaches resumes)⟩
  · rw [lookup, here'.running.outside _ (List.mem_cons_of_mem _ (List.mem_map_of_mem field)),
      here.persisted _ apart.1]
    exact (other apart.1).trans stored
  · rw [here.host]
    show (τ.host.changeFuture cell Future.complete).future? cell = _
    rw [Host.future?, Host.changeFuture, Array.getElem?_modify, if_pos rfl]
    rw [Host.future?] at future
    rw [future]
    rfl

end Layout

end Suspension
