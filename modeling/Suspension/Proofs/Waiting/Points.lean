import Suspension.Proofs.Suspending.Course
import Suspension.Proofs.Waiting.Stacks

/-!
# Waiting in one piece and in several

Where a body that waits for its futures comes to a suspend point, it waits and goes on with the
outcome. Its lowered form goes on if the future is completed, and takes the way out otherwise. The
future is completed then, and the next run comes to the label of the suspend point by the track that
stood above it (`Layout.resumes_at`). Either way the outcome is asked for behind the label, and the
two runs leave the suspend point alike (`Layout.leaves_point`).
-/

namespace Suspension

open Steps Eval TransitionSystem

/-- What a suspend point ends with, whose value may be of no interest. -/
def Point.ends (q : Point) : Outcome → Outcome
  | .ok v => .ok (if q.result.isSome then v else .unit)
  | .error e => .error e

/-- Where a value can be given to a variable. -/
theorem exists_assigned (s : Setting) {v : Variable} (value : Value) {τ : Frame}
    (h : τ.locals.contains v.id = true ∨ τ.persisted.contains v.id = true) :
    ∃ τ', assigned? s v value τ = some τ' := by
  rw [assigned?]
  split
  · exact ⟨_, rfl⟩
  · rename_i free
    rw [if_pos (h.resolve_left free)]
    exact ⟨_, rfl⟩

/-- An assignment leaves the other variables alone. -/
theorem lookup_assigned_ne {s : Setting} {v : Variable} {value : Value} {τ τ' : Frame}
    (set : assigned? s v value τ = some τ') {id : SymbolId} (other : id ≠ v.id) :
    lookup τ' id = lookup τ id := by
  rw [assigned?] at set
  split at set
  · cases set
    simp [lookup, other]
  · split at set
    · cases set
      simp [lookup, other]
    · cases set

/-- A machine of a lowered body, with any storage. -/
structure Lowered.Serves (l : Lowered) (m : Machine) : Prop where
  body : m.body = l.body
  labels : m.labels = LabelIndex.build l.body
  stateVar : m.stateVar = l.contract.state

namespace Layout

variable {l : Lowered} {L : Layout l} {params : List SymbolId} {A : Scope} {σ τ : Frame}
variable {K K' : List Steps.Task} {q : Point}

/-- What outlives the runs is not new. -/
theorem Fair.outlasts_old (fair : L.Fair params) {id : SymbolId} (h : l.outlasts params id) :
    ¬ L.New id := by
  rcases h with kept | param
  · exact fun new ↦ L.apart id new (L.keeps_symbols kept)
  · exact fair.old id param

/-- The variable of a suspend point that holds the awaiter is given a value. -/
theorem exists_awaiter_set (fair : L.Fair params) (bare : A.bound = [])
    (field : q.awaiter ∈ l.fields)
    (value : Value) (h : Abreast (l.outlasts params) L.New l A σ τ) :
    ∃ τ', assigned? l.setting q.awaiter value τ = some τ' ∧
      Abreast (l.outlasts params) L.New l A σ τ' := by
  have slot : τ.persisted.contains q.awaiter.id = true :=
    h.running.slots _ (List.mem_cons_of_mem _ (List.mem_append_right _ field))
  obtain ⟨τ', set⟩ := exists_assigned l.setting value (.inr slot)
  have apart := L.added_apart.awaiters q.awaiter (L.fields ▸ field)
  exact ⟨τ', set, h.assign_right bare (fun id ↦ fair.outlasts_old) set (L.new_of_slot
    (List.mem_cons_of_mem _ (List.mem_cons_of_mem _ (List.mem_map_of_mem field))))
    (fun same ↦ absurd same apart.1) (fun same ↦ absurd same apart.2)⟩

/-! ### Behind the label -/

/-- Both copies of the state go back to running. -/
theorem updates (fair : L.Fair params) (bare : A.bound = []) {run : Node}
    (update : IsUpdate l.contract running run)
    (h : Abreast (l.outlasts params) L.New l A σ τ) :
    ∃ τ', Abreast (l.outlasts params) L.New l A σ τ' ∧
      (∀ id, id ≠ l.contract.state.id → id ≠ l.contract.localState.id →
        lookup τ' id = lookup τ id) ∧
      (system l.setting).Reaches ⟨.enter run none, K', τ⟩ ⟨.leave (.ok (.int running)), K',
        τ'⟩ := by
  cases update with
  | mk i j k =>
    have old := fun id ↦ @Fair.outlasts_old l L params fair id
    have slot : τ.persisted.contains l.contract.state.id = true := by
      rw [Store.contains, h.running.state]
      rfl
    obtain ⟨τ₁, set₁⟩ := exists_assigned l.setting (.int running) (.inr slot)
    have h₁ := h.assign_right bare old set₁ (L.new_of_slot List.mem_cons_self) (fun _ ↦ rfl)
      fun _ ↦ rfl
    have slot' : τ₁.locals.contains l.contract.localState.id = true := by
      rw [Store.contains, h₁.running.localState]
      rfl
    obtain ⟨τ₂, set₂⟩ := exists_assigned l.setting (.int running) (.inl slot')
    have h₂ := h₁.assign_right bare old set₂
      (L.new_of_slot (List.mem_cons_of_mem _ List.mem_cons_self)) (fun _ ↦ rfl) fun _ ↦ rfl
    refine ⟨τ₂, h₂, fun id state localState ↦ ?_,
      (reaches_child rfl).trans ((reaches_child rfl).trans ((reaches_value rfl).trans
        ((reaches_assigned rfl set₁).trans (reaches_assigned rfl set₂))))⟩
    rw [lookup_assigned_ne set₂ localState, lookup_assigned_ne set₁ state]

/-- A future that is completed is asked for its outcome. -/
theorem reaches_result {i k : NodeId} {v : Variable} {cell : Nat} {f : Future}
    (held : lookup τ v.id = some (.future cell)) (future : τ.host.future? cell = some f)
    (completed : f.isCompleted = true) :
    (system l.setting).Reaches ⟨.enter ⟨i, .awaiter .getResult ⟨k, .var v⟩⟩ none, K', τ⟩
      ⟨.leave (f.outcome.mapError Exit.thrown), K', τ⟩ := by
  refine (reaches_child rfl).trans ((reaches_load held).trans (reaches_over ?_))
  have outcome : f.outcome? = some f.outcome := if_pos completed
  show perform (Evaluator.awaiterStep .getResult (.future cell) _) τ = _
  rw [perform, Evaluator.awaiterStep, bind_apply, cell_apply, cell?, future]
  dsimp only [Option.map_some]
  rw [result, outcome]
  cases f.outcome <;> rfl

/-- The outcome is asked for, and kept if it is of interest. An exception leaves the block
at once. -/
theorem reaches_outcome (fair : L.Fair params) (bare : A.bound = []) {n outcome : Node}
    {rest : List Node} (outcomes : IsOutcome q outcome)
    (results : ∀ v ∈ q.result, v ∈ L.added.results)
    {cell : Nat} {f : Future} (held : lookup τ q.awaiter.id = some (.future cell))
    (future : τ.host.future? cell = some f) (completed : f.isCompleted = true)
    (declared : ∀ v ∈ q.result, τ.locals.contains v.id = true)
    (h : Abreast (l.outlasts params) L.New l A σ τ) :
    match f.outcome with
    | .error ex => (system l.setting).Reaches ⟨.enter outcome none, ⟨n, .statements rest⟩ :: K', τ⟩
        ⟨.leave (.error (.thrown ex)), K', τ⟩
    | .ok v => ∃ τ₁, Abreast (l.outlasts params) L.New l A σ τ₁ ∧
        (∀ u ∈ q.result, lookup τ₁ u.id = some v) ∧
        (system l.setting).Reaches ⟨.enter outcome none, ⟨n, .statements rest⟩ :: K', τ⟩
          ⟨.leave (.ok v), ⟨n, .statements rest⟩ :: K', τ₁⟩ := by
  have asked {k j : NodeId} {K : List Steps.Task} :=
    @reaches_result l τ K k j _ _ _ held future completed
  -- An exception passes both blocks; a value is kept in the variable of the point, if any.
  cases ended : f.outcome with
  | error ex =>
    rw [ended] at asked
    cases outcomes with
    | dropped j k => exact asked.trans (reaches_over rfl)
    | kept i j k =>
      exact (reaches_child rfl).trans (asked.trans ((reaches_over rfl).trans (reaches_over rfl)))
  | ok v =>
    rw [ended] at asked
    cases outcomes with
    | dropped j k none =>
      refine ⟨τ, h, fun u result ↦ ?_, asked⟩
      rw [none] at result
      cases result
    | @kept i j k u some =>
      have result := results u some
      obtain ⟨τ₁, set⟩ := exists_assigned l.setting v (.inl (declared u some))
      have apart := L.added_apart.results u result
      have h₁ := h.assign_right bare (fun id ↦ fair.outlasts_old) set
        (List.mem_append_right _ (List.mem_append_left _ (List.mem_append_right _
          (List.mem_map_of_mem result))))
        (fun same ↦ absurd (same ▸ List.mem_cons_self) apart)
        (fun same ↦ absurd (same ▸ List.mem_cons_of_mem _ List.mem_cons_self) apart)
      refine ⟨τ₁, h₁, fun w result ↦ ?_, (reaches_child rfl).trans (asked.trans
        (reaches_assigned rfl set))⟩
      obtain rfl := Option.some.inj (some.symm.trans result)
      exact lookup_assigned _ _ set

/-- Behind its label a suspend point asks for the outcome, and is left with it. -/
theorem reaches_end (K' : List Steps.Task) (n : Node) (i₁ i₂ i₃ : NodeId) (fair : L.Fair params)
    (bare : A.bound = []) {outcome run : Node} (outcomes : IsOutcome q outcome)
    (update : IsUpdate l.contract running run)
    (field : q.awaiter ∈ l.fields) (results : ∀ v ∈ q.result, v ∈ L.added.results)
    {cell : Nat} {f : Future} (held : lookup τ q.awaiter.id = some (.future cell))
    (future : τ.host.future? cell = some f) (completed : f.isCompleted = true)
    (declared : ∀ v ∈ q.result, τ.locals.contains v.id = true)
    (h : Abreast (l.outlasts params) L.New l A σ τ) :
    ∃ τ', Abreast (l.outlasts params) L.New l A σ τ' ∧ (system l.setting).Reaches
      ⟨.enter outcome none, ⟨n, .statements [⟨i₁, .assign q.awaiter ⟨i₂, .defaultOf .any⟩⟩, run,
        ⟨i₃, q.valueShape⟩]⟩ :: K', τ⟩ ⟨.leave (q.ends (f.outcome.mapError .thrown)), K', τ'⟩ := by
  have asked := @reaches_outcome l L params A σ τ K' q fair bare n outcome [⟨i₁, .assign q.awaiter
    ⟨i₂, .defaultOf .any⟩⟩, run, ⟨i₃, q.valueShape⟩] outcomes results cell f held future completed
    declared h
  cases ended : f.outcome with
  | error ex =>
    rw [ended] at asked
    exact ⟨τ, h, asked⟩
  | ok v =>
    rw [ended] at asked
    obtain ⟨τ₁, h₁, kept, reach⟩ := asked
    -- The variable that holds the awaiter and both copies of the state are set back.
    obtain ⟨τ₂, set, h₂⟩ := exists_awaiter_set fair bare field Ty.any.defaultValue h₁
    obtain ⟨τ₃, h₃, others, update⟩ := @updates l L params A σ τ₂
      (⟨n, .statements [⟨i₃, q.valueShape⟩]⟩ :: K') fair bare run update h₂
    refine ⟨τ₃, h₃, reach.trans ((reaches_sibling rfl).trans ((reaches_child rfl).trans
      ((reaches_value rfl).trans ((reaches_assigned rfl set).trans ((reaches_sibling rfl).trans
        (update.trans ((reaches_sibling rfl).trans ?_)))))))⟩
    rw [Except.mapError, Point.ends, Point.valueShape]
    cases result : q.result with
    | none => exact (reaches_value rfl).trans (reaches_over rfl)
    | some u =>
      have apart := L.added_apart.results u (results u result)
      have notField : u.id ≠ q.awaiter.id := fun same ↦ apart (same ▸ List.mem_cons_of_mem _
        (List.mem_cons_of_mem _ (List.mem_map_of_mem field)))
      have value : lookup τ₃ u.id = some v := by
        rw [others u.id (fun same ↦ apart (same ▸ List.mem_cons_self))
          (fun same ↦ apart (same ▸ List.mem_cons_of_mem _ List.mem_cons_self)),
          lookup_assigned_ne set notField, kept u result]
      exact (reaches_load value).trans (reaches_over rfl)

/-! ### From one run to the next -/

/-- The tasks at the top of a lowered body are what they are. -/
theorem OuterTasks.unique {e n : Node} {ts ts' : List Steps.Task} (h : OuterTasks e n ts)
    (h' : OuterTasks e n ts') : ts = ts' := by
  cases h
  cases h'
  rfl

/-- The states of a place on a track are states of the whole. -/
theorem tests_of_track {keeps : SymbolId → Prop} {slots : SymbolId → Option Value} {c : Contract}
    {p₀ e₀ p e : Node} {X₀ X : Added} {K : List Steps.Task}
    (h : Track keeps slots c p₀ e₀ X₀ p e X K) :
    X.table.flatMap Case.tests ⊆ X₀.table.flatMap Case.tests := by
  induction h with
  | root => exact fun _ inside ↦ inside
  | layer outer twin member opens ih =>
    refine List.Subset.trans ?_ ih
    exact Table.tests_subset (Added.table_subset_join (List.mem_map_of_mem member))
  | operand outer isPoint twin tasks ih =>
    refine List.Subset.trans ?_ ih
    exact Table.tests_subset (List.subset_append_left _ _)
  | body outer entered twin tasks ih =>
    refine List.Subset.trans (fun i inside ↦ ?_) ih
    simpa [Added.ofRegion] using inside

/-- A run with the state of a suspend point comes to its label, with the tasks of a track above. -/
theorem resumes_at {store : Store} (host : Host) {p e entry label a b : Node}
    {declared : List Variable} {rest : List Node} {X : Added}
    {K₁ K₀ : List Steps.Task}
    (track : Track l.keeps store.get? l.contract L.prepared.settle L.expanded
      L.added p e (X ++ .ofPoint q entry) K₁) (bottom : OuterTasks L.expanded l.body K₀)
    (isReturn : IsReturn l.contract q.label entry)
    (shape : e.shape = .block declared (a :: b :: label :: rest))
    (isLabel : label.shape = .label q.label)
    (results : declared = q.result.toList)
    (slot : store.get? l.contract.state.id = some (.int (Int64.ofNat q.index))) :
    ∃ τ, (L.voyage false store host (Int64.ofNat q.index)).At running running τ ∧
      (∀ v ∈ q.result, τ.locals.contains v.id = true) ∧
      (system l.setting).Reaches (start l.body none { persisted := store, host })
        ⟨.enter label (some q.label.id), ⟨e, .statements rest⟩ :: (K₁ ++ K₀), τ⟩ := by
  let V : Voyage := L.voyage false store host (Int64.ofNat q.index)
  have law : V.Lawful := L.lawful
  have here : Int64.ofNat q.index ∈ (X ++ .ofPoint q entry).table.flatMap Case.tests := by
    simp [Added.ofPoint]
  obtain ⟨K, outer, arrived⟩ := L.arrives false host slot (tests_of_track track here)
  obtain rfl := outer.unique bottom
  obtain ⟨clear, within, declares⟩ := track.onboard L.onboard
  obtain ⟨case, member, selects, target, among, running', leads, τ, there, reach⟩ :=
    track.arrives law L.onboard here arrived
  -- The state is that of this suspend point, and the label that its case leads to is its own.
  have own : (⟨[Int64.ofNat q.index], entry⟩ : Case Node) ∈ (X ++ .ofPoint q entry).table := by
    simp [Added.ofPoint]
  obtain rfl := Table.case_unique clear.tests member own selects List.mem_cons_self
  obtain ⟨rfl, rfl⟩ := leads.unique (.back isReturn)
  have labelled : ∀ n ∈ e.children, V.s.labels n q.label.id = n.labelsWithin.contains q.label.id :=
    fun n child ↦ law.labels n (Node.mem_children_walk child within) _
  have children : e.children = [a, b] ++ label :: rest := by rw [Node.children, shape]; rfl
  rw [children] at labelled
  have inside : q.label.id ∈ label.labelsWithin := by
    rw [label.labelsWithin_eq, isLabel]
    exact List.mem_cons_self
  have found : V.s.labels label q.label.id = true := by
    rw [labelled label (by simp)]
    exact List.contains_iff_mem.2 inside
  have once := clear.sole q.label.id (List.mem_map_of_mem among)
  have free : ∀ m ∈ [a, b], V.s.labels m q.label.id = false := by
    intro m member
    rw [labelled m (List.mem_append_left _ member), Bool.eq_false_iff]
    exact fun some ↦ (Node.sole_beside once children inside).2 m (List.mem_append_left _ member)
      (List.contains_iff_mem.1 some)
  subst results
  have declared' : ∀ v ∈ q.result.toList, V.results v.id := fun v member ↦
    declares v (List.mem_append_right _ member)
  refine ⟨_, there.declare law declared', fun v result ↦ ?_,
    reach.trans (reaches_sought shape free found)⟩
  obtain ⟨value, starts⟩ := Store.get?_declare_of_mem
    (List.mem_map_of_mem (f := Variable.id) (Option.mem_toList.2 result))
  rw [Store.contains, starts]
  rfl

include L in
/-- A body that takes a way out comes to its end, with the state set and the awaiter handed over. -/
theorem reaches_way_out (q : Point) {b d : Node} {below : List Steps.Task} {i : Nat}
    (outer : Lineage l.body b below)
    (passes : ∀ t ∈ ⟨b, .test⟩ :: below, (l.underway false fun _ ↦ False).Passes t)
    (arm : d ∈ armsOf b)
    (suspension : IsSuspension l.contract q d) (field : q.awaiter ∈ l.fields)
    (within : d ∈ l.body.walk)
    (small : i < l.stateCount) (index : Int64.ofNat q.index = Int64.ofNat i)
    (h : l.Running (fun _ ↦ False) τ) :
    ∃ awaiter τ', τ.persisted.get? q.awaiter.id = some awaiter ∧
      τ'.persisted = τ.persisted.insert l.contract.state.id (.int (Int64.ofNat q.index)) ∧
      τ'.host = τ.host ∧ τ'.awaiters = τ.awaiters.push awaiter ∧
      (system l.setting).Reaches ⟨.enter d none, ⟨b, .arm⟩ :: below, τ⟩
        ⟨.leave (.ok .unit), [], τ'⟩ := by
  obtain ⟨awaiter, τ₁, τ₂, held, -, persisted, locals, host, notes, reach⟩ :=
    @leaves l L (fun _ ↦ False) false (⟨b, .arm⟩ :: below) τ q d suspension field within h
  have departs : d.Departs l.contract := ⟨q, suspension⟩
  have state : lookup τ₂ l.contract.localState.id = some (.int (Int64.ofNat q.index)) := by
    rw [lookup, notes.locals]
    simp [locals]
  have lineage : Lineage l.body d (⟨b, .arm⟩ :: below) := .child outer ⟨{}, {}, .arm arm arm⟩
  have through : ∀ t ∈ ⟨b, .arm⟩ :: below, (l.underway false fun _ ↦ False).Passes t := by
    have first := passes _ List.mem_cons_self
    exact List.forall_mem_cons.2 ⟨⟨first.admits, first.children⟩,
      fun t member ↦ passes t (List.mem_cons_of_mem _ member)⟩
  obtain ⟨τ₃, notes', reach'⟩ :=
    L.unwinds lineage through (fun same ↦ L.body_stays (same ▸ departs)) (fun stays ↦ stays d
      (Node.mem_walk_self d) departs) state (L.index_nonneg ⟨i, small, index⟩)
  have notes := notes.trans notes'
  refine ⟨awaiter, τ₃, held, ?_, ?_, notes.awaiters, reach.trans reach'⟩
  · rw [notes.persisted, ← persisted]
    exact noted_persisted _ τ₁ _
  · obtain ⟨new, rfl, -⟩ := notes
    show (noted (l.underway false fun _ ↦ False).s (.handOver awaiter) τ₁).host = _
    rw [noted_host, host]

end Layout

end Suspension
