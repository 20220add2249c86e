import Suspension.Proofs.Binding.Runs
import Suspension.Proofs.Waiting.Together

/-!
# Setting out together

A machine starts with its variables at what their types start with, and its parameters at their
values. The run in one piece starts with the same, for all that the two have in common
(`Layout.Fair.get?_start`). So the session comes to a place that corresponds to the start of the run
(`Layout.sets_off`), and from there on the two go along with each other.
-/

namespace Suspension

open Steps TransitionSystem Session

/-- Stores in which the same variables are declared agree where they agreed before. -/
theorem Store.get?_declare_congr {s s' : Store} {vs : List Variable} {id : SymbolId}
    (same : s.get? id = s'.get? id) : (s.declare vs).get? id = (s'.declare vs).get? id := by
  by_cases member : id ∈ vs.map Variable.id
  · obtain ⟨value, found⟩ := get?_declare_of_mem member
    rw [found, found]
  · rw [get?_declare_of_notMem member, get?_declare_of_notMem member, same]

/-- What a run in one piece starts with: hoisted variables and parameters. -/
def Lowered.origin (l : Lowered) (args : List (Variable × Value)) : Store :=
  (({} : Store).declare l.hoisted).insertAll args

/-- A body that is run for its value. -/
def Node.returned (n : Node) : Node :=
  ⟨0, .block [] [⟨0, .ret (some n)⟩]⟩

/-- A session at its start. -/
def Lowered.session (l : Lowered) (args : List (Variable × Value)) (host : Host) : Session :=
  ⟨(Machine.start l).withArguments args, host⟩

namespace Layout

variable {l : Lowered} {L : Layout l} {args : List (Variable × Value)} {host : Host}

/-- Both runs start with the same, for all that is not new. -/
theorem get?_start (L : Layout l) {id : SymbolId} (old : ¬ L.New id) :
    (l.session args host).machine.persisted.get? id = (l.origin args).get? id := by
  have others : id ≠ l.contract.state.id ∧ id ∉ l.fields.map Variable.id := by
    refine ⟨fun same ↦ old (L.new_of_slot (same ▸ List.mem_cons_self)), fun field ↦
      old (L.new_of_slot ?_)⟩
    exact List.mem_cons_of_mem _ (List.mem_cons_of_mem _ field)
  have fields (s : Store) :
      (s.declare (l.hoisted ++ l.fields)).get? id = (s.declare l.hoisted).get? id := by
    rw [Store.declare, List.foldl_append]
    exact Store.get?_declare_of_notMem others.2 _
  rw [Lowered.session, Machine.withArguments_eq]
  refine Store.get?_insertAll_congr args ?_
  show ((({} : Store).declare l.persisted).insert l.contract.state.id (.int running)).get? id = _
  rw [Store.get?_insert, if_neg others.1, Lowered.persisted, List.cons_append, Store.declare_cons,
    fields]
  refine Store.get?_declare_congr ?_
  rw [Store.get?_insert, if_neg others.1]

/-- A session starts at a place that corresponds to the start of a run in one piece. -/
theorem abreast_start (fair : L.Fair (args.map (·.1.id))) {τ : Frame}
    (here : (L.voyage false (l.session args host).machine.persisted host running).At running
      running τ) :
    Abreast (l.outlasts (args.map (·.1.id))) L.New l {} { persisted := l.origin args, host } τ := by
  have holds := (Machine.withArguments_holds (Machine.start_holds l) args).slots
  have slots : ∀ v ∈ l.persisted, (l.session args host).machine.persisted.contains v.id = true :=
    fun v member ↦ holds v.id (.inr (List.mem_map_of_mem member))
  have apart {id : SymbolId} (old : ¬ L.New id) : id ≠ l.contract.state.id ∧
      id ≠ l.contract.localState.id ∧ id ∉ L.added.results.map Variable.id := by
    simp only [New, Contract.names, Added.names, List.mem_append, List.mem_cons] at old
    tauto
  have persisted {id : SymbolId} (old : ¬ L.New id) :
      τ.persisted.get? id = (l.origin args).get? id :=
    (here.persisted id (apart old).1).trans (L.get?_start old)
  refine ⟨⟨?_, here.handling.symm, fun id stays ↦ ?_, fun id other old ↦ ?_, List.forall_mem_nil _,
    List.forall_mem_nil _⟩,
    L.running_of_at here slots⟩
  · rw [here.host]
    exact .refl host
  · -- What outlives the runs has a slot from the start.
    have old := fair.outlasts_old stays
    have held : (l.session args host).machine.persisted.contains id = true := by
      refine holds id (stays.symm.imp_right fun kept ↦ ?_)
      exact List.map_subset _ (List.subset_append_of_subset_left _ (List.subset_cons_self _ _)) kept
    rw [Store.contains, L.get?_start old, Option.isSome_iff_exists] at held
    obtain ⟨v, held⟩ := held
    exact ⟨rfl, here.locals id (apart old).2.1 (apart old).2.2, v, held, (persisted old).trans held⟩
  · -- All else that is not new has none.
    have nothing : (l.origin args).get? id = none := by
      rw [Lowered.origin, Store.get?_insertAll_of_notMem fun param ↦ other (.inr param)]
      exact Store.get?_declare_of_notMem (fun kept ↦ other (.inl kept)) _
    exact ⟨nothing, (persisted old).trans nothing⟩

/-- A session comes to the expanded body, with all that the run in one piece starts with. -/
theorem sets_off (fair : L.Fair (args.map (·.1.id))) (host : Host) :
    ∃ K' τ, OuterTasks L.expanded l.body K' ∧
      Abreast (l.outlasts (args.map (·.1.id))) L.New l {} { persisted := l.origin args, host } τ ∧
      driving.Reaches (l.session args host).begins
        ⟨(l.session args host).machine, ⟨.enter L.expanded none, K', τ⟩⟩ := by
  let s : Session := l.session args host
  have machine : s.machine = { Machine.start l with persisted := s.machine.persisted } := by
    show (Machine.start l).withArguments args = { Machine.start l with
      persisted := ((Machine.start l).withArguments args).persisted }
    rw [Machine.withArguments_eq]
  have slot : s.machine.persisted.get? l.contract.state.id = some (.int running) := by
    show ((Machine.start l).withArguments args).persisted.get? _ = _
    rw [Machine.withArguments_eq]
    refine (Store.get?_insertAll_of_notMem fun param ↦ ?_).trans ?_
    · exact fair.old _ param (L.new_of_slot List.mem_cons_self)
    · exact (Store.get?_insert _ _ _ _).trans (if_pos rfl)
  have runs {c : Configuration} (reach : (system l.setting).Reaches
      (start l.body none { persisted := s.machine.persisted, host }) c) :
      driving.Reaches s.begins ⟨s.machine, c⟩ := by
    refine reaches_of_run ?_
    rw [machine]
    exact reach
  obtain ⟨root, isRoot, assembled⟩ :
      ∃ n, n = l.body ∧ IsAssembled l.contract L.expanded L.added.table n := ⟨_, rfl, L.assembled⟩
  cases assembled with
  | mk i i₁ i₂ i₃ i₄ i₅ i₆ i₇ =>
  let load : Node := ⟨i₁, .assign l.contract.localState ⟨i₂, .var l.contract.state⟩⟩
  let dispatch : Node := ⟨i₃, .switch ⟨i₄, .var l.contract.localState⟩ L.added.table
    (some ⟨i₅, .defaultOf .unit⟩)⟩
  let leave : Node := ⟨i₆, .ret (some L.expanded)⟩
  let exit : Node := ⟨i₇, .label l.contract.exit⟩
  have shape : l.body.shape = .block [l.contract.localState] [load, dispatch, leave, exit] := by
    rw [← isRoot]
    rfl
  obtain ⟨τ, here, reach⟩ := L.loads false host slot shape
  have frames := L.abreast_start fair here
  -- No case of the dispatch is for a body that is running, so it goes on to the expanded body.
  have unmatched : L.added.table.find? (fun c ↦ c.tests.contains running) = none :=
    find?_running fun _ inside ↦ inside
  have passes : leaveTo l.setting ⟨dispatch, .test⟩ (.ok (.int running)) τ =
      descend dispatch .arm ⟨i₅, .defaultOf .unit⟩ none τ := by
    show enterArm _ (Evaluator.caseFor L.added.table (some ⟨i₅, .defaultOf .unit⟩) (.int running))
      τ = _
    rw [Evaluator.caseFor]
    simp only [Value.asInt?, unmatched]
    rfl
  have enters : (system l.setting).Reaches
      ⟨.enter dispatch none, [⟨l.body, .statements [leave, exit]⟩], τ⟩
      ⟨.enter L.expanded none, [⟨leave, .operand⟩, ⟨l.body, .statements [exit]⟩], τ⟩ :=
    (reaches_child rfl).trans ((reaches_load frames.running.lookup_localState).trans
      ((reaches_sibling passes).trans ((reaches_value rfl).trans ((reaches_over rfl).trans
        ((reaches_sibling rfl).trans (reaches_child rfl))))))
  have outer : OuterTasks L.expanded l.body [⟨leave, .operand⟩, ⟨l.body, .statements [exit]⟩] := by
    rw [← isRoot]
    exact .mk i i₆ _ _ dispatch exit
  exact ⟨_, τ, outer, frames, runs (reach.trans enters)⟩

/-- **A session ends if and only if the run in one piece does**, and comes to what that reckons. -/
theorem session_reckons (fair : L.Fair (args.map (·.1.id)))
    (discreet : (l.session args host).Discreet) :
    (∀ y, driving.Ends (l.session args host).begins y → ∃ x, (system waiting).Ends
        (start L.prompt.returned none { persisted := l.origin args, host }) x ∧ Reckons x y) ∧
      ∀ x, (system waiting).Ends
        (start L.prompt.returned none { persisted := l.origin args, host }) x →
        ∃ y, driving.Ends (l.session args host).begins y ∧ Reckons x y := by
  obtain ⟨K', τ, outer, frames, reach'⟩ := L.sets_off fair host
  let root : Node := L.prompt.returned
  let K : List Steps.Task := [⟨⟨0, .ret (some L.prompt)⟩, .operand⟩, ⟨root, .statements []⟩]
  have reach : (system waiting).Reaches (start root none { persisted := l.origin args, host })
      ⟨.enter L.prompt none, K, { persisted := l.origin args, host }⟩ :=
    (reaches_child rfl).trans (reaches_child rfl)
  have serves : l.Serves (l.session args host).machine := by
    rw [Lowered.session, Machine.withArguments_eq]
    exact ⟨rfl, rfl, rfl⟩
  have related : L.Related (args.map (·.1.id))
      ⟨.enter L.prompt none, K, { persisted := l.origin args, host }⟩
      ⟨(l.session args host).machine, ⟨.enter L.expanded none, K', τ⟩⟩ :=
    .enter (L.fits fair) (.root 0 0 outer) nofun frames
  have pair := And.intro related (And.intro reach (Lowered.Aboard.mk serves reach'))
  have along := together fair discreet root { persisted := l.origin args, host }
  refine ⟨fun y ends ↦ ?_, fun x ends ↦ ?_⟩
  · obtain ⟨x, ends, reckons⟩ := along.ends_of_ends pair (ends.after reach')
    exact ⟨x, ends.of_reaches reach, reckons⟩
  · obtain ⟨y, ends, reckons⟩ := along.ends pair (ends.after reach)
    exact ⟨y, ends.of_reaches reach', reckons⟩

end Layout

end Suspension
