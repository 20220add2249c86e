import Suspension.Proofs.Faults
import Suspension.Proofs.Sessions
import Suspension.Proofs.Steps.Records
import Suspension.Proofs.Suspending.Course

/-!
# Sessions with lowered bodies

Between two moves the machine of a lowered body is in order: its storage has all slots, and the
state is that of a running body or one of the suspend points (`Lowered.Rested`). A move keeps that,
and the state is that of a suspend point exactly if the move stopped to wait (`Layout.move`). So it
is after any number of moves, whatever happened in the world in between and however the moves before
ended (`Node.LowersTo.keeps_order`).
-/

namespace Suspension

open Steps Eval TransitionSystem

/-- The machine of a lowered body between two moves. -/
structure Lowered.Rested (l : Lowered) (m : Machine) : Prop where
  body : m.body = l.body
  stateVar : m.stateVar = l.contract.state
  labels : m.labels = LabelIndex.build l.body
  rests : l.Rests m.persisted

/-- What a move of a lowered body comes to: the body has been running to its end, or stopped at a
suspend point. -/
inductive Lowered.Moved (l : Lowered) (banned : String → Prop) (before after : Machine) :
    Except Stop Progress → Prop
  | ends {r : Except Stop Progress} (state : after.state = running)
    (notWait : Session.stopsToWait r = false)
    (cause : ∀ f, r = .error (.fault f) → f.cause.kind ≠ .missingAwaiter)
    (callbacks : banned onCompleted → after.callbacks = before.callbacks) :
    Moved l banned before after r
  | waits {q : Point} {d : Node} {awaiter : Value} {σ : Frame}
    (left : l.LeftBy banned q d awaiter σ) (persisted : after.persisted = σ.persisted)
    (state : after.state = Int64.ofNat q.index)
    (callbacks : banned onCompleted → after.callbacks = before.callbacks + 1) :
    Moved l banned before after (.ok (.suspended awaiter))

namespace Session

/-- A body that is running at its end has not stopped to wait. -/
theorem progress_running {m : Machine} (state : m.state = running) (host : Host)
    (awaiters : Array Value) (c : Completion) :
    stopsToWait (progress m host awaiters c) = false ∧
      ∀ f, progress m host awaiters c = .error (.fault f) → f.cause.kind ≠ .missingAwaiter := by
  cases c with
  | threw ex =>
    refine ⟨rfl, ?_⟩
    rintro _ ⟨⟩ ⟨⟩
  | returned value =>
    refine ⟨rfl, ?_⟩
    rintro _ ⟨⟩
  | normal value =>
    have completed : progress m host awaiters (.normal value) = .ok (.completed value) := by
      rw [progress, if_pos]
      rw [state]
      decide
    rw [completed]
    refine ⟨rfl, ?_⟩
    rintro _ ⟨⟩

/-- A body with the state of a suspend point at its end waits for the last awaiter. -/
theorem progress_waits {m : Machine} (state : ¬ m.state < 0) (host : Host) (earlier : Array Value)
    (awaiter value : Value) :
    progress m host (earlier.push awaiter) (.normal value) = .ok (.suspended awaiter) := by
  rw [progress, if_neg state, Array.back?_push]

end Session

theorem Machine.state_eq {m : Machine} {i : Int64}
    (slot : m.persisted.get? m.stateVar.id = some (.int i)) : m.state = i := by
  rw [Machine.state, slot]

namespace Layout

variable {l : Lowered} (L : Layout l) {banned : String → Prop}

include L in
/-- How a run ends that does not run out of fuel. -/
theorem run_ends (allowed : ∀ name ∈ L.prepared.calls, ¬ banned name) {store : Store}
    (rests : l.Rests store) {host : Host} {fuel : Nat} {r : Outcome} {σ : Frame}
    (run : eval (l.underway false banned).s fuel l.body none { persisted := store, host } = (r, σ))
    (enough : r ≠ .error (.stop .outOfFuel)) :
    l.Running banned σ ∨ r = .ok .unit ∧ ∃ q d awaiter, l.LeftBy banned q d awaiter σ := by
  obtain ⟨c, reach, result⟩ := ends_of_eval run enough
  rcases L.course allowed rests host reach with ⟨-, running⟩ | ⟨q, d, awaiter, σ', left, -, reach'⟩
  · exact .inl (running r σ result)
  · right
    have same := reach'.eq_of_result (M := system _) result
    subst same
    cases result
    exact ⟨rfl, q, d, awaiter, left⟩

include L in
/-- **What a move comes to.** -/
theorem move (allowed : ∀ name ∈ L.prepared.calls, ¬ banned name) {t : Session}
    (rested : l.Rested t.machine) {fuel : Nat}
    (enough : (t.moveNext fuel).1 ≠ .error .outOfFuel) :
    l.Rested (t.moveNext fuel).2.machine ∧
      l.Moved banned t.machine (t.moveNext fuel).2.machine (t.moveNext fuel).1 := by
  obtain ⟨⟨body, stateVar, labels, store, callbacks, resumptions⟩, host⟩ := t
  obtain ⟨rfl, rfl, rfl, rests⟩ := rested
  dsimp only at rests
  let m : Machine :=
    ⟨l.body, l.contract.state, LabelIndex.build l.body, store, callbacks, resumptions⟩
  let t : Session := ⟨m, host⟩
  let s : Setting := (l.underway false banned).s
  rcases run : eval s fuel l.body none { persisted := store, host } with ⟨r, σ⟩
  have ran : t.machine.run fuel t.host = (completion r, σ) := runBody_of_eval run
  -- The storage is in order if the body has been running.
  have rested (goesOn : l.Running banned σ) (callbacks : Nat) : l.Rested
      { m with persisted := σ.persisted, callbacks } :=
    ⟨rfl, rfl, rfl, goesOn.slots, _, goesOn.state, .inl rfl⟩
  show l.Rested (t.moveNext fuel).2.machine ∧
    l.Moved banned m (t.moveNext fuel).2.machine (t.moveNext fuel).1
  replace enough : (t.moveNext fuel).1 ≠ .error .outOfFuel := enough
  rcases done : completion r with reason | c
  · rw [done] at ran
    rw [Session.moveNext_stopped ran] at enough ⊢
    rcases L.run_ends allowed rests run (by rintro rfl; cases done; exact enough rfl) with
      goesOn | left
    · refine ⟨rested goesOn callbacks, .ends (Machine.state_eq goesOn.state) rfl ?_ fun _ ↦ rfl⟩
      rintro f ⟨⟩ kind
      have own : f.cause.isDrivers = false := runBody_inner (congrArg Prod.fst ran)
      revert kind own
      cases f.cause <;> rintro ⟨⟩ ⟨⟩
    · obtain ⟨rfl, -⟩ := left
      cases done
  · rw [done] at ran
    rw [Session.moveNext_completed ran rfl]
    rcases L.run_ends allowed rests run (by rintro rfl; cases done) with goesOn | left
    · obtain ⟨notWait, cause⟩ := Session.progress_running (m := { m with
        persisted := σ.persisted, callbacks := callbacks + σ.awaiters.size })
        (Machine.state_eq goesOn.state) σ.host σ.awaiters c
      refine ⟨rested goesOn _, .ends (Machine.state_eq goesOn.state) notWait cause fun silent ↦ ?_⟩
      show callbacks + σ.awaiters.size = callbacks
      rw [goesOn.silent silent]
      rfl
    · obtain ⟨rfl, q, d, awaiter, left⟩ := left
      cases done
      obtain ⟨earlier, awaiters, first⟩ := left.awaiters
      have state : Machine.state { m with
          persisted := σ.persisted, callbacks := callbacks + σ.awaiters.size } =
          Int64.ofNat q.index := Machine.state_eq left.state
      have waits := Session.progress_waits (state ▸ L.index_nonneg left.index) σ.host earlier
        awaiter .unit
      rw [← awaiters] at waits
      refine ⟨⟨rfl, rfl, rfl, left.slots, _, left.state, .inr left.index⟩, ?_⟩
      show l.Moved banned m _ (Session.progress _ σ.host σ.awaiters (.normal .unit))
      rw [waits]
      refine .waits left rfl state fun silent ↦ ?_
      show callbacks + σ.awaiters.size = callbacks + 1
      rw [awaiters, first silent]
      rfl

end Layout

/-! ### Sessions -/

/-- The machine of a lowered body is at rest before its first move. -/
theorem Node.LowersTo.start_rested {body : Node} {supply : Supply} {l : Lowered}
    (lowers : body.LowersTo supply l) {args : List (Variable × Value)}
    (older : ∀ a ∈ args, a.1.id.toNat < supply.symbol) :
    l.Rested ((Machine.start l).withArguments args) ∧
      ((Machine.start l).withArguments args).state = running ∧
      ((Machine.start l).withArguments args).callbacks = 0 := by
  have new := lowers.names_new l.contract.state.id (by simp [Contract.names])
  have state := Machine.start_state new older
  rw [Machine.withArguments_eq]
  refine ⟨⟨rfl, rfl, rfl, fun v member ↦ Store.contains_insertAll_of ?_, _, state, .inl rfl⟩,
    Machine.state_eq state, rfl⟩
  exact Store.contains_insert_of (Store.contains_declare (.inl (List.mem_map_of_mem member)))

/-- After any moves the machine of a lowered body is at rest. -/
theorem Layout.ran_rested {l : Lowered} (L : Layout l) {s t : Session}
    {results : List (Except Stop Progress)} (ran : s.Ran results t) (rested : l.Rested s.machine) :
    l.Rested t.machine := by
  induction ran with
  | start => exact rested
  | move earlier fuel enough ih =>
    exact (@Layout.move l L (fun _ ↦ False) (fun _ _ ↦ not_false) _ ih _ enough).1
  | world earlier host resumptions ih => exact ⟨ih.body, ih.stateVar, ih.labels, ih.rests⟩

/-- A session with a lowered body is in order after some moves. -/
structure Lowered.InOrder (l : Lowered) (results : List (Except Stop Progress)) (t : Session) :
    Prop where
  /-- The state is that of a running body or of a suspend point. -/
  state : t.machine.state = running ∨ ∃ k < l.stateCount, t.machine.state = Int64.ofNat k
  /-- It is that of a suspend point exactly if the last move stopped to wait. -/
  waits : ¬ t.machine.state < 0 ↔ results.head?.any Session.stopsToWait = true
  /-- No move stopped to wait without saying for what. -/
  cause : ∀ r ∈ results, ∀ f, r = .error (.fault f) → f.cause.kind ≠ .missingAwaiter
  /-- Awaiters were handed over by the moves that stopped to wait, one by each. -/
  callbacks : t.machine.callbacks = results.countP Session.stopsToWait
  /-- Operations of the host find both copies of the state at running. -/
  calls : ∀ fuel, ∀ m ∈ (t.machine.run fuel t.host true).2.moments, ∀ name args,
    m.event = .call name args → m.persisted.get? l.contract.state.id = some (.int running) ∧
      m.locals.get? l.contract.localState.id = some (.int running)

/-- In any run of a lowered body, operations of the host find both copies of the state at
running. -/
theorem Layout.calls_running {l : Lowered} (L : Layout l) {t : Session}
    (rested : l.Rested t.machine) (fuel : Nat) {m : Moment}
    (member : m ∈ (t.machine.run fuel t.host true).2.moments) {name : String} {args : List Value}
    (call : m.event = .call name args) :
    m.persisted.get? l.contract.state.id = some (.int running) ∧
      m.locals.get? l.contract.localState.id = some (.int running) := by
  obtain ⟨⟨body, stateVar, labels, store, callbacks, resumptions⟩, host⟩ := t
  obtain ⟨rfl, rfl, rfl, rests⟩ := rested
  let s : Setting := (l.underway true fun _ ↦ False).s
  obtain ⟨c, reach, recorded⟩ :=
    @reaches_of_recorded s fuel l.body none { persisted := store, host }
  replace member : m ∈ c.frame.moments := recorded ▸ member
  rcases L.course (fun _ _ ↦ not_false) rests host reach with
    ⟨inside, -⟩ | ⟨q, d, awaiter, σ, -, told, reach'⟩
  · exact (inside m member).call call
  · obtain ⟨after, handing, before, entering, inside, moments, onWay, handed, -, setting, entered,
      -, all⟩ := (told rfl).parts
    have later : m ∈ σ.moments := (kept_of_reaches _ reach').moments.subset member
    -- After the way out is entered no operation is called.
    rw [moments, List.mem_append, List.mem_cons, List.mem_append, List.mem_cons] at later
    rcases later with event | rfl | event | rfl | here
    · have := (onWay m event).1
      rw [call] at this
      exact this.elim
    · rw [call] at handed
      cases handed
    · have := setting m event
      rw [call] at this
      cases this
    · rw [call] at entered
      cases entered
    · exact (all m here).call call

/-- **The state is kept in order.** A body that hands over no awaiters itself is moved any number of
times, from its start and with values for parameters. After each move the state is -1 or that of a
suspend point, the latter exactly if the move stopped to wait, and as many awaiters were handed over
as moves stopped to wait. No move fails for the lack of an awaiter, and whenever an operation of the
host is carried out, both copies of the state are -1. -/
theorem Node.LowersTo.keeps_order {body : Node} {supply : Supply} {l : Lowered}
    (lowers : body.LowersTo supply l) (silent : onCompleted ∉ body.calls)
    {args : List (Variable × Value)} (older : ∀ a ∈ args, a.1.id.toNat < supply.symbol)
    {host : Host} {results : List (Except Stop Progress)} {t : Session}
    (ran : Session.Ran ⟨(Machine.start l).withArguments args, host⟩ results t) :
    l.InOrder results t := by
  obtain ⟨L, s, s', -, -, -, -, calls⟩ := lowers.layout
  obtain ⟨rested, started, none⟩ := lowers.start_rested older
  have kept {results : List (Except Stop Progress)} {t : Session}
      (ran : Session.Ran ⟨(Machine.start l).withArguments args, host⟩ results t) :
      l.Rested t.machine := L.ran_rested ran rested
  -- The induction is on the session. Only a move matters, and by the step lemma it ends or waits.
  induction ran with
  | start =>
    have negative : running < 0 := by decide
    refine ⟨.inl started, ?_, List.forall_mem_nil _, none, fun fuel m member name args call ↦ ?_⟩
    · show ¬ Machine.state _ < 0 ↔ _
      rw [started]
      simp [negative]
    · exact L.calls_running rested fuel member call
  | @move results t earlier fuel enough ih =>
    have after := kept (.move earlier fuel enough)
    have moved := (@Layout.move l L (· = onCompleted)
      (fun name called same ↦ silent (same ▸ calls called)) t (kept earlier) fuel enough).2
    generalize (t.moveNext fuel).1 = r at moved ⊢
    have negative : running < 0 := by decide
    refine ⟨?_, ?_, ?_, ?_,
      fun fuel m member name args call ↦ L.calls_running after fuel member call⟩
    · cases moved with
      | ends state => exact .inl state
      | waits left _ state => exact .inr (state ▸ left.index)
    · cases moved with
      | ends state notWait => simp [state, notWait, negative]
      | waits left _ state =>
        rw [state]
        exact iff_of_true (L.index_nonneg left.index) rfl
    · refine List.forall_mem_cons.2 ⟨?_, ih.cause⟩
      cases moved with
      | ends _ _ cause => exact cause
      | waits => rintro _ ⟨⟩
    · cases moved with
      | ends _ notWait _ callbacks =>
        rw [callbacks rfl, ih.callbacks, List.countP_cons_of_neg (by simp [notWait])]
      | waits _ _ _ callbacks =>
        rw [callbacks rfl, ih.callbacks, List.countP_cons_of_pos rfl]
  | @world results t earlier host resumptions ih =>
    have after := kept (.world earlier host resumptions)
    exact ⟨ih.state, ih.waits, ih.cause, ih.callbacks,
      fun fuel m member name args call ↦ L.calls_running after fuel member call⟩

/-- A sum of two values that are waited for. The body is taken up too early, which is a fault, and
then starts again and waits twice. -/
theorem Node.LowersTo.keeps_order_sum : ∃ (body : Node) (l : Lowered) (t : Session)
    (results : List (Except Stop Progress)), body.LowersTo { node := 7 } l ∧
      onCompleted ∉ body.calls ∧
      results = [.ok (.completed (.int 7)), .ok (.suspended (.future 2)),
        .ok (.suspended (.future 1)), .error (.fault ⟨.incomplete, some 49⟩),
        .ok (.suspended (.future 0))] ∧
      Session.Ran ⟨(Machine.start l).withArguments [], {}⟩ results t ∧ l.InOrder results t := by
  let body : Node := ⟨6, .binary .add
    ⟨2, .await ⟨1, .call "pending" [⟨0, .const (.int 3)⟩]⟩ none .int⟩
    ⟨5, .await ⟨4, .call "pending" [⟨3, .const (.int 4)⟩]⟩ none .int⟩⟩
  let first (l : Lowered) := (⟨Machine.start l, {}⟩ : Session).moveNext 60
  let early (l : Lowered) := (first l).2.moveNext 60
  let again (l : Lowered) := (early l).2.moveNext 60
  let second (l : Lowered) := ((again l).2.resume (.future 1)).moveNext 60
  let last (l : Lowered) := ((second l).2.resume (.future 2)).moveNext 60
  let results (l : Lowered) : List (Except Stop Progress) :=
    [(last l).1, (second l).1, (again l).1, (early l).1, (first l).1]
  obtain ⟨l, lowers, told⟩ := @Node.exists_lowersTo_with body { node := 7 } (by rintro _ ⟨⟩)
    (fun l ↦ results l == [.ok (.completed (.int 7)), .ok (.suspended (.future 2)),
      .ok (.suspended (.future 1)), .error (.fault ⟨.incomplete, some 49⟩),
      .ok (.suspended (.future 0))]) (by decide +kernel)
  replace told := eq_of_beq told
  have enough : ∀ r ∈ results l, r ≠ .error .outOfFuel := by
    rw [told]
    decide
  simp only [results, List.forall_mem_cons] at enough
  obtain ⟨last, second, again, early, first, -⟩ := enough
  have ran : Session.Ran ⟨(Machine.start l).withArguments [], {}⟩ (results l) _ :=
    (((((Session.Ran.start (s := ⟨Machine.start l, {}⟩)).move 60 first).move 60 early).move 60
      again).resume (.future 1) |>.move 60 second).resume (.future 2) |>.move 60 last
  have silent : onCompleted ∉ body.calls := by decide +kernel
  exact ⟨body, l, _, results l, lowers, silent, told, ran,
    lowers.keeps_order silent (List.forall_mem_nil _) ran⟩

end Suspension
