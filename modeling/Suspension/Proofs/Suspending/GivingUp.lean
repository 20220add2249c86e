import Suspension.Proofs.Suspending.Limits

/-!
# Giving up

A driver that has reached its limit gives up in front of a resumption: the body waits at a suspend
point, for a future that is not completed, and nobody completes it. The machine can be driven on
from there as if the limit had been higher, provided that the future is completed and the resumption
counted first (`Session.driveWithin_gaveUp`). If it is driven on as it is, its body comes back to
the suspend point, asks for the outcome and is stopped, and it has forgotten by then where it waited
(`Layout.asks_in_vain`). So a driver that gave up has to remember the awaiter
(`Node.LowersTo.gives_up`).
-/

namespace Suspension

open Steps Eval TransitionSystem

namespace Session

variable {s t u : Session} {fuel k : Nat}

/-- It is not for a move to say that a limit is reached. -/
theorem moveNext_ne_resumeLimit (s : Session) (fuel : Nat) (place : Option NodeId) :
    (s.moveNext fuel).1 ≠ .error (.fault ⟨.resumeLimit k, place⟩) := by
  rcases ran : s.machine.run fuel s.host with ⟨reason | c, σ⟩
  · rw [moveNext_stopped ran]
    rintro ⟨⟩
    cases runBody_inner (congrArg Prod.fst ran)
  · rw [moveNext_completed ran rfl]
    cases c with
    | threw => rintro ⟨⟩
    | returned => rintro ⟨⟩
    | normal value =>
      rw [progress]
      split
      · rintro ⟨⟩
      · split <;> rintro ⟨⟩

/-- A driver that gives up does so after a move that stopped to wait. -/
theorem moveNext_of_gaveUp {allowed : Nat}
    (h : s.driveWithin fuel allowed = (faultAt (.resumeLimit k) none, u)) :
    ∃ awaiter t, s.moveNext fuel = (.ok (.suspended awaiter), t) := by
  rw [driveWithin_eq] at h
  rcases moved : s.moveNext fuel with ⟨reason | value | awaiter, t⟩
  · rw [moved] at h
    cases h
    exact absurd (congrArg Prod.fst moved) (moveNext_ne_resumeLimit s fuel none)
  · rw [moved] at h
    cases h
  · exact ⟨awaiter, t, rfl⟩

/-- **Giving up costs the resumption only.** A driver that gives up has stopped in front of one more
resumption. To complete the future that the body waits for and to go on is the same as to have had a
higher limit. -/
theorem driveWithin_gaveUp {allowed : Nat}
    (h : s.driveWithin fuel allowed = (faultAt (.resumeLimit k) none, u)) :
    ∃ awaiter, s.Drives allowed (.ok (.suspended awaiter)) u ∧ k = u.machine.resumptions ∧
      ∀ more, s.driveWithin fuel (allowed + (more + 1)) =
        (u.resume awaiter).driveWithin fuel more := by
  induction allowed generalizing s with
  | zero =>
    obtain ⟨awaiter, t, moved⟩ := moveNext_of_gaveUp h
    rw [driveWithin_eq, moved] at h
    cases h
    refine ⟨awaiter, .last ⟨by rintro ⟨⟩, fuel, moved⟩, rfl, fun more ↦ ?_⟩
    rw [Nat.zero_add, driveWithin_eq, moved]
    rfl
  | succ allowed ih =>
    obtain ⟨awaiter, t, moved⟩ := moveNext_of_gaveUp h
    rw [driveWithin_eq, moved] at h
    obtain ⟨last, drives, limit, goesOn⟩ := ih h
    refine ⟨last, .resumed ⟨by rintro ⟨⟩, fuel, moved⟩ drives, limit, fun more ↦ ?_⟩
    rw [Nat.add_right_comm, driveWithin_eq, moved]
    exact goesOn more

end Session

/-! ### One awaiter for each state -/

open Node in
/-- What stands in a tree is the tree or a child of something in it. -/
theorem Node.exists_parent {d n : Node} (h : d ∈ n.walk) (other : d ≠ n) :
    ∃ m ∈ n.walk, d ∈ m.children := by
  induction n using Node.induction with
  | step n ih =>
    rw [walk_eq] at h
    obtain ⟨c, child, within⟩ := List.mem_flatMap.1 ((List.mem_cons.1 h).resolve_left other)
    by_cases same : d = c
    · exact ⟨n, mem_walk_self n, same ▸ child⟩
    · obtain ⟨m, above, parent⟩ := ih c child within same
      exact ⟨m, mem_walk_of_mem_children above child, parent⟩

namespace Layout

variable {l : Lowered} (L : Layout l)

include L in
/-- A way out waits with the awaiter of its state. -/
theorem waits_of_suspension {q : Point} {d : Node} (suspension : IsSuspension l.contract q d)
    (within : d ∈ l.body.walk) : (Int64.ofNat q.index, q.awaiter) ∈ l.waits := by
  have departs : d.Departs l.contract := ⟨q, suspension⟩
  obtain ⟨n, above, child⟩ := Node.exists_parent within fun same ↦ L.body_stays (same ▸ departs)
  obtain ⟨p, question, waits⟩ := L.asks_of_departs above child departs
  cases question with
  | mk _ _ _ _ suspension' =>
    obtain ⟨index, awaiter⟩ := suspension'.unique suspension
    rw [← index, ← awaiter]
    exact waits

include L in
/-- A suspend point asks the awaiter of its state. -/
theorem waits_of_point {acquire : Option String} {p : Point} {o n : Node}
    (isPoint : IsPoint l.contract acquire p o n) (within : n ∈ l.body.walk) :
    (Int64.ofNat p.index, p.awaiter) ∈ l.waits := by
  cases isPoint with
  | mk i i₁ i₂ i₃ i₄ i₅ i₆ i₇ i₈ i₉ i₁₀ suspension outcomes update =>
    refine L.waits_of_suspension suspension ?_
    have branch := Node.mem_children_walk (List.mem_cons_of_mem _ List.mem_cons_self) within
    exact Node.mem_children_walk (List.mem_cons_of_mem _ List.mem_cons_self) branch

include L in
/-- Different suspend points wait in different states. -/
theorem waits_unique {i : Int64} {v w : Variable} (h : (i, v) ∈ l.waits) (h' : (i, w) ∈ l.waits) :
    v = w := by
  have distinct := L.distinct
  rw [L.tests] at distinct
  obtain ⟨a, lt, first⟩ := List.mem_iff_getElem.1 h
  obtain ⟨b, lt', second⟩ := List.mem_iff_getElem.1 h'
  rw [Lowered.waits, List.length_zip] at lt lt'
  simp only [Lowered.waits, List.getElem_zip, Prod.mk.injEq] at first second
  obtain rfl := (List.Nodup.getElem_inj_iff distinct).1 (first.1.trans second.1.symm)
  exact first.2.symm.trans second.2

/-! ### Driving on -/

include L in
/-- A move leaves the machine at rest. -/
theorem moves_rested {t u : Session} {r : Except Stop Progress} (moved : t.Moves r u)
    (rested : l.Rested t.machine) : l.Rested u.machine := by
  obtain ⟨enough, fuel, moved⟩ := moved
  have after := (@move l L (fun _ ↦ False) (fun _ _ ↦ id) _ rested fuel (by rwa [moved])).1
  rwa [moved] at after

include L in
/-- The last move of a session that is driven starts at rest. -/
theorem last_move {s u : Session} {k : Nat} {r : Except Stop Progress} (drives : s.Drives k r u)
    (rested : l.Rested s.machine) : ∃ t : Session, l.Rested t.machine ∧ t.Moves r u := by
  induction drives with
  | last moved => exact ⟨_, rested, moved⟩
  | resumed moved rest ih =>
    have after := L.moves_rested moved rested
    exact ih ⟨after.body, after.stateVar, after.labels, after.rests⟩

include L in
/-- A move that stops to wait ends by a way out. -/
theorem leaves_of_suspended {t u : Session} {awaiter : Value} (rested : l.Rested t.machine)
    (moved : t.Moves (.ok (.suspended awaiter)) u) :
    ∃ q d σ, l.LeftBy (fun _ ↦ False) q d awaiter σ ∧ u.machine.persisted = σ.persisted ∧
      u.host = σ.host := by
  obtain ⟨fuel, r, σ, moved, enough, run, ran⟩ := moved.run_ends
  obtain ⟨⟨body, stateVar, labels, store, callbacks, resumptions⟩, host⟩ := t
  obtain ⟨rfl, rfl, rfl, rests⟩ := rested
  let m : Machine := ⟨l.body, l.contract.state, LabelIndex.build l.body, σ.persisted,
    callbacks + σ.awaiters.size, resumptions⟩
  have allowed : ∀ name ∈ L.prepared.calls, ¬ (fun _ ↦ False : String → Prop) name := fun _ _ ↦ id
  rcases L.run_ends allowed rests run enough with goesOn | ⟨rfl, q, d, awaiter', left⟩
  · -- A body that is running at its end does not wait.
    rcases done : completion r with reason | c
    · rw [Session.moveNext_stopped (ran.trans (congrArg (·, σ) done))] at moved
      cases moved
    · rw [Session.moveNext_completed (m := m) (ran.trans (congrArg (·, σ) done)) rfl] at moved
      have state : m.state = running := Machine.state_eq goesOn.state
      have notWait := (Session.progress_running state σ.host σ.awaiters c).1
      rw [(Prod.mk.inj moved).1] at notWait
      cases notWait
  · obtain ⟨earlier, awaiters, -⟩ := left.awaiters
    rw [Session.moveNext_completed (m := m) ran rfl] at moved
    have state : m.state = Int64.ofNat q.index := Machine.state_eq left.state
    have waits := Session.progress_waits (state ▸ L.index_nonneg left.index) σ.host earlier awaiter'
      .unit
    obtain ⟨came, rfl⟩ := Prod.mk.inj moved
    rw [← awaiters, came] at waits
    cases waits
    exact ⟨q, d, σ, left, rfl, rfl⟩

/-- A future that is not completed has no outcome. -/
theorem reaches_incomplete {s : Setting} {i k : NodeId} {v : Variable} {cell : Nat} {f : Future}
    {K : List Steps.Task} {σ : Frame} (untold : s.records = false)
    (held : lookup σ v.id = some (.future cell))
    (future : σ.host.future? cell = some f) (pending : f.isCompleted = false) :
    (system s).Reaches ⟨.enter ⟨i, .awaiter .getResult ⟨k, .var v⟩⟩ none, K, σ⟩
      ⟨.leave (.error (.stop (.fault ⟨.incomplete, some i⟩))), K, σ⟩ := by
  have silent (e : Event) : noted s e σ = σ := by rw [noted, untold]; rfl
  have asks : (system s).Reaches ⟨.enter ⟨i, .awaiter .getResult ⟨k, .var v⟩⟩ none, K, σ⟩
      ⟨.enter ⟨k, .var v⟩ none, ⟨⟨i, .awaiter .getResult ⟨k, .var v⟩⟩, .operand⟩ :: K, σ⟩ := by
    refine reaches_child ?_
    rw [silent]
    rfl
  refine asks.trans ((reaches_load held).trans ?_)
  rw [silent]
  refine reaches_over ?_
  have outcome : f.outcome? = none := if_neg (by simp [pending])
  show perform (Evaluator.awaiterStep .getResult (.future cell) _) σ = _
  rw [perform, Evaluator.awaiterStep, bind_apply, cell_apply, cell?, future]
  dsimp only [Option.map_some]
  rw [result, outcome]
  rfl

include L in
/-- **A body that is driven on before its future is completed is stopped at once.** It comes back to
where it waited and asks for an outcome that is not there. It has done nothing else by then, but its
state is that of a running body. -/
theorem asks_in_vain {u : Session} (rested : l.Rested u.machine) {q : Point} {d : Node}
    {awaiter : Value} {σ : Frame} (left : l.LeftBy (fun _ ↦ False) q d awaiter σ)
    (persisted : u.machine.persisted = σ.persisted) (host : u.host = σ.host) :
    ∃ place v, u.Moves (.error (.fault ⟨.incomplete, place⟩)) v ∧ v.machine.state = running ∧
      v.host = u.host := by
  obtain ⟨⟨body, stateVar, labels, store, callbacks, resumptions⟩, world⟩ := u
  obtain ⟨rfl, rfl, rfl, rests⟩ := rested
  obtain rfl : store = σ.persisted := persisted
  obtain rfl : world = σ.host := host
  obtain ⟨cell, f, rfl, future, pending⟩ := left.pending
  obtain ⟨i, small, same⟩ := left.index
  have filled (id : SymbolId) (keep : l.keeps id) : ∃ v, σ.persisted.get? id = some v := by
    obtain ⟨v, hoisted, rfl⟩ := List.mem_map.1 keep
    refine Option.isSome_iff_exists.1 (left.slots v ?_)
    exact List.mem_cons_of_mem _ (List.mem_append_left _ hoisted)
  have inside : Int64.ofNat q.index ∈ L.added.table.flatMap Case.tests := by
    rw [L.tests, same]
    exact List.mem_map_of_mem (List.mem_range.2 small)
  obtain ⟨acquire, p, o, n, label, question, within, isPoint, index, goesOn, τ, K, here, -,
    reach⟩ := L.reaches_question false σ.host left.state filled inside
  obtain ⟨j, shape⟩ := question
  obtain ⟨k, rfl⟩ := goesOn.asks
  -- The suspend point that the run comes back to is the one that was left.
  have own := L.waits_of_point isPoint within
  rw [index] at own
  have same := L.waits_unique own (L.waits_of_suspension left.suspension left.within)
  have running : l.Running (fun _ ↦ False) τ := L.running_of_at here left.slots
  have field : p.awaiter ∈ l.fields := (List.of_mem_zip own).2
  have held : lookup τ p.awaiter.id = some (.future cell) := by
    rw [lookup, running.outside _ (List.mem_cons_of_mem _ (List.mem_map_of_mem field)),
      here.persisted _ (L.added_apart.awaiters _ (L.fields ▸ field)).1, same]
    exact left.held
  have future : τ.host.future? cell = some f := here.host.symm ▸ future
  let s : Setting := { labels := LabelIndex.build l.body }
  obtain ⟨exs, ends⟩ := ends_of_stop (s := s) (.fault ⟨.incomplete, some j⟩) K τ
  replace ends :
      (system s).Ends (start l.body none { persisted := σ.persisted, host := σ.host }) _ :=
    .of_reaches (reach.trans (reaches_incomplete rfl held future pending)) ends
  obtain ⟨enough, run⟩ := eval_of_ends ends
  let m : Machine :=
    ⟨l.body, l.contract.state, LabelIndex.build l.body, σ.persisted, callbacks, resumptions⟩
  have ran : m.run enough σ.host =
      (.error (.fault ⟨.incomplete, some j⟩), { τ with handling := exs }) :=
    runBody_of_eval (run enough (Nat.le_refl _))
  have moved := Session.moveNext_stopped (s := ⟨m, σ.host⟩) ran
  exact ⟨some j, _, ⟨by rintro ⟨⟩, enough, moved⟩, Machine.state_eq running.state, here.host⟩

include L in
/-- **A driver that gives up leaves a pending future behind.** -/
theorem gives_up {s u : Session} (rested : l.Rested s.machine) {fuel allowed k : Nat}
    (h : s.driveWithin fuel allowed = (Session.faultAt (.resumeLimit k) none, u)) :
    u.machine.resumptions = k ∧ k = s.machine.resumptions + allowed ∧ ¬ u.machine.state < 0 ∧
      ∃ cell f, u.host.future? cell = some f ∧ f.isCompleted = false ∧
        (∀ more, s.driveWithin fuel (allowed + (more + 1)) =
          (u.resume (.future cell)).driveWithin fuel more) ∧
        ∃ place v, v.machine.state = running ∧ v.host = u.host ∧
          ∃ enough, ∀ fuel ≥ enough, ∀ allowed,
            u.driveWithin fuel allowed = (Session.faultAt .incomplete place, v) := by
  obtain ⟨awaiter, drives, limit, goesOn⟩ := Session.driveWithin_gaveUp h
  obtain ⟨t, before, moved⟩ := L.last_move drives rested
  obtain ⟨q, d, σ, left, persisted, host⟩ := L.leaves_of_suspended before moved
  have after := L.moves_rested moved before
  have state : u.machine.state = Int64.ofNat q.index := by
    refine Machine.state_eq ?_
    rw [after.stateVar, persisted]
    exact left.state
  obtain ⟨place, v, stopped, running, world⟩ := L.asks_in_vain after left persisted host
  obtain ⟨enough, same⟩ := stopped.settles
  obtain ⟨cell, f, rfl, future, pending⟩ := left.pending
  refine ⟨limit.symm, limit.trans drives.resumptions, state ▸ L.index_nonneg left.index, cell, f,
    host ▸ future, pending, goesOn, place, v, running, world, enough, fun fuel le allowed ↦ ?_⟩
  rw [Session.driveWithin_eq, same fuel le]
  rfl

end Layout

/-- **A driver that gives up can be followed by another one, but not at once.** A lowered body has
been moved any number of times, from its start and with values for parameters, and is driven under a
limit that is reached. Then it waits for a future that is not completed. If that is completed and
the resumption counted, driving on under a higher limit comes to what driving under that limit would
have come to in the first place. If not, driving on is stopped for want of an outcome under every
limit: nothing is done by then, but the machine does not wait any more. -/
theorem Node.LowersTo.gives_up {body : Node} {supply : Supply} {l : Lowered}
    (lowers : body.LowersTo supply l) {args : List (Variable × Value)}
    (older : ∀ a ∈ args, a.1.id.toNat < supply.symbol) {host : Host}
    {results : List (Except Stop Progress)} {s u : Session}
    (ran : Session.Ran ⟨(Machine.start l).withArguments args, host⟩ results s) {fuel limit k : Nat}
    (above : s.machine.resumptions ≤ limit)
    (gaveUp : s.drive fuel limit = (Session.faultAt (.resumeLimit k) none, u)) :
    k = limit ∧ ¬ u.machine.state < 0 ∧
      ∃ cell f, u.host.future? cell = some f ∧ f.isCompleted = false ∧
        (∀ higher > limit, s.drive fuel higher = (u.resume (.future cell)).drive fuel higher) ∧
        ∃ place v, v.machine.state = running ∧ v.host = u.host ∧
          ∃ enough, ∀ fuel ≥ enough, ∀ limit,
            u.drive fuel limit = (Session.faultAt .incomplete place, v) := by
  obtain ⟨L, -⟩ := lowers.layout
  have rested := L.ran_rested ran (lowers.start_rested older).1
  obtain ⟨counted, total, waits, cell, f, future, pending, goesOn, place, v, running, world, enough,
    vain⟩ := L.gives_up rested gaveUp
  obtain rfl : k = limit := total.trans (Nat.add_sub_cancel' above)
  refine ⟨rfl, waits, cell, f, future, pending, fun higher more ↦ ?_, place, v, running, world,
    enough, fun fuel le limit ↦ vain fuel le _⟩
  have resumed : (u.resume (.future cell)).machine.resumptions = k + 1 := congrArg (· + 1) counted
  rw [Session.drive, Session.drive, resumed, ← goesOn]
  congr 1
  omega

end Suspension
