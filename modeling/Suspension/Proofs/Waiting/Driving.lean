import Suspension.Proofs.Suspending.Limits

/-!
# Driving as a machine

A session that is driven makes one run after another. `Session.driving` is the machine of all of
them: a step is a step of the run under way, and where a run has stopped to wait, the next step
completes the future and starts the next run. It comes to what driving the session comes to with
sufficient fuel and a limit that is large enough (`Session.comesTo_iff_ends`), and all that it comes
by is part of a run that follows on some resumptions (`Session.resumed_of_reaches`).
-/

namespace Suspension

open Steps TransitionSystem

namespace Session

/-- What a machine comes to by a run that ended so. -/
def after (m : Machine) (r : Outcome) (σ : Frame) : Except Stop Progress × Session :=
  match completion r with
  | .error reason => (.error reason, ⟨{ m with persisted := σ.persisted }, σ.host⟩)
  | .ok c =>
    let moved : Machine :=
      { m with persisted := σ.persisted, callbacks := m.callbacks + σ.awaiters.size }
    (progress moved σ.host σ.awaiters c, ⟨moved, σ.host⟩)

variable {s t u : Session} {r : Except Stop Progress} {fuel : Nat}

theorem moveNext_of_run {r : Outcome} {σ : Frame}
    (ran : s.machine.run fuel s.host = (completion r, σ)) :
    s.moveNext fuel = after s.machine r σ := by
  rw [after]
  rcases done : completion r with reason | c
  · rw [done] at ran
    exact moveNext_stopped ran
  · rw [done] at ran
    exact moveNext_completed ran rfl

/-- A session between two steps. -/
structure UnderWay where
  machine : Machine
  here : Configuration

/-- A session that makes its next run. -/
def begins (s : Session) : UnderWay where
  machine := s.machine
  here := start s.machine.body none { persisted := s.machine.persisted, host := s.host }

namespace UnderWay

/-- How the runs of a machine are made. -/
def setting (d : UnderWay) : Setting :=
  { labels := d.machine.labels }

/-- What a session does when a run is over. -/
def follows : Except Stop Progress × Session → Option UnderWay
  | (.ok (.suspended awaiter), t) => some (t.resume awaiter).begins
  | _ => none

/-- One step of a session. A session that is over stays as it is. -/
def next (d : UnderWay) : UnderWay :=
  match d.here.result? with
  | none => { d with here := Steps.next d.setting d.here }
  | some (r, σ) => (follows (after d.machine r σ)).getD d

/-- What a session has come to, if it is over. -/
def result? (d : UnderWay) : Option (Except Stop Progress × Session) :=
  match d.here.result? with
  | none => none
  | some (r, σ) =>
    match follows (after d.machine r σ) with
    | none => some (after d.machine r σ)
    | some _ => none

/-- A session that is not resumed is over when its run is. -/
theorem result?_of_last {m : Machine} {r : Outcome} {σ : Frame}
    (last : follows (after m r σ) = none) :
    result? ⟨m, ⟨.leave r, [], σ⟩⟩ = some (after m r σ) := by
  simp only [result?, Configuration.result?, last]

end UnderWay

/-- Driving as a transition system. -/
def driving : TransitionSystem UnderWay (Except Stop Progress × Session) where
  next := UnderWay.next
  result? := UnderWay.result?
  next_of_result := by
    intro d x h
    rw [UnderWay.result?] at h
    rw [UnderWay.next]
    cases finished : d.here.result? with
    | none =>
      rw [finished] at h
      cases h
    | some y =>
      rw [finished] at h
      dsimp only at h ⊢
      cases goesOn : UnderWay.follows (after d.machine y.1 y.2) with
      | none => rfl
      | some e =>
        rw [goesOn] at h
        cases h

variable {d e : UnderWay} {x : Except Stop Progress × Session}

/-- A run under way goes on. -/
theorem next_of_live (live : d.here.result? = none) :
    driving.next d = { d with here := Steps.next d.setting d.here } := by
  show d.next = _
  rw [UnderWay.next, live]

/-- When a run is over, the next one follows if there is one. -/
theorem next_of_result {y : Outcome × Frame} (finished : d.here.result? = some y) :
    driving.next d = (UnderWay.follows (after d.machine y.1 y.2)).getD d := by
  show d.next = _
  rw [UnderWay.next, finished]

/-- What a run comes by, the session comes by. -/
theorem reaches_of_run {m : Machine} {c c' : Configuration}
    (h : (system { labels := m.labels }).Reaches c c') : driving.Reaches ⟨m, c⟩ ⟨m, c'⟩ := by
  obtain ⟨k, rfl⟩ := h
  induction k generalizing c with
  | zero => exact .refl _
  | succ k ih =>
    cases finished : c.result? with
    | none =>
      refine .trans (Proceeds.of_next (next_of_live (d := ⟨m, c⟩) finished)).reaches ?_
      rw [Nat.add_comm, run_add]
      exact ih
    | some y =>
      rw [run_of_result (M := system _) finished]
      exact .refl _

theorem proceeds_of_run {m : Machine} {c c' : Configuration} (live : c.result? = none)
    (h : (system { labels := m.labels }).Proceeds c c') : driving.Proceeds ⟨m, c⟩ ⟨m, c'⟩ := by
  obtain ⟨k, positive, rfl⟩ := h
  obtain ⟨k, rfl⟩ := Nat.exists_eq_succ_of_ne_zero (Nat.ne_of_gt positive)
  refine .trans_reaches (.of_next (next_of_live (d := ⟨m, c⟩) live)) ?_
  rw [Nat.succ_eq_add_one, Nat.add_comm, run_add]
  exact reaches_of_run ⟨k, rfl⟩

/-- A run that stopped to wait is followed by another one. -/
theorem proceeds_of_suspended {m : Machine} {r : Outcome} {σ : Frame} {awaiter : Value}
    (waits : after m r σ = (.ok (.suspended awaiter), t)) :
    driving.Proceeds ⟨m, ⟨.leave r, [], σ⟩⟩ (t.resume awaiter).begins := by
  refine .of_next ?_
  show (UnderWay.follows (after m r σ)).getD _ = _
  rw [waits]
  rfl

/-- A move as part of driving. -/
theorem Moves.reaches (h : s.Moves r t) : ∃ r' σ, after s.machine r' σ = (r, t) ∧
    driving.Reaches s.begins ⟨s.machine, ⟨.leave r', [], σ⟩⟩ := by
  obtain ⟨fuel, r', σ, moved, enough, run, ran⟩ := h.run_ends
  exact ⟨r', σ, (moveNext_of_run ran).symm.trans moved, reaches_of_run (reaches_of_eval run enough)⟩

/-- What the last move of a session comes to, the session comes to. -/
theorem Drives.ends {k : Nat} (h : s.Drives k r t) (last : stopsToWait r = false) :
    driving.Ends s.begins (r, t) := by
  induction h with
  | @last s t r moved =>
    obtain ⟨r', σ, same, reach⟩ := moved.reaches
    have final : UnderWay.follows (after s.machine r' σ) = none := by
      rw [same]
      rcases r with reason | value | awaiter
      · rfl
      · rfl
      · cases last
    exact ⟨_, reach, (UnderWay.result?_of_last final).trans (congrArg some same)⟩
  | resumed moved rest ih =>
    obtain ⟨r', σ, same, reach⟩ := moved.reaches
    exact .of_reaches (reach.trans (proceeds_of_suspended same).reaches) (ih last)

/-- A session comes to its end by a run, or by those that follow it. -/
theorem run_of_ends {k : Nat} {d : UnderWay} (h : driving.result? (driving.run k d) = some x) :
    ∃ r σ, (system d.setting).Ends d.here (r, σ) ∧
      (UnderWay.follows (after d.machine r σ) = none ∧ x = after d.machine r σ ∨
        ∃ e, UnderWay.follows (after d.machine r σ) = some e ∧
          ∃ j < k, driving.result? (driving.run j e) = some x) := by
  -- The induction is on the steps: a step of the run under way, or the start of the next run.
  induction k generalizing d with
  | zero =>
    change d.result? = some x at h
    rw [UnderWay.result?] at h
    cases finished : d.here.result? with
    | none =>
      rw [finished] at h
      cases h
    | some y =>
      rw [finished] at h
      dsimp only at h
      refine ⟨y.1, y.2, .of_result finished, .inl ?_⟩
      cases goesOn : UnderWay.follows (after d.machine y.1 y.2) with
      | none =>
        rw [goesOn] at h
        exact ⟨rfl, (Option.some.inj h).symm⟩
      | some e =>
        rw [goesOn] at h
        cases h
  | succ k ih =>
    rw [Nat.add_comm, run_add, run_one] at h
    cases finished : d.here.result? with
    | none =>
      rw [next_of_live finished] at h
      obtain ⟨r, σ, ends, rest⟩ := ih h
      refine ⟨r, σ, .of_next ends, rest.imp_right ?_⟩
      rintro ⟨e, goesOn, j, less, later⟩
      exact ⟨e, goesOn, j, Nat.lt_succ_of_lt less, later⟩
    | some y =>
      refine ⟨y.1, y.2, .of_result finished, ?_⟩
      rw [next_of_result finished] at h
      cases goesOn : UnderWay.follows (after d.machine y.1 y.2) with
      | none =>
        have ended : driving.result? d = some (after d.machine y.1 y.2) := by
          show d.result? = _
          rw [UnderWay.result?, finished]
          dsimp only
          rw [goesOn]
        rw [goesOn, Option.getD_none, run_of_result ended, ended] at h
        exact .inl ⟨rfl, (Option.some.inj h).symm⟩
      | some e =>
        rw [goesOn, Option.getD_some] at h
        exact .inr ⟨e, rfl, k, Nat.lt_succ_self k, h⟩

/-- The end of a run is a move. -/
theorem moves_of_ends {r' : Outcome} {σ : Frame} (enough : r ≠ .error .outOfFuel)
    (ends : (system s.begins.setting).Ends s.begins.here (r', σ))
    (same : after s.machine r' σ = (r, t)) : s.Moves r t := by
  obtain ⟨fuel, evaluates⟩ := eval_of_ends ends
  have ran : s.machine.run fuel s.host = (completion r', σ) :=
    runBody_of_eval (evaluates fuel (Nat.le_refl _))
  exact ⟨enough, fuel, (moveNext_of_run ran).trans same⟩

theorem UnderWay.follows_eq_some {x : Except Stop Progress × Session} {e : UnderWay}
    (h : follows x = some e) : ∃ awaiter, x.1 = .ok (.suspended awaiter) ∧
      e = (x.2.resume awaiter).begins := by
  obtain ⟨reason | value | awaiter, t⟩ := x
  · cases h
  · cases h
  · cases h
    exact ⟨awaiter, rfl, rfl⟩

theorem UnderWay.follows_eq_none {x : Except Stop Progress × Session} (h : follows x = none) :
    stopsToWait x.1 = false := by
  obtain ⟨reason | value | awaiter, t⟩ := x
  · rfl
  · rfl
  · cases h

/-- What a session comes to, the last of its moves does. -/
theorem drives_of_ends (enough : r ≠ .error .outOfFuel) (h : driving.Ends s.begins (r, t)) :
    stopsToWait r = false ∧ ∃ k, s.Drives k r t := by
  obtain ⟨d, ⟨k, rfl⟩, ended⟩ := h
  induction k using Nat.strong_induction_on generalizing s with
  | _ k ih =>
    obtain ⟨r', σ, ends, ⟨finished, same⟩ | ⟨e, goesOn, j, less, later⟩⟩ := run_of_ends ended
    · have last := UnderWay.follows_eq_none finished
      rw [← same] at last
      exact ⟨last, 0, .last (moves_of_ends enough ends same.symm)⟩
    · obtain ⟨awaiter, waits, rfl⟩ := UnderWay.follows_eq_some goesOn
      obtain ⟨last, n, drives⟩ := ih j less later
      have moved : s.Moves (.ok (.suspended awaiter)) (after s.machine r' σ).2 :=
        moves_of_ends nofun ends (Prod.ext waits rfl)
      exact ⟨last, n + 1, .resumed moved drives⟩

/-! ### What a session comes to -/

/-- What a session comes to with all sufficient fuel, under any limit that is large enough. -/
def ComesTo (s : Session) (x : Except Stop Value) (t : Session) : Prop :=
  x ≠ .error .outOfFuel ∧ ∃ enough, ∀ fuel ≥ enough, ∀ limit ≥ enough, s.drive fuel limit = (x, t)

theorem map_completed_ne {x : Except Stop Value} (enough : x ≠ .error .outOfFuel) :
    x.map Progress.completed ≠ .error .outOfFuel := by
  cases x with
  | error reason =>
    intro same
    cases same
    exact enough rfl
  | ok value => nofun

/-- What driving a session with some fuel comes to, unless the fuel is used up. -/
theorem drives_of_driveWithin {allowed : Nat} {x : Except Stop Value}
    (enough : x ≠ .error .outOfFuel)
    (h : s.driveWithin fuel allowed = (x, t)) :
    (∃ k ≤ allowed, s.Drives k (x.map .completed) t) ∨
      x = faultAt (.resumeLimit (s.machine.resumptions + allowed)) none := by
  induction allowed generalizing s with
  | zero =>
    rw [driveWithin_eq] at h
    rcases moved : s.moveNext fuel with ⟨reason | value | awaiter, u⟩
    · rw [moved] at h
      cases h
      exact .inl ⟨0, Nat.le_refl 0, .last ⟨map_completed_ne enough, fuel, moved⟩⟩
    · rw [moved] at h
      cases h
      exact .inl ⟨0, Nat.le_refl 0, .last ⟨nofun, fuel, moved⟩⟩
    · rw [moved] at h
      cases h
      have counted := moveNext_resumptions s fuel
      rw [moved] at counted
      exact .inr (by rw [Nat.add_zero, ← counted])
  | succ allowed ih =>
    rw [driveWithin_eq] at h
    rcases moved : s.moveNext fuel with ⟨reason | value | awaiter, u⟩
    · rw [moved] at h
      cases h
      exact .inl ⟨0, Nat.zero_le _, .last ⟨map_completed_ne enough, fuel, moved⟩⟩
    · rw [moved] at h
      cases h
      exact .inl ⟨0, Nat.zero_le _, .last ⟨nofun, fuel, moved⟩⟩
    · rw [moved] at h
      have counted := moveNext_resumptions s fuel
      rw [moved] at counted
      rcases ih h with ⟨k, le, drives⟩ | gaveUp
      · exact .inl ⟨k + 1, Nat.succ_le_succ le, .resumed ⟨nofun, fuel, moved⟩ drives⟩
      · have again : (u.resume awaiter).machine.resumptions = u.machine.resumptions + 1 := rfl
        rw [again, counted, Nat.add_assoc, Nat.add_comm 1] at gaveUp
        exact .inr gaveUp

/-- What a session comes to is what its last move does. -/
theorem comesTo_iff {x : Except Stop Value} : s.ComesTo x t ↔
    x ≠ .error .outOfFuel ∧ ∃ k, s.Drives k (x.map .completed) t := by
  refine and_congr_right fun enough ↦ ⟨?_, ?_⟩
  · rintro ⟨n, drives⟩
    -- Two limits are compared, for either may be the one at which driving gives up.
    let limit := n + s.machine.resumptions
    have large : n ≤ limit := Nat.le_add_right _ _
    have first := drives n (Nat.le_refl n) limit large
    have second := drives n (Nat.le_refl n) (limit + 1) (Nat.le_succ_of_le large)
    rw [drive] at first second
    rcases drives_of_driveWithin enough first with ⟨k, -, done⟩ | gaveUp
    · exact ⟨k, done⟩
    · rcases drives_of_driveWithin enough second with ⟨k, -, done⟩ | gaveUp'
      · exact ⟨k, done⟩
      · -- A driver that gives up does so later under a higher limit.
        rw [gaveUp] at gaveUp'
        simp only [faultAt, Except.error.injEq, Stop.fault.injEq, Fault.mk.injEq,
          FaultCause.resumeLimit.injEq, and_true] at gaveUp'
        omega
  · rintro ⟨k, done⟩
    obtain ⟨n, same⟩ := done.driven
    refine ⟨n + k + s.machine.resumptions, fun fuel le limit le' ↦ ?_⟩
    have allowed : limit - s.machine.resumptions = k + (limit - s.machine.resumptions - k) := by
      omega
    rw [drive, allowed, (same fuel (by omega)).1]
    cases x <;> rfl

/-- What driving a session comes to within some limit, the session comes to. -/
theorem comesTo_of_drive {limit : Nat} {x : Except Stop Value} (h : s.drive fuel limit = (x, t))
    (enough : x ≠ .error .outOfFuel) (within : ∀ n, x ≠ faultAt (.resumeLimit n) none) :
    s.ComesTo x t := by
  rcases drives_of_driveWithin enough h with ⟨k, -, drives⟩ | gaveUp
  · exact comesTo_iff.2 ⟨enough, k, drives⟩
  · exact absurd gaveUp (within _)

/-- A session comes to what driving it as a machine comes to. -/
theorem comesTo_iff_ends {x : Except Stop Value} : s.ComesTo x t ↔
    x ≠ .error .outOfFuel ∧ driving.Ends s.begins (x.map .completed, t) := by
  rw [comesTo_iff]
  refine and_congr_right fun enough ↦ ⟨?_, fun ends ↦ ?_⟩
  · rintro ⟨k, drives⟩
    exact drives.ends (by cases x <;> rfl)
  · exact (drives_of_ends (map_completed_ne enough) ends).2

/-! ### All that a session comes by -/

/-- A session after some resumptions, when it is about to make the next run. -/
inductive Resumed (s : Session) : Session → Prop
  | start : Resumed s s
  | again {t u : Session} {awaiter : Value} (earlier : Resumed s t)
    (moved : t.Moves (.ok (.suspended awaiter)) u) : Resumed s (u.resume awaiter)

/-- All that a session comes by is part of one of its runs. -/
theorem resumed_of_reaches {d : UnderWay} (h : driving.Reaches s.begins d) :
    ∃ t, s.Resumed t ∧ d.machine = t.machine ∧
      (system t.begins.setting).Reaches t.begins.here d.here := by
  obtain ⟨k, rfl⟩ := h
  induction k with
  | zero => exact ⟨s, .start, rfl, .refl _⟩
  | succ k ih =>
    obtain ⟨t, resumed, machine, reach⟩ := ih
    rw [run_add, run_one]
    generalize driving.run k s.begins = d at machine reach
    have setting : d.setting = t.begins.setting := by rw [UnderWay.setting, machine]; rfl
    cases finished : d.here.result? with
    | none =>
      rw [next_of_live finished, setting]
      exact ⟨t, resumed, machine, reach.trans (Proceeds.next _).reaches⟩
    | some y =>
      rw [next_of_result finished]
      cases goesOn : UnderWay.follows (after d.machine y.1 y.2) with
      | none => exact ⟨t, resumed, machine, reach⟩
      | some e =>
        obtain ⟨awaiter, waits, rfl⟩ := UnderWay.follows_eq_some goesOn
        rw [machine] at waits ⊢
        have moved : t.Moves (.ok (.suspended awaiter)) (after t.machine y.1 y.2).2 :=
          moves_of_ends nofun ⟨d.here, reach, finished⟩ (Prod.ext waits rfl)
        exact ⟨_, resumed.again moved, rfl, .refl _⟩

end Session

end Suspension
