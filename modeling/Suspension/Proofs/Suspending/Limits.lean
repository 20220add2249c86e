import Suspension.Proofs.Suspending.Moves

/-!
# Limits on resumptions

A session that is driven without a limit makes move after move, and after each that stops to wait it
is resumed: `Session.Drives` says what the move after so many resumptions comes to. Nothing in it is
about fuel, since what a move comes to with some fuel it comes to with any more
(`Session.Moves.settles`).

A limit is where the driver stops looking at this run, and changes nothing before
(`Session.Drives.driven`): the move at the limit is one of the run, so what was traced by then is
the start of all that is traced. For a lowered body the awaiters that were handed over are counted
along (`Layout.drives`): there is one for each move that stopped to wait, which is one more than
there were resumptions exactly if the driver gave up (`Node.LowersTo.limit_exact`).
-/

namespace Suspension

open Steps

namespace Session

/-! ### One move -/

/-- What the next move of a session comes to. -/
def Moves (s : Session) (r : Except Stop Progress) (t : Session) : Prop :=
  r ≠ .error .outOfFuel ∧ ∃ fuel, s.moveNext fuel = (r, t)

variable {s t u : Session} {r : Except Stop Progress}

theorem moveNext_congr {fuel fuel' : Nat}
    (same : s.machine.run fuel' s.host = s.machine.run fuel s.host) :
    s.moveNext fuel' = s.moveNext fuel := by
  rcases ran : s.machine.run fuel s.host with ⟨reason | c, σ⟩
  · rw [moveNext_stopped ran, moveNext_stopped (same.trans ran)]
  · rw [moveNext_completed ran rfl, moveNext_completed (same.trans ran) rfl]

theorem moveNext_host (s : Session) (fuel : Nat) :
    (s.moveNext fuel).2.host = (s.machine.run fuel s.host).2.host := by
  rcases ran : s.machine.run fuel s.host with ⟨reason | c, σ⟩
  · rw [moveNext_stopped ran]
  · rw [moveNext_completed ran rfl]

theorem moveNext_resumptions (s : Session) (fuel : Nat) :
    (s.moveNext fuel).2.machine.resumptions = s.machine.resumptions := by
  rcases ran : s.machine.run fuel s.host with ⟨reason | c, σ⟩
  · rw [moveNext_stopped ran]
  · rw [moveNext_completed ran rfl]

/-- A move that comes to something is a run that does. -/
theorem Moves.run_ends (h : s.Moves r t) : ∃ fuel r' σ,
    s.moveNext fuel = (r, t) ∧ r' ≠ .error (.stop .outOfFuel) ∧
      eval { labels := s.machine.labels } fuel s.machine.body none
        { persisted := s.machine.persisted, host := s.host } = (r', σ) ∧
      s.machine.run fuel s.host = (completion r', σ) := by
  obtain ⟨enough, fuel, moved⟩ := h
  rcases run : eval { labels := s.machine.labels } fuel s.machine.body none
    { persisted := s.machine.persisted, host := s.host } with ⟨r', σ⟩
  have ran : s.machine.run fuel s.host = (completion r', σ) := runBody_of_eval run
  refine ⟨fuel, r', σ, moved, ?_, run, ran⟩
  rintro rfl
  rw [moveNext_stopped ran] at moved
  exact enough (congrArg Prod.fst moved).symm

/-- What a move comes to with some fuel, it comes to with all sufficient fuel. -/
theorem Moves.settles (h : s.Moves r t) : ∃ enough, ∀ fuel ≥ enough, s.moveNext fuel = (r, t) := by
  obtain ⟨fuel, r', σ, moved, out, run, ran⟩ := h.run_ends
  obtain ⟨enough, same⟩ := eval_of_ends (ends_of_eval run out)
  refine ⟨enough, fun fuel' le ↦ ?_⟩
  rw [← moved]
  exact moveNext_congr ((runBody_of_eval (same fuel' le)).trans ran.symm)

/-- A move takes back no line. -/
theorem Moves.trace (h : s.Moves r t) : s.host.trace.toList <+: t.host.trace.toList := by
  obtain ⟨fuel, r', σ, moved, out, run, ran⟩ := h.run_ends
  have host := moveNext_host s fuel
  rw [moved, ran] at host
  rw [host]
  exact (kept_of_reaches _ (@reaches_of_eval _ _ _ _ [] _ _ _ run out)).trace

theorem Moves.resumptions (h : s.Moves r t) : t.machine.resumptions = s.machine.resumptions := by
  obtain ⟨-, fuel, moved⟩ := h
  rw [← moveNext_resumptions s fuel, moved]

/-- To resume a session leaves the log as it is. -/
theorem resume_trace (s : Session) (awaiter : Value) :
    (s.resume awaiter).host.trace = s.host.trace := by
  cases awaiter <;> rfl

/-! ### All moves -/

/-- What the move of a session after a number of resumptions comes to, when nothing but that move
puts an end to driving it. -/
inductive Drives : Session → Nat → Except Stop Progress → Session → Prop
  | last {s t : Session} {r : Except Stop Progress} (moved : s.Moves r t) : Drives s 0 r t
  | resumed {s t u : Session} {awaiter : Value} {k : Nat} {r : Except Stop Progress}
    (moved : s.Moves (.ok (.suspended awaiter)) t) (rest : Drives (t.resume awaiter) k r u) :
    Drives s (k + 1) r u

/-- What the driver does after a move, if it allows a number of resumptions after it. -/
def follow (fuel allowed : Nat) : Except Stop Progress × Session → Except Stop Value × Session
  | (.error reason, s) => (.error reason, s)
  | (.ok (.completed value), s) => (.ok value, s)
  | (.ok (.suspended awaiter), s) =>
    match allowed with
    | 0 => (faultAt (.resumeLimit s.machine.resumptions) none, s)
    | allowed + 1 => (s.resume awaiter).driveWithin fuel allowed

theorem driveWithin_eq (fuel allowed : Nat) (s : Session) :
    s.driveWithin fuel allowed = follow fuel allowed (s.moveNext fuel) := by
  rw [driveWithin.eq_def]
  dsimp only
  rcases s.moveNext fuel with ⟨reason | value | awaiter, t⟩ <;> rfl

namespace Drives

variable {k : Nat}

/-- Nothing that is traced is taken back. -/
theorem trace (h : Drives s k r t) : s.host.trace.toList <+: t.host.trace.toList := by
  induction h with
  | last moved => exact moved.trace
  | resumed moved rest ih =>
    rw [resume_trace] at ih
    exact moved.trace.trans ih

theorem resumptions (h : s.Drives k r t) :
    t.machine.resumptions = s.machine.resumptions + k := by
  induction h with
  | last moved => exact moved.resumptions
  | @resumed s t u awaiter k r moved rest ih =>
    have counted : (t.resume awaiter).machine.resumptions = s.machine.resumptions + 1 :=
      congrArg (· + 1) moved.resumptions
    omega

/-- With a limit a session is driven as it is without, until the limit is reached. If that is before
the end, the driver gives up after one of the moves that stopped to wait. -/
theorem driven (h : Drives s k r t) : ∃ enough, ∀ fuel ≥ enough,
    (∀ more, s.driveWithin fuel (k + more) = follow fuel more (r, t)) ∧
    ∀ limit < k, ∃ awaiter u, Drives s limit (.ok (.suspended awaiter)) u ∧
      u.host.trace.toList <+: t.host.trace.toList ∧
      s.driveWithin fuel limit = follow fuel 0 (.ok (.suspended awaiter), u) := by
  induction h with
  | @last s t r moved =>
    obtain ⟨enough, same⟩ := moved.settles
    refine ⟨enough, fun fuel le ↦ ⟨fun more ↦ ?_, fun limit less ↦ absurd less (Nat.not_lt_zero _)⟩⟩
    rw [Nat.zero_add, driveWithin_eq, same fuel le]
  | @resumed s t u awaiter k r moved rest ih =>
    obtain ⟨enough, same⟩ := moved.settles
    obtain ⟨enough', goesOn⟩ := ih
    refine ⟨max enough enough', fun fuel le ↦ ?_⟩
    obtain ⟨whole, partly⟩ := goesOn fuel (Nat.le_trans (Nat.le_max_right _ _) le)
    replace same := same fuel (Nat.le_trans (Nat.le_max_left _ _) le)
    refine ⟨fun more ↦ ?_, fun limit less ↦ ?_⟩
    · rw [Nat.add_right_comm, driveWithin_eq, same]
      exact whole more
    · cases limit with
      | zero =>
        refine ⟨awaiter, t, .last moved, resume_trace t awaiter ▸ rest.trace, ?_⟩
        rw [driveWithin_eq, same]
      | succ limit =>
        obtain ⟨last, v, earlier, kept, gaveUp⟩ := partly limit (Nat.lt_of_succ_lt_succ less)
        refine ⟨last, v, .resumed moved earlier, kept, ?_⟩
        rw [driveWithin_eq, same]
        exact gaveUp

end Drives

end Session

/-! ### Lowered bodies -/

/-- A lowered body that is driven hands over an awaiter in each move that stops to wait, and none in
others. -/
theorem Layout.drives {l : Lowered} (L : Layout l) (silent : onCompleted ∉ L.prepared.calls)
    {s t : Session} {k : Nat} {r : Except Stop Progress} (h : s.Drives k r t)
    (rested : l.Rested s.machine) :
    t.machine.resumptions = s.machine.resumptions + k ∧ t.machine.callbacks =
      s.machine.callbacks + k + if Session.stopsToWait r then 1 else 0 := by
  have move {s t : Session} {r : Except Stop Progress} (moved : s.Moves r t)
      (rested : l.Rested s.machine) : l.Rested t.machine ∧ t.machine.callbacks =
        s.machine.callbacks + if Session.stopsToWait r then 1 else 0 := by
    obtain ⟨enough, fuel, moved⟩ := moved
    have after := @Layout.move l L (· = onCompleted)
      (fun name called same ↦ silent (same ▸ called)) s rested fuel (by rwa [moved])
    rw [moved] at after
    refine after.imp_right fun comes ↦ ?_
    cases comes with
    | ends _ notWait _ callbacks => rw [callbacks rfl, notWait]; rfl
    | waits _ _ _ callbacks => exact callbacks rfl
  refine ⟨h.resumptions, ?_⟩
  induction h with
  | last moved => exact (move moved rested).2
  | @resumed s t u awaiter k r moved rest ih =>
    obtain ⟨still, callbacks⟩ := move moved rested
    have all := ih ⟨still.body, still.stateVar, still.labels, still.rests⟩
    have handed : (t.resume awaiter).machine.callbacks = s.machine.callbacks + 1 := callbacks
    omega

/-- **The limit is exact and changes nothing else.** A body that hands over no awaiters itself is
driven without a limit, from its start and with values for parameters. It is resumed `k` times and
comes to its value, or to what stopped it. Then it comes to the same, with the same log, under every
limit from `k` on, and as many awaiters were handed over as there were resumptions. Under a lower
limit the driver gives up once it has resumed the body that often, when the next awaiter was handed
over already, and what was traced by then is the start of the log. -/
theorem Node.LowersTo.limit_exact {body : Node} {supply : Supply} {l : Lowered}
    (lowers : body.LowersTo supply l) (silent : onCompleted ∉ body.calls)
    {args : List (Variable × Value)} (older : ∀ a ∈ args, a.1.id.toNat < supply.symbol)
    {host : Host} {k : Nat} {r : Except Stop Value} {s t : Session}
    (fresh : s = ⟨(Machine.start l).withArguments args, host⟩)
    (ends : s.Drives k (r.map .completed) t) :
    t.machine.resumptions = k ∧ t.machine.callbacks = k ∧ ∃ enough, ∀ fuel ≥ enough, ∀ limit,
      (k ≤ limit → s.drive fuel limit = (r, t)) ∧
      (limit < k → ∃ u, s.drive fuel limit = (Session.faultAt (.resumeLimit limit) none, u) ∧
        u.machine.resumptions = limit ∧ u.machine.callbacks = limit + 1 ∧
        u.host.trace.toList <+: t.host.trace.toList) := by
  subst fresh
  obtain ⟨L, -, -, -, -, -, -, calls⟩ := lowers.layout
  obtain ⟨rested, -, unused⟩ := lowers.start_rested older
  -- Both counters are read off the drive; they start at zero.
  have anew : ((Machine.start l).withArguments args).resumptions = 0 := by
    rw [Machine.withArguments_eq]
    rfl
  have counts {j : Nat} {r : Except Stop Progress} {u : Session}
      (drives : Session.Drives ⟨(Machine.start l).withArguments args, host⟩ j r u) :
      u.machine.resumptions = j ∧
        u.machine.callbacks = j + if Session.stopsToWait r then 1 else 0 := by
    obtain ⟨resumptions, callbacks⟩ := L.drives (fun called ↦ silent (calls called)) drives rested
    rw [resumptions, callbacks, anew, unused, Nat.zero_add]
    exact ⟨rfl, rfl⟩
  obtain ⟨resumptions, callbacks⟩ := counts ends
  obtain ⟨enough, driven⟩ := ends.driven
  refine ⟨resumptions, by cases r <;> exact callbacks, enough, fun fuel le limit ↦ ?_⟩
  obtain ⟨whole, partly⟩ := driven fuel le
  rw [Session.drive, anew, Nat.sub_zero]
  constructor
  · intro above
    obtain ⟨more, rfl⟩ := Nat.exists_eq_add_of_le above
    rw [whole more]
    cases r <;> rfl
  · intro below
    obtain ⟨awaiter, u, drives, kept, gaveUp⟩ := partly limit below
    obtain ⟨resumptions, callbacks⟩ := counts drives
    refine ⟨u, ?_, resumptions, callbacks, kept⟩
    rw [gaveUp, Session.follow, resumptions]

/-- A body that waits for a future that fails, and again in the clause that catches the failure. It
has its value under the limit 2, and under the limits 0 and 1 it has none. -/
theorem Node.LowersTo.limit_exact_clause : ∃ (body : Node) (l : Lowered) (s t : Session),
    body.LowersTo { node := 12, symbol := 2 } l ∧ onCompleted ∉ body.calls ∧
      s = ⟨(Machine.start l).withArguments [], {}⟩ ∧ s.Drives 2 (.ok (.completed (.int 7))) t ∧
      t.host.trace = #["error(broken)"] ∧
      t.machine.resumptions = 2 ∧ t.machine.callbacks = 2 ∧ ∃ enough, ∀ fuel ≥ enough, ∀ limit,
        (2 ≤ limit → s.drive fuel limit = (.ok (.int 7), t)) ∧
        (limit < 2 → ∃ u, s.drive fuel limit = (Session.faultAt (.resumeLimit limit) none, u) ∧
          u.machine.resumptions = limit ∧ u.machine.callbacks = limit + 1 ∧
          u.host.trace.toList <+: t.host.trace.toList) := by
  let e : Variable := ⟨1, "e", .any⟩
  let fails : Node := ⟨3, .await ⟨2, .call "fail" [⟨0, .const (.str "broken")⟩,
    ⟨1, .const (.int 1)⟩]⟩ none .any⟩
  let handles : Node := ⟨9, .block [] [⟨5, .call "trace" [⟨4, .var e⟩]⟩,
    ⟨8, .await ⟨7, .call "pending" [⟨6, .const (.int 7)⟩]⟩ none .int⟩]⟩
  let body : Node := ⟨11, .region fails [⟨some e, none, handles⟩] none none⟩
  let first (l : Lowered) := (⟨Machine.start l, {}⟩ : Session).moveNext 60
  let second (l : Lowered) := ((first l).2.resume (.future 0)).moveNext 60
  let last (l : Lowered) := ((second l).2.resume (.future 1)).moveNext 60
  obtain ⟨l, lowers, holds⟩ := @Node.exists_lowersTo_with body { node := 12, symbol := 2 }
    (by decide +kernel)
    (fun l ↦ (first l).1 == .ok (.suspended (.future 0)) &&
      ((second l).1 == .ok (.suspended (.future 1)) &&
        ((last l).1 == .ok (.completed (.int 7)) &&
          (last l).2.host.trace == #["error(broken)"]))) (by decide +kernel)
  simp only [Bool.and_eq_true, beq_iff_eq] at holds
  obtain ⟨failing, waiting, completed, traced⟩ := holds
  have waits : Session.Moves ⟨(Machine.start l).withArguments [], {}⟩
      (.ok (.suspended (.future 0))) (first l).2 := ⟨by rintro ⟨⟩, 60, failing ▸ rfl⟩
  have caught : ((first l).2.resume (.future 0)).Moves (.ok (.suspended (.future 1)))
      (second l).2 := ⟨by rintro ⟨⟩, 60, waiting ▸ rfl⟩
  have completes : ((second l).2.resume (.future 1)).Moves (.ok (.completed (.int 7)))
      (last l).2 := ⟨by rintro ⟨⟩, 60, completed ▸ rfl⟩
  have drives : Session.Drives ⟨(Machine.start l).withArguments [], {}⟩ 2
      (.ok (.completed (.int 7))) (last l).2 := .resumed waits (.resumed caught (.last completes))
  have silent : onCompleted ∉ body.calls := by decide +kernel
  exact ⟨body, l, _, _, lowers, silent, rfl, drives, traced,
    lowers.limit_exact silent (r := .ok (.int 7)) (List.forall_mem_nil _) rfl drives⟩

end Suspension
