import Suspension.Proofs.Steps.Records
import Suspension.Proofs.Waiting.Outcomes

/-!
# Discreet sessions

The text of a future shows whether it is completed. A session is discreet if it makes no text of a
future: none is passed to an operation that does, and none is thrown out of the body
(`Session.Discreet`). This is said of the calls that the runs of the session record, so of the
configurations that it comes by as well (`Session.Discreet.here`).
-/

namespace Suspension

open Steps Eval TransitionSystem

/-- Whether a value is a future. -/
def Value.isFuture : Value → Bool
  | .future _ => true
  | _ => false

instance (callee : String) (args : List Value) : Decidable (Host.Discreet callee args) :=
  decidable_of_iff (Host.shows callee = true → args.any Value.isFuture = false) <| by
    refine imp_congr_right fun _ ↦ ?_
    rw [List.any_eq_false]
    refine ⟨fun none cell inside ↦ none _ inside rfl, fun plain v inside future ↦ ?_⟩
    cases v with
    | future cell => exact plain cell inside
    | _ => cases future

/-- The host has the operations that make a text of their arguments. -/
theorem Host.call_of_shows {callee : String} (shows : Host.shows callee = true) (h : Host)
    (args : List Value) : callee ≠ onCompleted ∧ (h.call callee args).1 ≠ .unknown := by
  simp only [Host.shows, Bool.or_eq_true, beq_iff_eq] at shows
  rcases shows with ((rfl | rfl) | rfl) | rfl <;> exact ⟨by decide, nofun⟩

/-- A call of an operation that the host has is recorded. -/
theorem Steps.mem_calls_invoke {s : Setting} (records : s.records = true) {callee : String}
    {args : List Value} {n : Node} {σ : Frame} (own : callee ≠ onCompleted)
    (known : (σ.host.call callee args).1 ≠ .unknown) :
    (callee, args) ∈ (Evaluator.invoke s callee args n σ).2.calls := by
  have noted (σ : Frame) : (callee, args) ∈ (noted s (.call callee args) σ).calls := by
    rw [Eval.noted, if_pos records]
    exact List.mem_cons_self
  rw [Evaluator.invoke, if_neg own, callHost_apply]
  cases answer : (σ.host.call callee args).1 with
  | unknown => exact absurd answer known
  | value v => exact noted _
  | raised ex => exact noted _

namespace Session

/-- A session makes no text of a future: none is passed to an operation that does, and none is
thrown out of the body. -/
structure Discreet (s : Session) : Prop where
  calls : ∀ {t}, s.Resumed t → ∀ fuel, ∀ call ∈ (t.machine.run fuel t.host true).2.calls,
    Host.Discreet call.1 call.2
  throws : ∀ {t}, s.Resumed t → ∀ fuel cell,
    (t.machine.run fuel t.host).1 ≠ .ok (.threw (.future cell))

namespace Discreet

variable {s : Session} {d : UnderWay}

/-- A discreet session comes by no call that makes a text of a future. -/
theorem here (h : s.Discreet) (reach : driving.Reaches s.begins d) : d.here.Discreet := by
  intro n callee os done v K control tasks shape shows
  obtain ⟨t, resumed, -, k, comes⟩ := resumed_of_reaches reach
  let recording : Setting := { labels := t.machine.labels, records := true }
  -- What the run comes by when it records.
  have recorded : ∃ c, c = (system recording).run k t.begins.here ∧ d.here = c.forget :=
    ⟨_, rfl, comes.symm.trans (run_forget (s := recording) k t.begins.here)⟩
  obtain ⟨⟨control', tasks', σ⟩, run, here⟩ := recorded
  rw [here] at control tasks
  obtain ⟨rfl⟩ : control' = .leave (.ok v) := control
  obtain ⟨rfl⟩ : tasks' = ⟨n, .operands done []⟩ :: K := tasks
  have next : ((system recording).run (k + 1) t.begins.here).frame =
      (Evaluator.invoke recording callee (done ++ [v]) n σ).2 := by
    have combines : combine recording n (done ++ [v]) =
        Evaluator.invoke recording callee (done ++ [v]) n := by simp only [combine, shape]
    rw [run_add, ← run, run_one]
    show ((perform (combine recording n (done ++ [v])) σ).on K).frame = _
    rw [combines]
    rfl
  obtain ⟨own, known⟩ := Host.call_of_shows shows σ.host (done ++ [v])
  have called := mem_calls_invoke (s := recording) (n := n) (σ := σ) rfl own known
  rw [← next] at called
  obtain ⟨fuel, all⟩ := recorded_of_reaches (s := recording) (c := _) ⟨k + 1, rfl⟩
  exact h.calls resumed fuel _ (((all fuel (Nat.le_refl _)).sublist.filterMap _).subset called)
    shows

/-- A discreet session throws no future out of the body. -/
theorem unthrown (h : s.Discreet) (reach : driving.Reaches s.begins d) {σ : Frame} {v : Value}
    (finished : d.here = ⟨.leave (.error (.thrown v)), [], σ⟩) (cell : Nat) : v ≠ .future cell := by
  rintro rfl
  obtain ⟨t, resumed, -, comes⟩ := resumed_of_reaches reach
  obtain ⟨fuel, evaluates⟩ := eval_of_ends (s := { labels := t.machine.labels })
    ⟨_, comes, by rw [finished]; rfl⟩
  exact h.throws resumed fuel cell
    (congrArg Prod.fst (runBody_of_eval (evaluates fuel (Nat.le_refl _))))

end Discreet

/-! ### Discretion can be computed -/

/-- The end of a run, and whether it made no text of a future. -/
def runsDiscreetly (fuel : Nat) (s : Session) : Bool :=
  let (r, σ) := s.machine.run fuel s.host true
  (match r with
    | .error .outOfFuel => false
    | .ok (.threw ex) => !ex.isFuture
    | _ => true) && σ.calls.all fun call ↦ decide (Host.Discreet call.1 call.2)

/-- Whether some number of runs are all that a session makes, with some fuel for each, and none of
them makes a text of a future. -/
def isDiscreet (fuel : Nat) : Nat → Session → Bool
  | 0, _ => false
  | runs + 1, s => s.runsDiscreetly fuel &&
    match s.moveNext fuel with
    | (.error .outOfFuel, _) => false
    | (.ok (.suspended awaiter), t) => isDiscreet fuel runs (t.resume awaiter)
    | _ => true

variable {s t : Session} {fuel : Nat}

/-- What a run that has an end does with some fuel, it does with any. -/
theorem run_discreet (h : s.runsDiscreetly fuel = true) :
    (∀ f, ∀ call ∈ (s.machine.run f s.host true).2.calls, Host.Discreet call.1 call.2) ∧
      ∀ f cell, (s.machine.run f s.host).1 ≠ .ok (.threw (.future cell)) := by
  let recording : Setting := { labels := s.machine.labels, records := true }
  let σ₀ : Frame := { persisted := s.machine.persisted, host := s.host }
  rcases evaluated : eval recording fuel s.machine.body none σ₀ with ⟨r, σ⟩
  have ran : s.machine.run fuel s.host true = (completion r, σ) := runBody_of_eval evaluated
  rw [runsDiscreetly, ran, Bool.and_eq_true, List.all_eq_true] at h
  obtain ⟨ends, discreet⟩ := h
  have enough : r ≠ .error (.stop .outOfFuel) := by
    rintro rfl
    cases ends
  have finished := ends_of_eval evaluated enough
  refine ⟨fun f call member ↦ of_decide_eq_true (discreet call ?_), fun f cell same ↦ ?_⟩
  · -- All that is recorded with other fuel is recorded by the end of the run.
    obtain ⟨c, reach, moments⟩ := reaches_of_recorded (s := recording) f s.machine.body none σ₀
    obtain ⟨N, recorded⟩ := recorded_of_reaches reach
    obtain ⟨N', settled⟩ := eval_of_ends finished
    have all := recorded (max N N') (Nat.le_max_left N N')
    rw [settled _ (Nat.le_max_right N N'), moments] at all
    exact (all.sublist.filterMap _).subset member
  · rcases evaluated' : eval recording.mute f s.machine.body none σ₀ with ⟨r', σ'⟩
    have ran' : s.machine.run f s.host = (completion r', σ') := runBody_of_eval evaluated'
    rw [ran'] at same
    obtain rfl : r' = .error (.thrown (.future cell)) := by
      rcases r' with (label | v | v | reason) | v <;> cases same
      rfl
    obtain ⟨σ'', thrown, -⟩ := ends_of_forget (s := recording) (σ := σ₀)
      (ends_of_eval evaluated' nofun)
    obtain ⟨rfl, -⟩ := Prod.mk.inj (finished.unique thrown)
    cases ends

/-- A session that was resumed is the session itself, or comes after its first resumption. -/
theorem Resumed.head (h : s.Resumed t) : t = s ∨ ∃ awaiter u,
    s.Moves (.ok (.suspended awaiter)) u ∧ (u.resume awaiter).Resumed t := by
  induction h with
  | start => exact .inl rfl
  | again earlier moved ih =>
    rcases ih with rfl | ⟨awaiter, u, first, later⟩
    · exact .inr ⟨_, _, moved, .start⟩
    · exact .inr ⟨awaiter, u, first, .again later moved⟩

/-- A move comes to one end only. -/
theorem Moves.unique {r r' : Except Stop Progress} {u : Session} (h : s.Moves r t)
    (h' : s.Moves r' u) :
    r = r' ∧ t = u := by
  obtain ⟨N, settles⟩ := h.settles
  obtain ⟨N', settles'⟩ := h'.settles
  exact Prod.mk.inj ((settles _ (Nat.le_max_left N N')).symm.trans
    (settles' _ (Nat.le_max_right N N')))

/-- A session is discreet if its first run is, and it is when it is resumed. -/
theorem Discreet.of_head (h : s.runsDiscreetly fuel = true)
    (later : ∀ awaiter u, s.Moves (.ok (.suspended awaiter)) u → (u.resume awaiter).Discreet) :
    s.Discreet := by
  obtain ⟨calls, throws⟩ := run_discreet h
  constructor
  · intro t resumed
    rcases resumed.head with rfl | ⟨awaiter, u, moved, resumed⟩
    · exact calls
    · exact (later awaiter u moved).calls resumed
  · intro t resumed
    rcases resumed.head with rfl | ⟨awaiter, u, moved, resumed⟩
    · exact throws
    · exact (later awaiter u moved).throws resumed

/-- A session that is found to be discreet is discreet. -/
theorem discreet_of_isDiscreet {runs : Nat} (h : s.isDiscreet fuel runs = true) : s.Discreet := by
  induction runs generalizing s with
  | zero => cases h
  | succ runs ih =>
    rw [isDiscreet, Bool.and_eq_true] at h
    obtain ⟨first, goesOn⟩ := h
    refine .of_head first fun awaiter u moved ↦ ?_
    rcases made : s.moveNext fuel with ⟨r, t⟩
    rw [made] at goesOn
    by_cases enough : r = .error .outOfFuel
    · rw [enough] at goesOn
      cases goesOn
    · obtain ⟨rfl, rfl⟩ := moved.unique ⟨enough, fuel, made⟩
      exact ih goesOn

end Session

end Suspension
