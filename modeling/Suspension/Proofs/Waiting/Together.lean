import Suspension.Proofs.Waiting.Advance
import Suspension.Proofs.Waiting.Discretion

/-!
# A run in one piece beside a session

A body that waits for its futures runs in one piece. The session of its lowered form goes along with
it from one pair of corresponding places to the next (`Layout.together`), so it ends if and only if
the run does, and comes to what the run reckons.
-/

namespace Suspension

open Steps TransitionSystem Session

/-- Why a run was stopped, wherever. -/
def Stop.unplaced : Stop → Stop
  | .fault f => .fault { f with node := none }
  | reason => reason

/-- What an exit that nothing catches makes of a body. -/
def Exit.verdict (e : Exit) (host : Host) : Except Stop Value :=
  match e with
  | .ret v => .ok v
  | .thrown v => .error (.fault ⟨.unhandled (v.text host.futures), none⟩)
  | .jump label => .error (.fault ⟨.undefinedLabel label, none⟩)
  | .stop reason => .error reason.unplaced

/-- A session comes to what a run in one piece does, wherever a fault arose, and with the same host,
but for when futures are completed. -/
def Session.Reckons (x : Outcome × Frame) (y : Except Stop Progress × Session) : Prop :=
  ∃ e, x.1 = .error e ∧ y.1.mapError Stop.unplaced = (e.verdict x.2.host).map .completed ∧
    x.2.host.Alike y.2.host

namespace Layout

variable {l : Lowered} {L : Layout l} {params : List SymbolId} {A : Scope} {k : Part}
variable {K K' : List Steps.Task} {σ τ : Frame} {s : Session} {m : Machine}

/-- There is something above every place but the end. -/
theorem Stacks.ne_nil (h : L.Stacks params A k K K') : K ≠ [] ∧ K' ≠ [] := by
  induction h with
  | root i j outer =>
    refine ⟨nofun, ?_⟩
    generalize l.body = root at outer
    cases outer
    nofun
  | @point A p p' e o entry acquire X q ts ts' K K' fits inside tasks isPoint isReturn tasks'
      outer ih =>
    exact ⟨List.append_ne_nil_of_right_ne_nil _ ih.1, List.append_ne_nil_of_right_ne_nil _ ih.2⟩
  | guarded fits outer ih => exact ⟨ih.1, nofun⟩
  | _ => exact ⟨nofun, nofun⟩

/-- A session that is left by an exit is over, and comes to what the exit makes of it. -/
theorem ends_of_over (discreet : s.Discreet) {e e' : Exit}
    (outcomes : Outcomes (fun label ↦ ¬ L.New label) (fun _ _ ↦ False) (.error e : Outcome)
    (.error e'))
    (host : σ.host.Alike τ.host)
    (reach : driving.Reaches s.begins ⟨m, ⟨.leave (.error e'), [], τ⟩⟩) :
    ∃ y, driving.Ends ⟨m, ⟨.leave (.error e'), [], τ⟩⟩ y ∧ Reckons (.error e, σ) y := by
  have finished (last : UnderWay.follows (after m (.error e') τ) = none) :
      driving.Ends ⟨m, ⟨.leave (.error e'), [], τ⟩⟩ (after m (.error e') τ) :=
    .of_result (UnderWay.result?_of_last last)
  cases outcomes with
  | jump => exact ⟨_, finished rfl, _, rfl, rfl, host⟩
  | ret v => exact ⟨_, finished rfl, _, rfl, rfl, host⟩
  | thrown v =>
    refine ⟨_, finished rfl, _, rfl, ?_, host⟩
    show (.error (.fault ⟨.unhandled (v.text τ.host.futures), none⟩) : Except Stop Progress) = _
    rw [Value.text_eq (discreet.unthrown reach rfl) τ.host.futures σ.host.futures]
    rfl
  | fault cause place place' => exact ⟨_, finished rfl, _, rfl, rfl, host⟩
  | negationOverflow => exact ⟨_, finished rfl, _, rfl, rfl, host⟩
  | outOfFuel => exact ⟨_, finished rfl, _, rfl, rfl, host⟩
  | escape stand => exact stand.elim

/-- **A session goes along with the run in one piece.** From one pair of corresponding places both
come to the next, and they end together. -/
theorem together (fair : L.Fair params) (discreet : s.Discreet) (root : Node) (σ₀ : Frame) :
    Simulation (system waiting) driving (fun c d ↦ L.Related params c d ∧
      (system waiting).Reaches (start root none σ₀) c ∧ l.Aboard s d) Reckons where
  step := by
    rintro c d ⟨related, reach, aboard⟩ live
    -- Both places are part of their runs, and stay so.
    have goesOn (advances : L.Advances params c d) : ∃ c' d', (system waiting).Proceeds c c' ∧
        driving.Proceeds d d' ∧ L.Related params c' d' ∧
          (system waiting).Reaches (start root none σ₀) c' ∧ l.Aboard s d' := by
      obtain ⟨c', d', proceeds, proceeds', related', serves⟩ := advances
      exact ⟨c', d', proceeds, proceeds', related', reach.trans proceeds.reaches,
        aboard.later serves proceeds'.reaches⟩
    have found : c.Finds waiting := finds_of_reaches (passesOn fun _ _ _ ↦ rfl) reach
    refine goesOn ?_
    cases related with
    | enter fits outer sought frames =>
      exact fits.enters fair (fun _ ↦ discreet.here) outer
        (found.control _ _ rfl) sought frames aboard
    | leave outer outcomes yields frames =>
      exact outer.leaves fair (fun _ ↦ discreet.here) outcomes yields frames aboard
    | finished => cases live
  ended := by
    rintro c d x ⟨related, -, aboard⟩ ended
    cases related with
    | enter => cases ended
    | @leave A k r r' K K' σ τ m outer =>
      obtain ⟨t, K, rfl⟩ := List.exists_cons_of_ne_nil outer.ne_nil.1
      cases ended
    | finished outcomes host =>
      cases ended
      exact ends_of_over discreet outcomes host aboard.reached
  live := by
    rintro c d ⟨related, -, -⟩ live
    cases related with
    | enter => rfl
    | @leave A k r r' K K' σ τ m outer =>
      obtain ⟨t, K', rfl⟩ := List.exists_cons_of_ne_nil outer.ne_nil.2
      rfl
    | finished => cases live

end Layout

end Suspension
