import Suspension.Proofs.Steps.Questions
import Suspension.Proofs.Suspending.Leaving

/-!
# The course of a run

A run of a lowered body on storage that is in order either keeps the body running to its end, or
takes one way out. There it sets the state, hands over the awaiter and comes to the end of the body,
and nothing else happens (`Layout.course`).
-/

namespace Suspension

open Steps Eval TransitionSystem

/-- Storage of a lowered body between two runs. -/
structure Lowered.Rests (l : Lowered) (store : Store) : Prop where
  slots : ∀ v ∈ l.persisted, store.contains v.id = true
  state : ∃ i, store.get? l.contract.state.id = some (.int i) ∧
    (i = running ∨ ∃ k < l.stateCount, i = Int64.ofNat k)

/-- A run has come to its end by a way out, for a future that is not completed. Where the body hands
over no awaiters of its own, it is the only one. -/
structure Lowered.LeftBy (l : Lowered) (banned : String → Prop) (q : Point) (d : Node)
    (awaiter : Value) (σ : Frame) : Prop where
  suspension : IsSuspension l.contract q d
  within : d ∈ l.body.walk
  index : ∃ k < l.stateCount, Int64.ofNat q.index = Int64.ofNat k
  slots : ∀ v ∈ l.persisted, σ.persisted.contains v.id = true
  state : σ.persisted.get? l.contract.state.id = some (.int (Int64.ofNat q.index))
  awaiters : ∃ earlier, σ.awaiters = earlier.push awaiter ∧ (banned onCompleted → earlier = #[])
  /-- The variable of the suspend point holds the awaiter. -/
  held : σ.persisted.get? q.awaiter.id = some awaiter
  pending : ∃ cell f, awaiter = .future cell ∧ σ.host.future? cell = some f ∧ f.isCompleted = false

/-- What is recorded of a run that came to its end by a way out, the latest first: the body is
running, the way out is entered, the state is set, the awaiter is handed over, and the body makes
for its end. The storage stays as it is from when the awaiter is handed over. -/
structure Lowered.Recounts (l : Lowered) (q : Point) (d : Node) (awaiter : Value) (σ : Frame) :
    Prop where
  parts : ∃ after handing before entering inside,
    σ.moments = after ++ handing :: (before ++ entering :: inside) ∧
    (∀ m ∈ after, l.AfterHandOver m.event ∧ m.persisted = σ.persisted) ∧
    handing.event = .handOver awaiter ∧ handing.persisted = σ.persisted ∧
    (∀ m ∈ before, l.contract.BeforeHandOver d m.event) ∧
    entering.event = .visit d.id none ∧ entering.persisted.get? q.awaiter.id = some awaiter ∧
    ∀ m ∈ inside, l.Inside m

namespace Layout

variable {l : Lowered} (L : Layout l) {banned : String → Prop} {records : Bool}

include L in
/-- The lowered body itself is no way out. -/
theorem body_stays : ¬ l.body.Departs l.contract := by
  have assembled := L.assembled
  generalize l.body = root at assembled
  cases assembled with
  | mk => exact Node.not_departs (by rintro _ _ _ ⟨⟩)

include L in
/-- The states of suspend points are not negative. -/
theorem index_nonneg {i : Int64} (h : ∃ k < l.stateCount, i = Int64.ofNat k) : ¬ i < 0 := by
  obtain ⟨k, small, rfl⟩ := h
  rw [Int64.lt_iff_toInt_lt, L.toInt_state small]
  exact Int.not_lt.2 (Int.natCast_nonneg k)

include L in
/-- A way out is entered for a future that is not completed. -/
theorem pends_at_way_out {d : Node} {K : List Steps.Task} {σ₀ σ : Frame} {q : Point} {s : Setting}
    (lineage : Lineage l.body d K) (suspension : IsSuspension l.contract q d)
    (reach : (system s).Reaches (start l.body none σ₀) ⟨.enter d none, K, σ⟩) :
      σ.Pends q.awaiter := by
  cases lineage with
  | root => exact absurd ⟨q, suspension⟩ L.body_stays
  | @child t d K outer awaits =>
    obtain ⟨n, st⟩ := t
    obtain ⟨p, question, -⟩ := L.asks_of_departs outer.within awaits.child ⟨q, suspension⟩
    have block : d.kind = .block := Node.Departs.kind ⟨q, suspension⟩
    cases question with
    | mk i j k m suspension' =>
      obtain rfl : st = .arm := by
        rcases awaits.of_branch rfl with ⟨-, rfl⟩ | ⟨arm, -⟩
        · cases block
        · exact arm
      have pends := pends_of_reaches reach ⟨_, ⟨_, ⟨m, rfl⟩, rfl⟩, rfl⟩
      obtain ⟨-, same⟩ := suspension'.unique suspension
      exact same ▸ pends

include L in
/-- From a way out a run comes to its end. What it hands over is what the variable of the suspend
point holds there, and it asks no awaiter anything. -/
theorem leaves_by {d : Node} {K : List Steps.Task} {σ₀ σ : Frame}
    (h : (l.underway records banned).Holds l.body ⟨.enter d none, K, σ⟩)
    (departs : d.Departs l.contract)
    (reached : (system (l.underway records banned).s).Reaches (start l.body none σ₀)
      ⟨.enter d none, K, σ⟩) :
    ∃ q awaiter σ', lookup σ q.awaiter.id = some awaiter ∧ l.LeftBy banned q d awaiter σ' ∧
      (records = true → l.Recounts q d awaiter σ') ∧ Grows l.AsksNothing σ σ' ∧
        (system (l.underway records banned).s).Reaches ⟨.enter d none, K, σ⟩
          ⟨.leave (.ok .unit), [], σ'⟩ := by
  let s := (l.underway records banned).s
  cases h with
  | enter lineage node tasks frames =>
    obtain ⟨within, around⟩ := node
    -- A node of the invariant that departs is a way out, for the others stay.
    obtain ⟨q, suspension, field, index⟩ : l.WayOut d := by
      cases around with
      | out here => exact here
      | layer here => exact absurd departs here.stays
    obtain ⟨awaiter, σ₁, σ₂, held, grows, persisted, locals, host, notes, reach⟩ :=
      @leaves l L banned records K σ q d suspension field within frames
    obtain ⟨cell, f, holds, future, incomplete⟩ :=
      L.pends_at_way_out lineage suspension reached
    -- The variable holds one value: what the way out hands over is what was found pending.
    obtain rfl : awaiter = .future cell := by
      have inner := holds
      rw [lookup, frames.outside _ (List.mem_cons_of_mem _ (List.mem_map_of_mem field)), held]
        at inner
      exact Option.some.inj inner
    have local₂ : lookup σ₂ l.contract.localState.id = some (.int (Int64.ofNat q.index)) := by
      rw [lookup, notes.locals]
      simp [locals]
    obtain ⟨σ₃, notes', reach'⟩ :=
      L.unwinds lineage tasks (fun same ↦ L.body_stays (same ▸ departs))
        (fun stays ↦ stays d (Node.mem_walk_self d) departs) local₂ (L.index_nonneg index)
    have notes := notes.trans notes'
    have stored : σ₃.persisted =
        σ.persisted.insert l.contract.state.id (.int (Int64.ofNat q.index)) := by
      rw [notes.persisted, ← persisted]
      exact noted_persisted _ σ₁ _
    refine ⟨q, _, σ₃, holds, ⟨suspension, within, index, fun v member ↦ ?_, ?_, ⟨σ.awaiters,
      notes.awaiters, frames.silent⟩, ?_, cell, f, rfl, ?_, incomplete⟩, fun told ↦ ?_, ?_,
      reach.trans reach'⟩
    · rw [stored, Store.contains_insert, frames.slots v member, Bool.or_true]
    · rw [stored, Store.get?_insert, if_pos rfl]
    · rw [stored, Store.get?_insert, if_neg (L.added_apart.awaiters _ (L.fields ▸ field)).1]
      exact held
    · obtain ⟨new, rfl, -⟩ := notes
      show (noted _ _ σ₁).host.future? cell = _
      rw [noted_host, host]
      exact future
    · obtain ⟨after, rfl, onWay⟩ := notes
      obtain ⟨before, isBefore, events⟩ := grows
      have tells (e : Event) (σ : Frame) : noted (l.underway records banned).s e σ =
          { σ with moments := ⟨e, σ.persisted, σ.locals⟩ :: σ.moments } := if_pos told
      rw [tells] at isBefore
      refine ⟨after, ⟨.handOver (.future cell), σ₁.persisted, σ₁.locals⟩, before,
        ⟨.visit d.id none, σ.persisted, σ.locals⟩, σ.moments, ?_, fun m member ↦ ?_, rfl, ?_,
        events, rfl, held, frames.moments⟩
      · rw [tells, isBefore]
      · exact ⟨(onWay m member).1, (onWay m member).2.1⟩
      · exact (noted_persisted _ σ₁ _).symm
    · have setting : Grows l.AsksNothing (noted s (.visit d.id none) σ) σ₁ := by
        refine grows.mono fun e happens ↦ ?_
        cases happens with
        | visit inside => exact L.asksNothing_visit inside within departs
        | store => trivial
      have handing : Grows l.AsksNothing σ₁
          { noted s (.handOver (.future cell)) σ₁ with
            awaiters := σ.awaiters.push (.future cell) } :=
        .noted s (e := .handOver (.future cell)) trivial σ₁ rfl
      have entering : Grows l.AsksNothing σ (noted s (.visit d.id none) σ) :=
        .noted s (L.asksNothing_visit (Node.mem_walk_self d) within departs) σ rfl
      exact (entering.trans setting).trans
        (handing.trans (notes.grows.mono fun _ ↦ (·.asksNothing)))

include L in
/-- The state of a body at rest is that of a running body, or the dispatch knows it. -/
theorem state_known {store : Store} (rests : l.Rests store) :
    ∃ i, store.get? l.contract.state.id = some (.int i) ∧
      (i = running ∨ i ∈ L.added.table.flatMap Case.tests) := by
  obtain ⟨i, slot, known⟩ := rests.state
  refine ⟨i, slot, known.imp_right fun ⟨k, small, same⟩ ↦ ?_⟩
  rw [L.tests, same]
  exact List.mem_map_of_mem (List.mem_range.2 small)

/-- **The course of a run.** On storage that is in order, what a run comes by is from a body that is
running, or the run comes to its end by a way out. -/
theorem course (allowed : ∀ name ∈ L.prepared.calls, ¬ banned name) {store : Store}
    (rests : l.Rests store) (host : Host) {c : Configuration}
    (reach : (system (l.underway records banned).s).Reaches
      (start l.body none { persisted := store, host }) c) :
    ((∀ m ∈ c.frame.moments, l.Inside m) ∧
        ∀ r σ, c.result? = some (r, σ) → l.Running banned σ) ∨
      ∃ q d awaiter σ, l.LeftBy banned q d awaiter σ ∧
        (records = true → l.Recounts q d awaiter σ) ∧
          (system (l.underway records banned).s).Reaches c ⟨.leave (.ok .unit), [], σ⟩ := by
  have running {c : Configuration} (h : (l.underway records banned).Holds l.body c) :
      l.Running banned c.frame := by
    cases h with
    | enter _ _ _ frames => exact frames
    | leave _ _ frames => exact frames
  have ofResult {c : Configuration} {r : Outcome} {σ : Frame} (h : c.result? = some (r, σ)) :
      c.frame = σ := by
    obtain ⟨_ | _, _ | _, _⟩ := c <;> cases h
    rfl
  obtain ⟨i, slot, known⟩ := L.state_known rests
  obtain ⟨c₀, set, holds, -⟩ := L.sets_out allowed records host rests.slots slot known
  rcases reach.total set with before | after
  · -- The body has not set out yet.
    left
    have here := running holds
    refine ⟨fun m member ↦ here.moments m ((kept_of_reaches _ before).moments.subset member),
      fun r σ result ↦ ?_⟩
    · have same : c₀ = c := before.eq_of_result (M := system _) result
      rw [← ofResult result, ← same]
      exact here
  · rcases after.until (fun _ ↦ L.step) holds with here | ⟨e, holds, out, toOut, toEnd⟩
    · left
      have here := running here
      exact ⟨here.moments, fun r σ result ↦ ofResult result ▸ here⟩
    · right
      obtain @⟨d, _, _, departs⟩ := out
      obtain ⟨q, awaiter, σ, -, left, recounts, -, reach'⟩ :=
        L.leaves_by holds departs (set.trans toOut)
      refine ⟨q, d, awaiter, σ, left, recounts, ?_⟩
      rcases toEnd.total reach' with onward | past
      · exact onward
      · have same : c = ⟨.leave (.ok .unit), [], σ⟩ :=
          past.eq_of_result (M := system (l.underway records banned).s) rfl
        exact same ▸ .refl _

end Layout

end Suspension
