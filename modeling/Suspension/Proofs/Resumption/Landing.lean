import Suspension.Machine
import Suspension.Proofs.Resumption.Arrival

/-!
# Resumptions go on where they stopped

A machine that waits at a suspend point goes on there: whatever its other storage holds, the next
move comes to the label of that suspend point and does nothing on the way that could be noticed
(`Node.LowersTo.resumes`).
-/

namespace Suspension

open Steps Eval

/-- The machine of a lowered body with the storage that it has come to. -/
def Lowered.machine (l : Lowered) (store : Store) : Machine :=
  { Machine.start l with persisted := store }

/-- How a recorded run begins that goes on at a suspend point. It visits the label of the suspend
point and then asks for the outcome, with both copies of the state back at running. Until then
nothing happens but visits to other nodes, jumps, and the changes of the state. -/
structure Lowered.GoesOnAt (l : Lowered) (store : Store) (moments : List Moment)
    (p : Point) (label question : Node) : Prop where
  begins : ∃ way arrival rest, moments = way ++ arrival :: rest ∧
    (∀ m ∈ way, Quiet l.contract l.body m.event ∧
      ∀ id, id ≠ l.contract.state.id → m.persisted.get? id = store.get? id) ∧
    (∃ m ∈ way, m.event = .visit label.id (some p.label.id)) ∧
    arrival.event = .visit question.id none ∧
    arrival.persisted.get? l.contract.state.id = some (.int running) ∧
    arrival.locals.get? l.contract.localState.id = some (.int running) ∧
    ∀ id, id ≠ l.contract.state.id → arrival.persisted.get? id = store.get? id

/-- A machine with this storage goes on at the suspend point that sets the state to `i`, with all
sufficient fuel. -/
def Lowered.ResumesAt (l : Lowered) (store : Store) (host : Host) (i : Nat) : Prop :=
  ∃ acquire p operand n label question, n ∈ l.body.walk ∧
    IsPoint l.contract acquire p operand n ∧ p.index = i ∧ GoesOn p n label question ∧
    ∃ enough, ∀ fuel ≥ enough, l.GoesOnAt store
      ((l.machine store).run fuel host true).2.moments.reverse p label question

/-- Every resumption goes on at its own suspend point: a run of a lowered body with the state `i`,
on storage with all slots, comes to the label of the suspend point that sets the state to `i`, and
to the question for its outcome, without anything else but visits and jumps on the way. -/
theorem Node.LowersTo.resumes {body : Node} {supply : Supply} {l : Lowered}
    (lowers : body.LowersTo supply l) {i : Nat} (small : i < l.stateCount) {store : Store}
    (slots : ∀ v ∈ l.persisted, store.contains v.id = true)
    (waits : store.get? l.contract.state.id = some (.int (Int64.ofNat i))) (host : Host) :
    l.ResumesAt store host i := by
  obtain ⟨L, -⟩ := lowers.layout
  have filled (id : SymbolId) (keep : l.keeps id) : ∃ v, store.get? id = some v := by
    obtain ⟨v, hoisted, rfl⟩ := List.mem_map.1 keep
    refine Option.isSome_iff_exists.1 (slots v ?_)
    exact List.mem_cons_of_mem _ (List.mem_append_left _ hoisted)
  have inside : Int64.ofNat i ∈ L.added.table.flatMap Case.tests := by
    rw [L.tests]
    exact List.mem_map_of_mem (List.mem_range.2 small)
  obtain ⟨acquire, p, operand, n, label, question, within, isPoint, index, goesOn, σ, K, here, seen,
    reach⟩ := L.reaches_question true host waits filled inside
  obtain ⟨way, isWay, onWay⟩ := here.moments
  obtain rfl : σ.moments = way := isWay.trans (List.append_nil way)
  obtain ⟨j, shape⟩ := question
  obtain ⟨k, rfl⟩ := goesOn.asks
  -- The run that is recorded goes on from the question; what came before is its log so far.
  let s : Setting := { labels := LabelIndex.build l.body, records := true }
  have asked : (system s).Reaches (start l.body none { persisted := store, host })
      ⟨.enter ⟨k, .var p.awaiter⟩ none, _, noted s (.visit j none) σ⟩ :=
    reach.trans (reaches_child rfl)
  obtain ⟨enough, recorded⟩ := recorded_of_reaches asked
  refine ⟨acquire, { p with index := i }, operand, n, label, _, within, isPoint.reindex index, rfl,
    ⟨goesOn.isLabel, goesOn.asks, goesOn.follows⟩, enough, fun fuel le ↦ ?_⟩
  obtain ⟨rest, all⟩ := recorded fuel le
  refine ⟨σ.moments.reverse, ⟨.visit j none, σ.persisted, σ.locals⟩, rest.reverse, ?_, ?_, ?_, rfl,
    here.state, here.localState, here.persisted⟩
  · have told : (noted s (.visit j none) σ).moments =
        ⟨.visit j none, σ.persisted, σ.locals⟩ :: σ.moments := rfl
    rw [told] at all
    change (eval s fuel l.body none { persisted := store, host }).2.moments.reverse = _
    rw [← all]
    simp
  · intro m member
    have := onWay m (List.mem_reverse.1 member)
    exact ⟨this.event, this.others⟩
  · obtain ⟨m, member, event⟩ := seen rfl
    exact ⟨m, List.mem_reverse.2 member, event⟩

/-- The second state of a body, behind an operand and in a region in a loop. -/
theorem Node.LowersTo.resumes_in_loop : ∃ l store,
    Node.LowersTo ⟨13, .block [⟨1, "x", .int⟩] [⟨1, .await ⟨0, .call "yield" []⟩ none .unit⟩,
      ⟨12, .loop ⟨11, .region ⟨9, .assign ⟨1, "x", .int⟩ ⟨8, .binary .add ⟨7, .var ⟨1, "x", .int⟩⟩
        ⟨6, .await ⟨5, .call "pending" [⟨4, .const (.int 7)⟩]⟩ none .int⟩⟩⟩ []
        none (some ⟨10, .call "trace" []⟩)⟩ none none⟩]⟩ { node := 14, symbol := 2 } l ∧
      1 < l.stateCount ∧ (∀ v ∈ l.persisted, store.contains v.id = true) ∧
      store.get? l.contract.state.id = some (.int (Int64.ofNat 1)) ∧ l.ResumesAt store {} 1 := by
  obtain ⟨l, lowers, states⟩ := @Node.exists_lowersTo_with
    ⟨13, .block [⟨1, "x", .int⟩] [⟨1, .await ⟨0, .call "yield" []⟩ none .unit⟩,
      ⟨12, .loop ⟨11, .region ⟨9, .assign ⟨1, "x", .int⟩ ⟨8, .binary .add ⟨7, .var ⟨1, "x", .int⟩⟩
        ⟨6, .await ⟨5, .call "pending" [⟨4, .const (.int 7)⟩]⟩ none .int⟩⟩⟩ []
        none (some ⟨10, .call "trace" []⟩)⟩ none none⟩]⟩
    { node := 14, symbol := 2 } (by decide +kernel) (fun l ↦ decide (1 < l.stateCount))
    (by decide +kernel)
  have small : 1 < l.stateCount := of_decide_eq_true states
  let store := (({} : Store).declare l.persisted).insert l.contract.state.id (.int (Int64.ofNat 1))
  have slots : ∀ v ∈ l.persisted, store.contains v.id = true := by
    intro v member
    obtain ⟨value, held⟩ :=
      Store.get?_declare_of_mem (List.mem_map_of_mem (f := Variable.id) member)
    rw [Store.contains_insert, Store.contains, held]
    simp
  have waits : store.get? l.contract.state.id = some (.int (Int64.ofNat 1)) := by
    rw [Store.get?_insert, if_pos rfl]
  exact ⟨l, store, lowers, small, slots, waits, lowers.resumes small slots waits {}⟩

end Suspension
