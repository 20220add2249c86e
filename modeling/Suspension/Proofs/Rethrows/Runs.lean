import Suspension.Proofs.Faults
import Suspension.Proofs.Rethrows.Passes
import Suspension.Proofs.Waiting.Upkeep

/-!
# Runs that rethrow

As many exceptions are being handled as bodies of clauses are under way, and these are on the path
from the root of a tree to the node at hand. So where every bare rethrow of a body has a clause
around it, no run of the body is stopped at one for want of an exception, nor is any move of a
session whose body was lowered from such a body (`Node.LowersTo.rethrows`).
-/

namespace Suspension

namespace Steps

open TransitionSystem

variable {s : Setting} {root n : Node} {K : List Task}

/-- A node that acts on leaving a child has the value of the child. -/
theorem Stage.Completes.ne_nil {st : Stage} {v : Value} {vs : List Value}
    (h : st.Completes v vs) : vs ≠ [] := by
  cases h with
  | operand | test => exact List.cons_ne_nil _ _
  | operands done => exact List.append_ne_nil_of_right_ne_nil done (List.cons_ne_nil _ _)

/-- A child that a task waits for has an exception to raise where its node has, and in the body of a
clause in any case. -/
theorem Task.Awaits.handled {t : Task} {c : Node} (awaits : t.Awaits c) {b : Bool}
    (handled : t.node.Handled b) : c.Handled (t.isHandler || b) := by
  obtain ⟨⟨i, sh⟩, st⟩ := t
  have around {c : Node} (h : c.Handled b) : c.Handled (Task.isHandler ⟨⟨i, sh⟩, st⟩ || b) :=
    h.mono fun own ↦ by rw [own, Bool.or_true]
  have child := awaits.child
  cases sh with
  | region body cs cleanup fault =>
    obtain ⟨inside, own, parts⟩ := Node.handled_region.1 handled
    obtain ⟨A, B, stages⟩ := awaits
    cases stages with
    | body shape =>
      cases shape
      exact around inside
    | filter ex clauses clauses' length filter =>
      have member : _ ∈ cs := clauses ▸ List.mem_append_right _ List.mem_cons_self
      exact ((own _ member).1 c filter).anywhere _
    | handler member => exact (own _ member).2
    | fault outcomes part =>
      exact around (parts c (List.mem_append_right _ (Option.mem_toList.2 part)))
    | cleanup outcomes part =>
      exact around (parts c (List.mem_append_left _ (Option.mem_toList.2 part)))
    | statements shape | round shape | guard shape => cases shape
    | operand same | operands same => cases same
    | test test => cases test
    | arm arm => cases arm
  | raise value =>
    cases value with
    | none => cases child
    | some value => exact around (handled.child rfl c child)
  | _ => exact around (handled.child rfl c child)

/-- Every node on a path has an exception to raise if the body of a clause is on the path. -/
theorem Lineage.handled (lineage : Lineage root n K) (handled : root.Handled false) :
    n.Handled (K.any Task.isHandler) := by
  induction lineage with
  | root => exact handled
  | child outer awaits ih => exact awaits.handled ih

/-- A bare rethrow that a run comes to finds an exception that is being handled. -/
theorem handling_ne_nil {c : Configuration} {seek sought : Option SymbolId} {store : Store}
    {host : Host} (handled : root.Handled false)
    (reach : (system s).Reaches (start root seek { persisted := store, host }) c)
    (enters : c.control = .enter n sought) (bare : n.shape = .raise none) :
    c.frame.handling ≠ [] := by
  obtain ⟨m, lineage, same⟩ := Invariant.lineage_of_reaches s reach
  obtain rfl := same n sought enters
  have around : c.tasks.any Task.isHandler = true := by
    obtain ⟨i, sh⟩ := m
    exact (Node.handled_mk.1 (lineage.handled handled)).1 bare
  have counted := ((Configuration.Upkept.start root seek store host).of_reaches reach).handling
  intro idle
  rw [idle, List.length_nil, eq_comm, List.countP_eq_zero] at counted
  obtain ⟨t, member, handler⟩ := List.any_eq_true.1 around
  exact counted t member handler

end Steps

open Steps

/-- A body that has an exception for every bare rethrow is not stopped at one. -/
theorem runBody_rethrows {s : Setting} {fuel : Nat} {body : Node} {persisted : Store} {host : Host}
    (handled : body.Handled false) {f : Fault}
    (stopped : (runBody s fuel body persisted host).1 = .error (.fault f)) :
    f.cause ≠ .rethrowOutsideHandler := by
  rcases run : eval s fuel body none { persisted, host } with ⟨r, σ⟩
  rw [runBody_of_eval run] at stopped
  rcases r with (label | v | v | reason) | v <;> cases stopped
  · nofun
  · obtain ⟨c, n, values, reach, acts, -, stops⟩ := stops_at (ends_of_eval run nofun)
    cases stops with
    | @fault _ cause refuses =>
      rintro (rfl : cause = .rethrowOutsideHandler)
      generalize bare : n.shape = sh at refuses
      cases refuses with
      | rethrow idle =>
        -- A node without children acts when it is entered.
        cases acts with
        | enter => exact handling_ne_nil handled reach rfl bare idle
        | leave _ _ _ completes => exact absurd rfl completes.ne_nil

/-- **Accepted rethrows raise something.** If a body has an exception for every bare rethrow, no
move of a session of the lowered body ends for want of one to raise again. -/
theorem Node.LowersTo.rethrows {body : Node} {supply : Supply} {l : Lowered}
    (lowers : body.LowersTo supply l) (handled : body.Handled false)
    {args : List (Variable × Value)} {host : Host} {t : Session}
    (later : Session.Later ⟨(Machine.start l).withArguments args, host⟩ t) {fuel : Nat} {f : Fault}
    (stopped : (t.moveNext fuel).1 = .error (.fault f)) : f.cause ≠ .rethrowOutsideHandler := by
  rcases Session.moveNext_error stopped with run | drivers
  · refine runBody_rethrows ?_ run
    rw [later.body, Machine.withArguments_eq]
    exact lowers.body_handled handled
  · rintro same
    rw [same] at drivers
    cases drivers

end Suspension
