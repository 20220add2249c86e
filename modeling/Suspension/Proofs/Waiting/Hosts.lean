import Suspension.Evaluation.Host
import Suspension.Proofs.Waiting.Prompt

/-!
# Hosts that differ in when futures are completed

How long a future takes is all that two hosts may differ in (`Host.Alike`). The operations of the
host tell no difference (`Host.Alike.call`), with the exception of those that make a text of their
arguments: a future in a text shows whether it is completed.
-/

namespace Suspension

/-- A host that has completed its futures. -/
def Host.settled (h : Host) : Host :=
  { h with futures := h.futures.map Future.complete }

/-- Hosts that are the same once their futures are completed. -/
def Host.Alike (h h' : Host) : Prop :=
  h.settled = h'.settled

/-- The operations that make a text of their arguments. -/
def Host.shows (callee : String) : Bool :=
  callee == "trace" || callee == "error" || callee == "raise" || callee == "fail"

/-- No future is made a text of. -/
def Host.Discreet (callee : String) (args : List Value) : Prop :=
  Host.shows callee = true → ∀ cell, Value.future cell ∉ args

/-- Arguments that are the same except for the number of steps that a future takes. -/
inductive Given (callee : String) : List Value → List Value → Prop
  | same (vs : List Value) : Given callee vs vs
  | steps (takes : takesSteps callee = true) (v : Value) (a b : Int64) (vs : List Value) :
    Given callee (v :: .int a :: vs) (v :: .int b :: vs)

namespace Given

variable {callee : String} {vs vs' : List Value}

/-- One more argument, the same for both. -/
theorem append (h : Given callee vs vs') (v : Value) : Given callee (vs ++ [v]) (vs' ++ [v]) := by
  cases h with
  | same => exact .same _
  | steps takes w a b vs => exact .steps takes w a b (vs ++ [v])

/-- The number of steps is no future. -/
theorem discreet (h : Given callee vs vs') (discreet : Host.Discreet callee vs') :
    Host.Discreet callee vs := by
  cases h with
  | same => exact discreet
  | steps takes v a b vs =>
    intro shows cell inside
    have apart := discreet shows cell
    simp only [List.mem_cons, reduceCtorEq, false_or] at inside apart
    exact apart inside

end Given

namespace Host

theorem settled_changeFuture (h : Host) (cell : Nat) :
    (h.changeFuture cell Future.complete).settled = h.settled := by
  have twice : Future.complete ∘ Future.complete = Future.complete := rfl
  rw [settled, settled, changeFuture]
  congr 1
  refine Array.ext_getElem? fun i ↦ ?_
  simp only [Array.getElem?_map, Array.getElem?_modify]
  split
  · rw [Option.map_map, twice]
  · rfl

namespace Alike

variable {h h' h'' : Host}

theorem refl (h : Host) : h.Alike h := rfl

theorem symm (a : h.Alike h') : h'.Alike h := Eq.symm a

theorem trans (a : h.Alike h') (b : h'.Alike h'') : h.Alike h'' := Eq.trans a b

theorem settled (a : h.Alike h') : h.settled = h'.settled := a

theorem trace (a : h.Alike h') : h.trace = h'.trace := by
  show h.settled.trace = h'.settled.trace
  rw [a.settled]

theorem futures (a : h.Alike h') :
    h.futures.map Future.complete = h'.futures.map Future.complete := by
  show h.settled.futures = h'.settled.futures
  rw [a.settled]

theorem size (a : h.Alike h') : h.futures.size = h'.futures.size := by
  simpa using congrArg Array.size a.futures

/-- Cells that correspond have the same outcome. -/
theorem future? (a : h.Alike h') (cell : Nat) :
    (h.future? cell).map Future.outcome = (h'.future? cell).map Future.outcome := by
  have same := congrArg (fun fs : Futures ↦ fs[cell]?.map Future.outcome) a.futures
  simpa [Array.getElem?_map, Host.future?, Function.comp_def, Future.complete] using same

/-- A future that is completed tells no difference. -/
theorem complete_left (a : h.Alike h') (cell : Nat) :
    (h.changeFuture cell Future.complete).Alike h' :=
  (h.settled_changeFuture cell).trans a

theorem complete_right (a : h.Alike h') (cell : Nat) :
    h.Alike (h'.changeFuture cell Future.complete) :=
  (a.symm.complete_left cell).symm

/-- Futures with the same outcome are made. -/
theorem newFuture (a : h.Alike h') {f f' : Future} (same : f.outcome = f'.outcome) :
    (h.newFuture f).1 = (h'.newFuture f').1 ∧ (h.newFuture f).2.Alike (h'.newFuture f').2 := by
  refine ⟨congrArg Value.future a.size, ?_⟩
  have complete : f.complete = f'.complete := by rw [Future.complete, Future.complete, same]
  rw [Alike, Host.settled, Host.settled, Host.newFuture, Host.newFuture]
  simp only [Array.map_push, a.futures, complete]
  rw [a.trace]

theorem traceLine (a : h.Alike h') (line : String) :
    (h.traceLine line).Alike (h'.traceLine line) := by
  rw [Alike, Host.settled, Host.settled, Host.traceLine, Host.traceLine]
  dsimp only
  rw [a.futures, a.trace]

end Alike

end Host

/-- What is no future has the same text everywhere. -/
theorem Value.text_eq {v : Value} (plain : ∀ cell, v ≠ .future cell) (fs fs' : Futures) :
    v.text fs = v.text fs' := by
  cases v with
  | future cell => exact absurd rfl (plain cell)
  | _ => rfl

namespace Host

theorem messageArg_eq {args : List Value} (plain : ∀ cell, Value.future cell ∉ args)
    (h h' : Host) : h.messageArg args = h'.messageArg args := by
  cases args with
  | nil => rfl
  | cons v vs => exact Value.text_eq (fun cell same ↦ plain cell (same ▸ List.mem_cons_self)) _ _

/-- What an operation answers does not depend on when futures are completed. -/
theorem Alike.call {h h' : Host} (a : h.Alike h') {callee : String} {vs vs' : List Value}
    (given : Given callee vs vs') (discreet : Discreet callee vs) :
    (h.call callee vs).1 = (h'.call callee vs').1 ∧
      (h.call callee vs).2.Alike (h'.call callee vs').2 := by
  have answers {x y : Value × Host} (same : x.1 = y.1 ∧ x.2.Alike y.2) :
      (answer x).1 = (answer y).1 ∧ (answer x).2.Alike (answer y).2 :=
    ⟨congrArg Answer.value same.1, same.2⟩
  have first : valueArg vs = valueArg vs' := by cases given <;> rfl
  -- Where the arguments may differ a future is made; elsewhere both are given the same.
  by_cases takes : takesSteps callee = true
  · rw [takesSteps, Bool.or_eq_true, beq_iff_eq, beq_iff_eq] at takes
    rcases takes with rfl | rfl
    · exact answers (a.newFuture (congrArg Except.ok first))
    · have plain := discreet rfl
      have message : h.messageArg vs = h'.messageArg vs' := by
        cases given with
        | same => exact messageArg_eq plain h h'
        | steps => exact Value.text_eq (fun cell same ↦ plain cell (same ▸ List.mem_cons_self)) _ _
      exact answers (a.newFuture (by rw [message]))
  · obtain rfl : vs = vs' := by
      cases given with
      | same => rfl
      | steps takes' => exact absurd takes' takes
    clear given takes
    unfold Host.call
    split
    · have plain := discreet rfl
      have line : vs.map (Value.text h.futures) = vs.map (Value.text h'.futures) :=
        List.map_congr_left fun v member ↦
          Value.text_eq (fun cell same ↦ plain cell (same ▸ member)) _ _
      rw [line]
      exact answers ⟨rfl, a.traceLine _⟩
    · exact answers (a.newFuture rfl)
    · exact answers (a.newFuture rfl)
    · exact answers (a.newFuture rfl)
    · rw [messageArg_eq (discreet rfl) h h']
      exact answers (a.newFuture rfl)
    · rw [messageArg_eq (discreet rfl) h h']
      exact ⟨rfl, a⟩
    · rw [messageArg_eq (discreet rfl) h h']
      exact ⟨rfl, a⟩
    · split <;> exact ⟨rfl, a⟩
    · exact ⟨rfl, a⟩

end Host

end Suspension
