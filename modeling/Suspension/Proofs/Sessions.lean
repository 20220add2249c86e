import Suspension.Machine

/-!
# Sessions

A session goes from move to move, and between two moves anything may happen in the world. What no
move ever does, such as ending in a dangling reference, holds of every session that comes later
(`Session.Later`), also when moves run out of fuel. What counts moves, such as the order in which
suspensions come and the number of callbacks, or starts from where the last one stopped, needs every
move to have come to something (`Session.Ran`).
-/

namespace Suspension

/-- A store in which parameters have values. -/
def Store.insertAll (s : Store) (args : List (Variable × Value)) : Store :=
  args.foldl (fun s (v, value) ↦ s.insert v.id value) s

namespace Store

variable {s s' : Store} {id : SymbolId}

theorem insertAll_cons (s : Store) (a : Variable × Value) (args : List (Variable × Value)) :
    s.insertAll (a :: args) = (s.insert a.1.id a.2).insertAll args := rfl

/-- Stores with values for parameters agree where they agreed before. -/
theorem get?_insertAll_congr (args : List (Variable × Value)) (same : s.get? id = s'.get? id) :
    (s.insertAll args).get? id = (s'.insertAll args).get? id := by
  induction args generalizing s s' with
  | nil => exact same
  | cons a args ih =>
    rw [insertAll_cons, insertAll_cons]
    exact ih (by rw [get?_insert, get?_insert, same])

/-- Values for parameters change the slots of the parameters only. -/
theorem get?_insertAll_of_notMem {args : List (Variable × Value)}
    (outside : id ∉ args.map (·.1.id)) : (s.insertAll args).get? id = s.get? id := by
  induction args generalizing s with
  | nil => rfl
  | cons a args ih =>
    rw [List.map_cons, List.mem_cons, not_or] at outside
    rw [insertAll_cons, ih outside.2, get?_insert, if_neg outside.1]

theorem contains_insertAll_of {args : List (Variable × Value)} (slot : s.contains id = true) :
    (s.insertAll args).contains id = true := by
  induction args generalizing s with
  | nil => exact slot
  | cons a args ih => exact ih (contains_insert_of slot)

end Store

/-- A run of a body is an evaluation of it from its start. -/
theorem runBody_of_eval {s : Setting} {fuel : Nat} {body : Node} {persisted : Store} {host : Host}
    {r : Except Exit Value} {σ : Frame}
    (h : eval s fuel body none { persisted, host } = (r, σ)) :
    runBody s fuel body persisted host = (completion r, σ) :=
  congrArg (fun x : Except Exit Value × Frame ↦ (completion x.1, x.2)) h

theorem completion_eq_outOfFuel {r : Except Exit Value} :
    completion r = .error .outOfFuel ↔ r = .error (.stop .outOfFuel) := by
  refine ⟨fun out ↦ ?_, fun out ↦ out ▸ rfl⟩
  cases r with
  | ok v => cases out
  | error e =>
    cases e with
    | stop reason => exact congrArg (Except.error ∘ Exit.stop) (Except.error.inj out)
    | _ => cases out

/-- The machine with values for parameters. -/
def Machine.withArguments (m : Machine) (args : List (Variable × Value)) : Machine :=
  args.foldl (fun m (v, value) ↦ m.withArgument v value) m

/-- Values for parameters change the storage only. -/
theorem Machine.withArguments_eq (m : Machine) (args : List (Variable × Value)) :
    m.withArguments args = { m with persisted := m.persisted.insertAll args } := by
  induction args generalizing m with
  | nil => rfl
  | cons a args ih => exact ih (m.withArgument a.1 a.2)

/-- A machine starts in the state of a body that is running, whatever older parameters hold. -/
theorem Machine.start_state {l : Lowered} {base : Nat} {args : List (Variable × Value)}
    (new : base ≤ l.contract.state.id.toNat) (older : ∀ a ∈ args, a.1.id.toNat < base) :
    ((Machine.start l).persisted.insertAll args).get? l.contract.state.id =
      some (.int running) := by
  rw [Store.get?_insertAll_of_notMem]
  · exact (Store.get?_insert _ _ _ _).trans (if_pos rfl)
  · intro param
    obtain ⟨a, member, same⟩ := List.mem_map.1 param
    have := older a member
    rw [same] at this
    omega

namespace Session

/-- A session after some moves from another one. In between, anything may happen in the world. -/
inductive Later (s : Session) : Session → Prop
  | start : Later s s
  | move {t : Session} (earlier : Later s t) (fuel : Nat) : Later s (t.moveNext fuel).2
  | world {t : Session} (earlier : Later s t) (host : Host) : Later s { t with host }

/-- Whether a move stopped to wait. -/
def stopsToWait : Except Stop Progress → Bool
  | .ok (.suspended _) => true
  | _ => false

/-- What moves of a session came to, the latest first, and the session after them. None of them ran
out of fuel. In between, anything may happen in the world. -/
inductive Ran (s : Session) : List (Except Stop Progress) → Session → Prop
  | start : Ran s [] s
  | move {results : List (Except Stop Progress)} {t : Session} (earlier : Ran s results t)
    (fuel : Nat) (enough : (t.moveNext fuel).1 ≠ .error .outOfFuel) :
    Ran s ((t.moveNext fuel).1 :: results) (t.moveNext fuel).2
  | world {results : List (Except Stop Progress)} {t : Session} (earlier : Ran s results t)
    (host : Host) (resumptions : Nat) : Ran s results ⟨{ t.machine with resumptions }, host⟩

/-- Between two moves the driver may complete the future that the body waits for. -/
theorem Ran.resume {s t : Session} {results : List (Except Stop Progress)} (ran : s.Ran results t)
    (awaiter : Value) : s.Ran results (t.resume awaiter) :=
  ran.world _ _

variable {s : Session} {fuel : Nat} {σ : Frame}

/-- A move whose run was stopped. -/
theorem moveNext_stopped {reason : Stop}
    (ran : s.machine.run fuel s.host = (.error reason, σ)) :
    s.moveNext fuel = (.error reason, ⟨{ s.machine with persisted := σ.persisted }, σ.host⟩) := by
  rw [moveNext]
  dsimp only
  rw [ran]

/-- A move whose run came to its end. -/
theorem moveNext_completed {c : Completion} {m : Machine}
    (ran : s.machine.run fuel s.host = (.ok c, σ))
    (after : m = { s.machine with
      persisted := σ.persisted, callbacks := s.machine.callbacks + σ.awaiters.size }) :
    s.moveNext fuel = (progress m σ.host σ.awaiters c, ⟨m, σ.host⟩) := by
  rw [moveNext]
  dsimp only
  rw [ran, after]

/-- A move ends in a fault of the run, or in one that the driver finds. -/
theorem moveNext_error {f : Fault} (h : (s.moveNext fuel).1 = .error (.fault f)) :
    (s.machine.run fuel s.host).1 = .error (.fault f) ∨ f.cause.isDrivers = true := by
  rcases ran : s.machine.run fuel s.host with ⟨reason | c, σ⟩
  · rw [moveNext_stopped ran] at h
    cases h
    exact .inl rfl
  · rw [moveNext_completed ran rfl] at h
    right
    dsimp only [progress] at h
    cases c with
    | threw ex =>
      cases h
      rfl
    | returned value => cases h
    | normal value =>
      dsimp only at h
      split at h
      · cases h
      · split at h
        · cases h
        · cases h
          rfl

/-- What a move makes of the machine. -/
theorem moveNext_machine (s : Session) (fuel : Nat) : ∃ callbacks, (s.moveNext fuel).2.machine =
    { s.machine with persisted := (s.machine.run fuel s.host).2.persisted, callbacks } := by
  rcases ran : s.machine.run fuel s.host with ⟨reason | c, σ⟩
  · rw [moveNext_stopped ran]
    exact ⟨_, rfl⟩
  · rw [moveNext_completed ran rfl]
    exact ⟨_, rfl⟩

/-- A machine keeps its body. -/
theorem Later.body {t : Session} (later : s.Later t) : t.machine.body = s.machine.body := by
  induction later with
  | start => rfl
  | @move t earlier fuel ih =>
    obtain ⟨callbacks, machine⟩ := t.moveNext_machine fuel
    rw [machine, ← ih]
  | world earlier host ih => exact ih

end Session

end Suspension
