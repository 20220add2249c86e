import Mathlib.Logic.Function.Iterate

/-!
# Simulations between machines

A `TransitionSystem` is a deterministic machine: a step, and what the machine has come to once it is
over, after which a step changes nothing. Two of them are compared by a `Simulation`, a relation
between their states that survives as many steps of the one as are needed, answered by at least one
of the other. Since both are deterministic, one relation serves in both directions: related machines
end together (`Simulation.ends`, `Simulation.ends_of_ends`), with related results.
-/

namespace Suspension

universe u v w x

/-- A deterministic machine. -/
structure TransitionSystem (α : Type u) (β : Type v) where
  next : α → α
  /-- What it has come to, if it is over. -/
  result? : α → Option β
  next_of_result : ∀ {c r}, result? c = some r → next c = c

namespace TransitionSystem

variable {α : Type u} {β : Type v} (M : TransitionSystem α β)

/-- Some steps. -/
def run (k : Nat) (c : α) : α :=
  M.next^[k] c

/-- One state comes after another. -/
def Reaches (c d : α) : Prop :=
  ∃ k, M.run k c = d

/-- One state comes after another by a step at least. -/
def Proceeds (c d : α) : Prop :=
  ∃ k, 0 < k ∧ M.run k c = d

/-- The machine comes to a result. -/
def Ends (c : α) (r : β) : Prop :=
  ∃ d, M.Reaches c d ∧ M.result? d = some r

/-- The machine is not over after a number of steps. -/
def Live (k : Nat) (c : α) : Prop :=
  M.result? (M.run k c) = none

variable {M} {c d e : α} {r r' : β}

@[simp] theorem run_zero (c : α) : M.run 0 c = c := rfl

theorem run_add (k m : Nat) (c : α) : M.run (k + m) c = M.run m (M.run k c) := by
  rw [run, Nat.add_comm, Function.iterate_add_apply]
  rfl

theorem run_one (c : α) : M.run 1 c = M.next c := rfl

theorem run_of_result (h : M.result? c = some r) (k : Nat) : M.run k c = c := by
  induction k with
  | zero => rfl
  | succ k ih => rw [run_add, ih, run_one, M.next_of_result h]

/-! ### One state after another -/

theorem Reaches.refl (c : α) : M.Reaches c c :=
  ⟨0, rfl⟩

theorem Reaches.trans (h : M.Reaches c d) (h' : M.Reaches d e) : M.Reaches c e := by
  obtain ⟨k, rfl⟩ := h
  obtain ⟨m, rfl⟩ := h'
  exact ⟨k + m, run_add k m c⟩

theorem Proceeds.reaches (h : M.Proceeds c d) : M.Reaches c d :=
  ⟨h.choose, h.choose_spec.2⟩

theorem Proceeds.next (c : α) : M.Proceeds c (M.next c) :=
  ⟨1, Nat.one_pos, rfl⟩

theorem Proceeds.of_next (h : M.next c = d) : M.Proceeds c d :=
  ⟨1, Nat.one_pos, h⟩

theorem Proceeds.trans_reaches (h : M.Proceeds c d) (h' : M.Reaches d e) : M.Proceeds c e := by
  obtain ⟨k, pos, rfl⟩ := h
  obtain ⟨m, rfl⟩ := h'
  exact ⟨k + m, Nat.add_pos_left pos m, run_add k m c⟩

theorem Proceeds.trans (h : M.Proceeds c d) (h' : M.Proceeds d e) : M.Proceeds c e :=
  h.trans_reaches h'.reaches

theorem Reaches.trans_proceeds (h : M.Reaches c d) (h' : M.Proceeds d e) : M.Proceeds c e := by
  obtain ⟨k, rfl⟩ := h
  obtain ⟨m, pos, rfl⟩ := h'
  exact ⟨k + m, Nat.add_pos_right k pos, run_add k m c⟩

theorem Reaches.head (h : M.Reaches (M.next c) d) : M.Reaches c d :=
  (Proceeds.next c).reaches.trans h

/-- What a state comes to, it is or its next state comes to. -/
theorem Reaches.eq_or_next (h : M.Reaches c d) : c = d ∨ M.Reaches (M.next c) d := by
  obtain ⟨_ | k, rfl⟩ := h
  · exact .inl rfl
  · exact .inr ⟨k, by rw [Nat.add_comm, run_add, run_one]⟩

/-- Of two states that come after one, one comes after the other. -/
theorem Reaches.total (h : M.Reaches c d) (h' : M.Reaches c e) :
    M.Reaches d e ∨ M.Reaches e d := by
  obtain ⟨k, rfl⟩ := h
  obtain ⟨m, rfl⟩ := h'
  rcases Nat.le_total k m with le | le
  · exact .inl ⟨m - k, by rw [← run_add, Nat.add_sub_cancel' le]⟩
  · exact .inr ⟨k - m, by rw [← run_add, Nat.add_sub_cancel' le]⟩

/-- A property that each step keeps, until something comes by. -/
theorem Reaches.until {P Q : α → Prop} (step : ∀ c, P c → Q c ∨ P (M.next c)) (holds : P c)
    (h : M.Reaches c d) : P d ∨ ∃ e, P e ∧ Q e ∧ M.Reaches c e ∧ M.Reaches e d := by
  obtain ⟨k, rfl⟩ := h
  induction k generalizing c with
  | zero => exact .inl holds
  | succ k ih =>
    have later : M.run (k + 1) c = M.run k (M.next c) := by
      rw [Nat.add_comm, run_add, run_one]
    rcases step c holds with here | next
    · exact .inr ⟨c, holds, here, .refl c, k + 1, rfl⟩
    · rw [later]
      exact (ih next).imp_right fun ⟨e, kept, found, before, after⟩ ↦
        ⟨e, kept, found, before.head, after⟩

/-! ### Results -/

theorem Ends.of_result (h : M.result? c = some r) : M.Ends c r :=
  ⟨c, .refl c, h⟩

theorem Ends.of_reaches (h : M.Reaches c d) (h' : M.Ends d r) : M.Ends c r := by
  obtain ⟨e, reach, result⟩ := h'
  exact ⟨e, h.trans reach, result⟩

/-- What is over stays what it is. -/
theorem Reaches.eq_of_result (h : M.Reaches c d) (result : M.result? c = some r) : d = c := by
  obtain ⟨k, rfl⟩ := h
  exact run_of_result result k

/-- A machine comes to one result only. -/
theorem Ends.unique (h : M.Ends c r) (h' : M.Ends c r') : r = r' := by
  obtain ⟨d, reach, result⟩ := h
  obtain ⟨d', reach', result'⟩ := h'
  have same : d = d' := by
    rcases reach.total reach' with after | after
    · exact (after.eq_of_result result).symm
    · exact after.eq_of_result result'
  rw [same, result'] at result
  exact (Option.some.inj result).symm

/-- What a machine comes to, it also comes to from later states. -/
theorem Ends.after (h : M.Ends c r) (reach : M.Reaches c d) : M.Ends d r := by
  obtain ⟨e, reach', result⟩ := h
  rcases reach.total reach' with after | after
  · exact ⟨e, after, result⟩
  · rw [after.eq_of_result result]
    exact .of_result result

theorem Ends.of_next (h : M.Ends (M.next c) r) : M.Ends c r :=
  h.of_reaches (Proceeds.next c).reaches

/-! ### Machines that are not over -/

theorem Live.le {k m : Nat} (h : M.Live m c) (le : k ≤ m) : M.Live k c := by
  rw [Live, ← Nat.add_sub_cancel' le, run_add] at h
  cases result : M.result? (M.run k c) with
  | none => exact result
  | some r =>
    rw [run_of_result result, result] at h
    cases h

theorem Live.of_run {k m : Nat} (h : M.Live m (M.run k c)) : M.Live (k + m) c := by
  rw [Live, run_add]
  exact h

theorem Live.of_reaches {k : Nat} (h : M.Live k d) (reach : M.Reaches c d) : M.Live k c := by
  obtain ⟨m, rfl⟩ := reach
  exact h.of_run.le (Nat.le_add_left k m)

theorem Live.of_next {k : Nat} (h : M.Live k (M.next c)) : M.Live (k + 1) c :=
  (Live.of_run (k := 1) h).le (Nat.le_of_eq (Nat.add_comm k 1))

/-- A machine that comes to a result is over after some number of steps. -/
theorem Ends.not_live (h : M.Ends c r) : ∃ k, ¬ M.Live k c := by
  obtain ⟨_, ⟨k, rfl⟩, result⟩ := h
  refine ⟨k, fun live ↦ ?_⟩
  rw [live] at result
  cases result

end TransitionSystem

open TransitionSystem

variable {α : Type u} {β : Type v} {α' : Type w} {β' : Type x}

/-- A relation between the states of two systems that their steps keep. -/
structure Simulation (M : TransitionSystem α β) (N : TransitionSystem α' β') (R : α → α' → Prop)
    (Q : β → β' → Prop) : Prop where
  step : ∀ {c d}, R c d → M.result? c = none →
    ∃ c' d', M.Proceeds c c' ∧ N.Proceeds d d' ∧ R c' d'
  ended : ∀ {c d r}, R c d → M.result? c = some r → ∃ r', N.Ends d r' ∧ Q r r'
  live : ∀ {c d}, R c d → M.result? c = none → N.result? d = none

namespace Simulation

variable {M : TransitionSystem α β} {N : TransitionSystem α' β'}
variable {R : α → α' → Prop} {Q : β → β' → Prop}

/-- If the first system ends, so does the second. -/
theorem ends (S : Simulation M N R Q) {c : α} {d : α'} {r : β} (related : R c d)
    (h : M.Ends c r) : ∃ r', N.Ends d r' ∧ Q r r' := by
  obtain ⟨_, ⟨k, rfl⟩, result⟩ := h
  induction k using Nat.strongRecOn generalizing c d with
  | ind k ih =>
    cases ended : M.result? c with
    | some r₀ =>
      rw [run_of_result ended, ended] at result
      cases result
      exact S.ended related ended
    | none =>
      obtain ⟨_, d', ⟨j, pos, rfl⟩, reach, related'⟩ := S.step related ended
      have shorter : ∃ m < k, M.result? (M.run m (M.run j c)) = some r := by
        rcases Nat.lt_or_ge k j with lt | le
        · refine ⟨0, ?_, ?_⟩
          · rcases Nat.eq_zero_or_pos k with rfl | pos
            · rw [run_zero, ended] at result
              cases result
            · exact pos
          · rw [run_zero, ← Nat.add_sub_cancel' (Nat.le_of_lt lt), run_add, run_of_result result,
              result]
        · exact ⟨k - j, by omega, by rw [← run_add, Nat.add_sub_cancel' le, result]⟩
      obtain ⟨m, lt, result'⟩ := shorter
      obtain ⟨r', ends', q⟩ := ih m lt related' result'
      exact ⟨r', ends'.of_reaches reach.reaches, q⟩

/-- If the second system ends, so does the first. -/
theorem ends_of_ends (S : Simulation M N R Q) {c : α} {d : α'} {r' : β'} (related : R c d)
    (h : N.Ends d r') : ∃ r, M.Ends c r ∧ Q r r' := by
  suffices ∃ r, M.Ends c r by
    obtain ⟨r, ends⟩ := this
    obtain ⟨r'', ends', q⟩ := S.ends related ends
    rw [h.unique ends']
    exact ⟨r, ends, q⟩
  obtain ⟨_, ⟨k, rfl⟩, result⟩ := h
  induction k using Nat.strongRecOn generalizing c d with
  | ind k ih =>
    cases ended : M.result? c with
    | some r => exact ⟨r, .of_result ended⟩
    | none =>
      obtain ⟨c', _, reach, ⟨j, pos, rfl⟩, related'⟩ := S.step related ended
      have shorter : ∃ m < k, N.result? (N.run m (N.run j d)) = some r' := by
        rcases Nat.lt_or_ge k j with lt | le
        · refine ⟨0, ?_, ?_⟩
          · rcases Nat.eq_zero_or_pos k with rfl | pos
            · rw [run_zero, S.live related ended] at result
              cases result
            · exact pos
          · rw [run_zero, ← Nat.add_sub_cancel' (Nat.le_of_lt lt), run_add, run_of_result result,
              result]
        · exact ⟨k - j, by omega, by rw [← run_add, Nat.add_sub_cancel' le, result]⟩
      obtain ⟨m, lt, result'⟩ := shorter
      obtain ⟨r, ends⟩ := ih m lt related' result'
      exact ⟨r, ends.of_reaches reach.reaches⟩

end Simulation

end Suspension
