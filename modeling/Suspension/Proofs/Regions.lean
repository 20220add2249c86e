import Mathlib.Data.List.Basic
import Suspension.Proofs.Steps.Adequacy

/-!
# Protected regions

A protected region evaluates some of its parts, one after the other: its body, the filters of its
clauses and the body of one clause if an exception left the body, its fault body if an exception is
left over then, and its finally body. `Course` says what is evaluated, how each of these parts is
left, and what the region comes to; it is what the evaluator does (`Evaluator.region_iff_course`,
`eval_region_iff_course`).

So the order of the parts is always the same, and none but a filter is evaluated twice
(`Course.ordered`). The fault body is evaluated exactly if an exception leaves the body and the
clauses (`Course.fault_iff`). The finally body is evaluated unless the run is stopped before it, and
but for two ways out that pass it by: a filter that ends with a jump or a return, and an exit from
the fault body (`Course.cleanup_iff`).
-/

namespace Suspension

/-- The parts of a protected region. -/
inductive RegionPart
  | body
  | filter (c : Clause Node)
  | handler (c : Clause Node)
  | fault
  | cleanup

/-- A part of a region that was evaluated, and how it was left. -/
structure Passage where
  part : RegionPart
  outcome : Outcome

/-- How the body of a region and its clauses are left: to the parts at the end of the region, or
past them. -/
inductive Departure
  | onward (r : Outcome)
  | past (e : Exit)

section Courses

open Steps

variable (s : Setting) (eval : Evaluator)

/-- The clauses of a region are tried for an exception. The first one without a filter, or whose
filter says yes, handles it. A filter that raises an exception says no, and one that is left
otherwise leaves the region. -/
inductive Catches (ex : Value) :
    List (Clause Node) → Frame → List Passage → Departure → Frame → Prop
  | uncaught (σ : Frame) : Catches ex [] σ [] (.onward (.error (.thrown ex))) σ
  | unfiltered {c : Clause Node} {cs : List (Clause Node)} {σ σ' : Frame} {r : Outcome}
    (filter : c.filter = none)
    (handles : eval c.body none
      { bindClause s c ex σ with handling := ex :: (bindClause s c ex σ).handling } = (r, σ')) :
    Catches ex (c :: cs) σ [⟨.handler c, r⟩] (.onward r) { σ' with handling := σ'.handling.tail }
  | applies {c : Clause Node} {cs : List (Clause Node)} {test : Node} {σ σ₁ σ' : Frame} {v : Value}
    {r : Outcome} (filter : c.filter = some test)
    (tests : eval test none (bindClause s c ex σ) = (.ok v, σ₁)) (yes : v.asBool? = some true)
    (handles : eval c.body none { σ₁ with handling := ex :: σ₁.handling } = (r, σ')) :
    Catches ex (c :: cs) σ [⟨.filter c, .ok v⟩, ⟨.handler c, r⟩] (.onward r)
      { σ' with handling := σ'.handling.tail }
  | refuses {c : Clause Node} {cs : List (Clause Node)} {test : Node} {σ σ₁ σ' : Frame} {v : Value}
    {ps : List Passage} {d : Departure} (filter : c.filter = some test)
    (tests : eval test none (bindClause s c ex σ) = (.ok v, σ₁)) (no : v.asBool? ≠ some true)
    (others : Catches ex cs σ₁ ps d σ') :
    Catches ex (c :: cs) σ (⟨.filter c, .ok v⟩ :: ps) d σ'
  | raises {c : Clause Node} {cs : List (Clause Node)} {test : Node} {σ σ₁ σ' : Frame} {v : Value}
    {ps : List Passage} {d : Departure} (filter : c.filter = some test)
    (tests : eval test none (bindClause s c ex σ) = (.error (.thrown v), σ₁))
    (others : Catches ex cs σ₁ ps d σ') :
    Catches ex (c :: cs) σ (⟨.filter c, .error (.thrown v)⟩ :: ps) d σ'
  | escapes {c : Clause Node} {cs : List (Clause Node)} {test : Node} {σ σ' : Frame} {e : Exit}
    (filter : c.filter = some test) (tests : eval test none (bindClause s c ex σ) = (.error e, σ'))
    (other : ∀ v, e ≠ .thrown v) :
    Catches ex (c :: cs) σ [⟨.filter c, .error e⟩] (.past e) σ'

/-- The body of a region, and its clauses if an exception leaves the body. -/
inductive Protects (body : Node) (cs : List (Clause Node)) :
    Frame → List Passage → Departure → Frame → Prop
  | thrown {σ σ₁ σ' : Frame} {ex : Value} {ps : List Passage} {d : Departure}
    (runs : eval body none σ = (.error (.thrown ex), σ₁))
    (catches : Catches s eval ex cs σ₁ ps d σ') :
    Protects body cs σ (⟨.body, .error (.thrown ex)⟩ :: ps) d σ'
  | other {σ σ' : Frame} {r : Outcome} (runs : eval body none σ = (r, σ'))
    (calm : ∀ ex, r ≠ .error (.thrown ex)) : Protects body cs σ [⟨.body, r⟩] (.onward r) σ'

/-- The finally body of a region that is left so. An exit from it takes the place of how the region
is left. -/
inductive Cleans (cleanup : Option Node) : Outcome → Frame → List Passage → Outcome → Frame → Prop
  | absent {r : Outcome} {σ : Frame} (absent : cleanup = none) : Cleans cleanup r σ [] r σ
  | stopped {reason : Stop} {σ : Frame} :
    Cleans cleanup (.error (.stop reason)) σ [] (.error (.stop reason)) σ
  | runs {part : Node} {r r' : Outcome} {σ σ' : Frame} (present : cleanup = some part)
    (goesOn : ∀ reason, r ≠ .error (.stop reason)) (runs : eval part none σ = (r', σ')) :
    Cleans cleanup r σ [⟨.cleanup, r'⟩] (r' >>= fun _ ↦ r) σ'

/-- The parts at the end of a region that is left so. -/
inductive WindsUp (cleanup fault : Option Node) :
    Outcome → Frame → List Passage → Outcome → Frame → Prop
  | calm {r r' : Outcome} {σ σ' : Frame} {ps : List Passage}
    (calm : fault = none ∨ ∀ ex, r ≠ .error (.thrown ex))
    (cleans : Cleans eval cleanup r σ ps r' σ') : WindsUp cleanup fault r σ ps r' σ'
  | faults {part : Node} {ex v : Value} {r' : Outcome} {σ σ₁ σ' : Frame} {ps : List Passage}
    (present : fault = some part) (runs : eval part none σ = (.ok v, σ₁))
    (cleans : Cleans eval cleanup (.error (.thrown ex)) σ₁ ps r' σ') :
    WindsUp cleanup fault (.error (.thrown ex)) σ (⟨.fault, .ok v⟩ :: ps) r' σ'
  | escapes {part : Node} {ex : Value} {e : Exit} {σ σ' : Frame} (present : fault = some part)
    (runs : eval part none σ = (.error e, σ')) :
    WindsUp cleanup fault (.error (.thrown ex)) σ [⟨.fault, .error e⟩] (.error e) σ'

/-- The parts of a region that are evaluated from its start, and what it comes to. -/
inductive Course (body : Node) (cs : List (Clause Node)) (cleanup fault : Option Node) :
    Frame → List Passage → Outcome → Frame → Prop
  | onward {r r' : Outcome} {σ σ₁ σ' : Frame} {ps ps' : List Passage}
    (protects : Protects s eval body cs σ ps (.onward r) σ₁)
    (windsUp : WindsUp eval cleanup fault r σ₁ ps' r' σ') :
    Course body cs cleanup fault σ (ps ++ ps') r' σ'
  | past {e : Exit} {σ σ' : Frame} {ps : List Passage}
    (protects : Protects s eval body cs σ ps (.past e) σ') :
    Course body cs cleanup fault σ ps (.error e) σ'

end Courses

/-! ### What the evaluator does -/

section Evaluation

open Steps Evaluator

variable {s : Setting} {eval : Evaluator} {body : Node} {cs : List (Clause Node)}
variable {cleanup fault : Option Node} {r r' : Outcome} {σ σ' : Frame} {ps : List Passage}
variable {ex : Value} {d : Departure}

/-- The finally body is all that is left to evaluate where there is no fault body. -/
theorem windUp_some (part : Node) (goesOn : ∀ reason, r ≠ .error (.stop reason)) (σ : Frame) :
    windUp eval (some part) none r σ =
      ((eval part none σ).1 >>= fun _ ↦ r, (eval part none σ).2) := by
  have ran : windUp eval (some part) none r = (do discard (eval part none); Eval.conclude r) := by
    rcases r with (label | v | ex | reason) | v <;> first | rfl | exact absurd rfl (goesOn reason)
  rw [ran, discard_bind, Eval.bind_apply]
  rcases eval part none σ with ⟨e | v, τ⟩
  · rfl
  · exact Eval.conclude_apply τ r

/-- Nothing but a thrown exception takes a region to its fault body. -/
theorem windUp_calm (calm : fault = none ∨ ∀ ex, r ≠ .error (.thrown ex)) :
    windUp eval cleanup fault r = windUp eval cleanup none r := by
  rcases calm with rfl | calm
  · rfl
  · rcases r with (label | v | ex | reason) | v <;> cases fault <;>
      first | rfl | exact absurd rfl (calm ex)

theorem windUp_fault (part : Node) (ex : Value) :
    windUp eval cleanup (some part) (.error (.thrown ex)) =
      eval part none >>= fun _ ↦ windUp eval cleanup none (.error (.thrown ex)) :=
  discard_bind _ _

theorem Cleans.evaluates (h : Cleans eval cleanup r σ ps r' σ') :
    windUp eval cleanup none r σ = (r', σ') := by
  cases h with
  | absent absent =>
    subst absent
    have last : windUp eval none none r = Eval.conclude r := by
      rcases r with (_ | _ | _ | _) | _ <;> rfl
    rw [last]
    exact Eval.conclude_apply σ r
  | stopped =>
    rw [windUp_stop]
    rfl
  | runs present goesOn runs =>
    subst present
    rw [windUp_some _ goesOn, runs]

theorem exists_cleans (eval : Evaluator) (cleanup : Option Node) (r : Outcome) (σ : Frame) :
    ∃ ps r' σ', Cleans eval cleanup r σ ps r' σ' := by
  cases cleanup with
  | none => exact ⟨_, _, _, .absent rfl⟩
  | some part =>
    by_cases stopped : ∃ reason, r = .error (.stop reason)
    · obtain ⟨reason, rfl⟩ := stopped
      exact ⟨_, _, _, .stopped⟩
    · exact ⟨_, _, _, .runs rfl (fun reason same ↦ stopped ⟨reason, same⟩) rfl⟩

theorem WindsUp.evaluates (h : WindsUp eval cleanup fault r σ ps r' σ') :
    windUp eval cleanup fault r σ = (r', σ') := by
  cases h with
  | calm calm cleans =>
    rw [windUp_calm calm]
    exact cleans.evaluates
  | faults present runs cleans =>
    subst present
    rw [windUp_fault, Eval.bind_apply, runs]
    exact cleans.evaluates
  | escapes present runs =>
    subst present
    rw [windUp_fault, Eval.bind_apply, runs]

theorem exists_windsUp (eval : Evaluator) (cleanup fault : Option Node) (r : Outcome) (σ : Frame) :
    ∃ ps r' σ', WindsUp eval cleanup fault r σ ps r' σ' := by
  obtain ⟨ps, r', σ', cleans⟩ := exists_cleans eval cleanup r σ
  by_cases calm : fault = none ∨ ∀ ex, r ≠ .error (.thrown ex)
  · exact ⟨ps, r', σ', .calm calm cleans⟩
  · simp only [not_or, not_forall, not_not] at calm
    obtain ⟨present, ex, rfl⟩ := calm
    obtain ⟨part, rfl⟩ := Option.ne_none_iff_exists'.1 present
    rcases runs : eval part none σ with ⟨e | v, σ₁⟩
    · exact ⟨_, _, _, .escapes rfl runs⟩
    · obtain ⟨ps, r', σ', cleans⟩ := exists_cleans eval cleanup (.error (.thrown ex)) σ₁
      exact ⟨_, _, _, .faults rfl runs cleans⟩

/-- What a region does once it is left so. -/
def departs (eval : Evaluator) (cleanup fault : Option Node) : Departure → Eval Value
  | .onward r => windUp eval cleanup fault r
  | .past e => throw e

theorem handlerThen_apply {c : Clause Node} {σ₁ : Frame}
    (handles : eval c.body none { σ₁ with handling := ex :: σ₁.handling } = (r, σ')) :
    handlerThen eval cleanup fault ex c σ₁ =
      windUp eval cleanup fault r { σ' with handling := σ'.handling.tail } := by
  simp only [handlerThen, Eval.bind_apply, Eval.modify_apply, Eval.attempt_apply, handles]

theorem Catches.evaluates (h : Catches s eval ex cs σ ps d σ') :
    clausesThen s eval cleanup fault ex cs σ = departs eval cleanup fault d σ' := by
  induction h with
  | uncaught σ => rfl
  | unfiltered filter handles =>
    rw [clausesThen_cons, filter]
    exact handlerThen_apply handles
  | applies filter tests yes handles =>
    rw [clausesThen_cons, filter, applies_eq_thenWith, thenWith, tests]
    simp only [yes, beq_self_eq_true, if_true]
    exact handlerThen_apply handles
  | refuses filter tests no others ih =>
    rw [clausesThen_cons, filter, applies_eq_thenWith, thenWith, tests]
    simp only [beq_iff_eq, no, if_false]
    exact ih
  | raises filter tests others ih =>
    rw [clausesThen_cons, filter, applies_eq_thenWith, thenWith, tests]
    exact ih
  | @escapes c cs test σ σ' e filter tests other =>
    rw [clausesThen_cons, filter, applies_eq_thenWith, thenWith, tests]
    cases e with
    | thrown v => exact absurd rfl (other v)
    | _ => rfl

theorem exists_catches (s : Setting) (eval : Evaluator) (ex : Value) (cs : List (Clause Node))
    (σ : Frame) : ∃ ps d σ', Catches s eval ex cs σ ps d σ' := by
  induction cs generalizing σ with
  | nil => exact ⟨_, _, _, .uncaught σ⟩
  | cons c cs ih =>
    cases filter : c.filter with
    | none => exact ⟨_, _, _, .unfiltered filter rfl⟩
    | some test =>
      rcases tests : eval test none (bindClause s c ex σ) with ⟨e | v, σ₁⟩
      · by_cases raises : ∃ v, e = .thrown v
        · obtain ⟨v, rfl⟩ := raises
          obtain ⟨ps, d, σ', others⟩ := ih σ₁
          exact ⟨_, _, _, .raises filter tests others⟩
        · exact ⟨_, _, _, .escapes filter tests fun v same ↦ raises ⟨v, same⟩⟩
      · by_cases yes : v.asBool? = some true
        · exact ⟨_, _, _, .applies filter tests yes rfl⟩
        · obtain ⟨ps, d, σ', others⟩ := ih σ₁
          exact ⟨_, _, _, .refuses filter tests yes others⟩

theorem Protects.evaluates (h : Protects s eval body cs σ ps d σ') :
    region s eval body cs cleanup fault σ = departs eval cleanup fault d σ' := by
  rw [region_eq_thenWith, thenWith]
  cases h with
  | thrown runs catches =>
    rw [runs]
    exact catches.evaluates
  | @other _ r runs calm =>
    rw [runs]
    rcases r with (label | v | ex | reason) | v <;> first | rfl | exact absurd rfl (calm ex)

theorem exists_protects (s : Setting) (eval : Evaluator) (body : Node) (cs : List (Clause Node))
    (σ : Frame) : ∃ ps d σ', Protects s eval body cs σ ps d σ' := by
  rcases runs : eval body none σ with ⟨r, σ₁⟩
  by_cases thrown : ∃ ex, r = .error (.thrown ex)
  · obtain ⟨ex, rfl⟩ := thrown
    obtain ⟨ps, d, σ', catches⟩ := exists_catches s eval ex cs σ₁
    exact ⟨_, _, _, .thrown runs catches⟩
  · exact ⟨_, _, _, .other runs fun ex same ↦ thrown ⟨ex, same⟩⟩

theorem Course.evaluates (h : Course s eval body cs cleanup fault σ ps r' σ') :
    region s eval body cs cleanup fault σ = (r', σ') := by
  cases h with
  | onward protects windsUp =>
    rw [protects.evaluates]
    exact windsUp.evaluates
  | past protects => exact protects.evaluates

/-- **A region comes to what its courses say**, and it has one from every frame. -/
theorem Evaluator.region_iff_course : region s eval body cs cleanup fault σ = (r', σ') ↔
    ∃ ps, Course s eval body cs cleanup fault σ ps r' σ' := by
  refine ⟨fun comes ↦ ?_, fun ⟨ps, course⟩ ↦ course.evaluates⟩
  -- There is a course, and what it says is what the region comes to.
  obtain ⟨ps, r, τ, course⟩ : ∃ ps r τ, Course s eval body cs cleanup fault σ ps r τ := by
    obtain ⟨ps, d, σ₁, protects⟩ := exists_protects s eval body cs σ
    cases d with
    | past e => exact ⟨_, _, _, .past protects⟩
    | onward r =>
      obtain ⟨ps', r', σ', windsUp⟩ := exists_windsUp eval cleanup fault r σ₁
      exact ⟨_, _, _, .onward protects windsUp⟩
  obtain ⟨rfl, rfl⟩ := Prod.mk.inj (course.evaluates.symm.trans comes)
  exact ⟨ps, course⟩

end Evaluation

/-- A region that is evaluated from its start takes a course, once its visit is noted. -/
theorem eval_region_iff_course {s : Setting} {fuel : Nat} {id : NodeId} {body : Node}
    {cs : List (Clause Node)} {cleanup fault : Option Node} {r : Outcome} {σ σ' : Frame} :
    eval s (fuel + 1) ⟨id, .region body cs cleanup fault⟩ none σ = (r, σ') ↔
      ∃ ps, Course s (eval s fuel) body cs cleanup fault (Eval.noted s (.visit id none) σ) ps r
        σ' := by
  have visited : eval s (fuel + 1) ⟨id, .region body cs cleanup fault⟩ none σ =
      Evaluator.region s (eval s fuel) body cs cleanup fault (Eval.noted s (.visit id none) σ) := by
    simp only [eval, Eval.bind_apply, Eval.note_apply]
    rfl
  rw [visited, Evaluator.region_iff_course]

/-! ### What is evaluated when -/

/-- The place of a part among the parts of its region. -/
def RegionPart.rank : RegionPart → Nat
  | .body => 0
  | .filter _ => 1
  | .handler _ => 2
  | .fault => 3
  | .cleanup => 4

/-- One part is evaluated before another. Only filters are evaluated several in a row. -/
def Passage.Before (p q : Passage) : Prop :=
  p.part.rank < q.part.rank ∨ p.part.rank = 1 ∧ q.part.rank = 1

/-- A part is left so that the finally body is passed by: the run is stopped, a filter jumps or
returns, or a fault body is left other than at its end. -/
def Passage.PassesBy (p : Passage) : Prop :=
  match p.part with
  | .body => ∃ reason, p.outcome = .error (.stop reason)
  | .filter _ => ∃ e, p.outcome = .error e ∧ ∀ v, e ≠ .thrown v
  | .handler _ => ∃ reason, p.outcome = .error (.stop reason)
  | .fault => ∃ e, p.outcome = .error e
  | .cleanup => False

section Laws

variable {s : Setting} {eval : Evaluator} {body : Node} {cs : List (Clause Node)}
variable {cleanup fault : Option Node} {r r' : Outcome} {σ σ' : Frame} {ps : List Passage}
variable {ex : Value} {d : Departure}

/-- Clauses are tried by their filters, and the last thing is the body of the one that applies. -/
theorem Catches.ordered (h : Catches s eval ex cs σ ps d σ') :
    (∀ p ∈ ps, p.part.rank = 1 ∨ p.part.rank = 2) ∧ ps.Pairwise Passage.Before := by
  -- A filter goes before whatever the clauses after it do.
  have behind {c : Clause Node} {r : Outcome} {ps : List Passage}
      (h : (∀ p ∈ ps, p.part.rank = 1 ∨ p.part.rank = 2) ∧ ps.Pairwise Passage.Before) :
      (∀ p ∈ ⟨.filter c, r⟩ :: ps, p.part.rank = 1 ∨ p.part.rank = 2) ∧
        (⟨.filter c, r⟩ :: ps).Pairwise Passage.Before := by
    refine ⟨List.forall_mem_cons.2 ⟨.inl rfl, h.1⟩, List.pairwise_cons.2 ⟨fun p member ↦ ?_, h.2⟩⟩
    rcases h.1 p member with filter | handler
    · exact .inr ⟨rfl, filter⟩
    · refine .inl ?_
      rw [handler]
      exact Nat.one_lt_two
  have last (c : Clause Node) (r : Outcome) :
      (∀ p ∈ [Passage.mk (.handler c) r], p.part.rank = 1 ∨ p.part.rank = 2) ∧
        [Passage.mk (.handler c) r].Pairwise Passage.Before :=
    ⟨List.forall_mem_singleton.2 (.inr rfl), List.pairwise_singleton _ _⟩
  have nothing : (∀ p ∈ ([] : List Passage), p.part.rank = 1 ∨ p.part.rank = 2) ∧
      ([] : List Passage).Pairwise Passage.Before := ⟨List.forall_mem_nil _, .nil⟩
  induction h with
  | uncaught => exact nothing
  | unfiltered => exact last _ _
  | applies => exact behind (last _ _)
  | refuses _ _ _ _ ih => exact behind ih
  | raises _ _ _ ih => exact behind ih
  | escapes => exact behind nothing

theorem Protects.ordered (h : Protects s eval body cs σ ps d σ') :
    (∀ p ∈ ps, p.part.rank < 3) ∧ ps.Pairwise Passage.Before := by
  cases h with
  | thrown runs catches =>
    obtain ⟨ranks, ordered⟩ := catches.ordered
    refine ⟨List.forall_mem_cons.2 ⟨Nat.zero_lt_succ _, fun p member ↦ ?_⟩,
      List.pairwise_cons.2 ⟨fun p member ↦ .inl ?_, ordered⟩⟩
    · rcases ranks p member with rank | rank <;> omega
    · show 0 < p.part.rank
      rcases ranks p member with rank | rank <;> omega
  | other => exact ⟨List.forall_mem_singleton.2 (Nat.zero_lt_succ _), List.pairwise_singleton _ _⟩

/-- The parts at the end of a region are not among what goes before. -/
theorem Protects.late_iff (h : Protects s eval body cs σ ps d σ') (part : RegionPart)
    (late : 3 ≤ part.rank) (ps' : List Passage) :
    (∃ p ∈ ps ++ ps', p.part = part) ↔ ∃ p ∈ ps', p.part = part := by
  refine ⟨fun ⟨p, member, same⟩ ↦ ⟨p, ?_, same⟩, fun ⟨p, member, same⟩ ↦
    ⟨p, List.mem_append_right _ member, same⟩⟩
  refine (List.mem_append.1 member).resolve_left fun here ↦ ?_
  exact absurd (h.ordered.1 p here) (same ▸ Nat.not_lt.2 late)

theorem Cleans.passages (h : Cleans eval cleanup r σ ps r' σ') :
    ps = [] ∨ ∃ r, ps = [⟨.cleanup, r⟩] := by
  cases h with
  | absent => exact .inl rfl
  | stopped => exact .inl rfl
  | runs => exact .inr ⟨_, rfl⟩

theorem WindsUp.ordered (h : WindsUp eval cleanup fault r σ ps r' σ') :
    (∀ p ∈ ps, 3 ≤ p.part.rank) ∧ ps.Pairwise Passage.Before := by
  have cleaned {r r' : Outcome} {σ σ' : Frame} {ps : List Passage}
      (h : Cleans eval cleanup r σ ps r' σ') :
      (∀ p ∈ ps, p.part.rank = 4) ∧ ps.Pairwise Passage.Before := by
    rcases h.passages with rfl | ⟨r, rfl⟩
    · exact ⟨List.forall_mem_nil _, .nil⟩
    · exact ⟨List.forall_mem_singleton.2 rfl, List.pairwise_singleton _ _⟩
  cases h with
  | calm calm cleans =>
    obtain ⟨ranks, ordered⟩ := cleaned cleans
    exact ⟨fun p member ↦ ranks p member ▸ by decide, ordered⟩
  | faults present runs cleans =>
    obtain ⟨ranks, ordered⟩ := cleaned cleans
    refine ⟨List.forall_mem_cons.2 ⟨Nat.le_refl _, fun p member ↦ ranks p member ▸ by decide⟩,
      List.pairwise_cons.2 ⟨fun p member ↦ .inl ?_, ordered⟩⟩
    exact ranks p member ▸ Nat.lt_succ_self 3
  | escapes => exact ⟨List.forall_mem_singleton.2 (Nat.le_refl _), List.pairwise_singleton _ _⟩

/-- **The parts of a region are evaluated in one order**, each but the filters at most once: body,
filters, the body of a clause, fault body, finally body. -/
theorem Course.ordered (h : Course s eval body cs cleanup fault σ ps r' σ') :
    ps.Pairwise Passage.Before := by
  cases h with
  | past protects => exact protects.ordered.2
  | onward protects windsUp =>
    obtain ⟨early, ordered⟩ := protects.ordered
    obtain ⟨late, ordered'⟩ := windsUp.ordered
    refine List.pairwise_append.2 ⟨ordered, ordered', fun p member q member' ↦ .inl ?_⟩
    exact Nat.lt_of_lt_of_le (early p member) (late q member')

/-! #### The fault body -/

/-- **The fault body is evaluated exactly if an exception leaves the body and the clauses.** -/
theorem Course.fault_iff {part : Node} (h : Course s eval body cs cleanup (some part) σ ps r' σ') :
    ∃ ps₁ ps₂ d τ, ps = ps₁ ++ ps₂ ∧ Protects s eval body cs σ ps₁ d τ ∧
      ((∃ p ∈ ps, p.part = .fault) ↔ ∃ ex, d = .onward (.error (.thrown ex))) := by
  cases h with
  | past protects =>
    refine ⟨ps, [], _, _, (List.append_nil ps).symm, protects, ?_⟩
    have late := protects.late_iff .fault (Nat.le_refl 3) []
    rw [List.append_nil] at late
    refine late.trans (iff_of_false ?_ ?_)
    · rintro ⟨p, ⟨⟩, -⟩
    · rintro ⟨ex, ⟨⟩⟩
  | @onward r _ _ σ₁ _ ps₁ ps₂ protects windsUp =>
    have late := protects.late_iff .fault (Nat.le_refl 3) ps₂
    refine ⟨ps₁, ps₂, .onward r, σ₁, rfl, protects, late.trans ?_⟩
    cases windsUp with
    | calm calm cleans =>
      refine iff_of_false ?_ ?_
      · rintro ⟨p, member, same⟩
        rcases cleans.passages with rfl | ⟨r, rfl⟩
        · cases member
        · rw [List.mem_singleton.1 member] at same
          cases same
      · rintro ⟨ex, ⟨⟩⟩
        exact calm.elim (by rintro ⟨⟩) fun calm ↦ calm ex rfl
    | faults => exact iff_of_true ⟨_, List.mem_cons_self, rfl⟩ ⟨_, rfl⟩
    | escapes => exact iff_of_true ⟨_, List.mem_cons_self, rfl⟩ ⟨_, rfl⟩

/-! #### The finally body -/

/-- The ways out of the body and the clauses that the finally body does not see. -/
def Departure.PassesBy : Departure → Prop
  | .onward r => ∃ reason, r = .error (.stop reason)
  | .past _ => True

theorem Catches.passesBy_iff (h : Catches s eval ex cs σ ps d σ') :
    (∃ p ∈ ps, p.PassesBy) ↔ d.PassesBy := by
  -- A filter that answers, or raises an exception, leaves it to the clauses after it.
  have goesOn {c : Clause Node} {r : Outcome} {ps : List Passage} {d : Departure}
      (h : (∃ p ∈ ps, p.PassesBy) ↔ d.PassesBy) (calm : ¬ Passage.PassesBy ⟨.filter c, r⟩) :
      (∃ p ∈ ⟨.filter c, r⟩ :: ps, p.PassesBy) ↔ d.PassesBy := by
    rw [List.exists_mem_cons_iff, or_iff_right calm, h]
  have last (c : Clause Node) (r : Outcome) :
      (∃ p ∈ [Passage.mk (.handler c) r], p.PassesBy) ↔ (Departure.onward r).PassesBy := by
    simp only [List.mem_singleton, exists_eq_left]
    rfl
  induction h with
  | uncaught => simp [Departure.PassesBy]
  | unfiltered => exact last _ _
  | applies => exact goesOn (last _ _) (by rintro ⟨_, ⟨⟩, _⟩)
  | refuses _ _ _ _ ih => exact goesOn ih (by rintro ⟨_, ⟨⟩, _⟩)
  | raises _ _ _ ih =>
    refine goesOn ih ?_
    rintro ⟨_, ⟨⟩, other⟩
    exact other _ rfl
  | escapes filter tests other =>
    exact iff_of_true ⟨_, List.mem_cons_self, _, rfl, other⟩ trivial

theorem Protects.passesBy_iff (h : Protects s eval body cs σ ps d σ') :
    (∃ p ∈ ps, p.PassesBy) ↔ d.PassesBy := by
  cases h with
  | thrown runs catches =>
    have calm : ∀ ex, ¬ Passage.PassesBy ⟨.body, .error (.thrown ex)⟩ := by
      rintro _ ⟨_, ⟨⟩⟩
    rw [List.exists_mem_cons_iff, or_iff_right (calm _), catches.passesBy_iff]
  | other =>
    simp only [List.mem_singleton, exists_eq_left]
    rfl

theorem Cleans.cleanup_iff {part : Node} (h : Cleans eval (some part) r σ ps r' σ') :
    (∃ p ∈ ps, p.part = .cleanup) ↔ ∀ reason, r ≠ .error (.stop reason) := by
  cases h with
  | absent absent => cases absent
  | stopped => simp
  | runs present goesOn => exact iff_of_true ⟨_, List.mem_cons_self, rfl⟩ goesOn

theorem WindsUp.cleanup_iff {part : Node} (h : WindsUp eval (some part) fault r σ ps r' σ') :
    (∃ p ∈ ps, p.part = .cleanup) ↔
      (∀ reason, r ≠ .error (.stop reason)) ∧ ∀ p ∈ ps, ¬ p.PassesBy := by
  have cleaned {r r' : Outcome} {σ σ' : Frame} {ps : List Passage}
      (h : Cleans eval (some part) r σ ps r' σ') : ∀ p ∈ ps, ¬ p.PassesBy := by
    rcases h.passages with rfl | ⟨r, rfl⟩
    · exact List.forall_mem_nil _
    · exact List.forall_mem_singleton.2 id
  cases h with
  | calm calm cleans => rw [cleans.cleanup_iff, and_iff_left (cleaned cleans)]
  | faults present runs cleans =>
    have value : ∀ v, ¬ Passage.PassesBy ⟨.fault, .ok v⟩ := by
      rintro _ ⟨_, ⟨⟩⟩
    rw [List.exists_mem_cons_iff, or_iff_right (by rintro ⟨⟩), cleans.cleanup_iff,
      List.forall_mem_cons, and_iff_left ⟨value _, cleaned cleans⟩]
  | escapes present runs =>
    refine iff_of_false ?_ ?_
    · rintro ⟨p, member, same⟩
      rw [List.mem_singleton.1 member] at same
      cases same
    · rintro ⟨-, calm⟩
      exact calm _ List.mem_cons_self ⟨_, rfl⟩

/-- **The finally body is evaluated unless it is passed by.** It is passed by if the run is stopped
before it, if a filter jumps or returns, or if the fault body is left other than at its end. -/
theorem Course.cleanup_iff {part : Node} (h : Course s eval body cs (some part) fault σ ps r' σ') :
    (∃ p ∈ ps, p.part = .cleanup) ↔ ∀ p ∈ ps, ¬ p.PassesBy := by
  cases h with
  | past protects =>
    -- A filter has left the region.
    obtain ⟨p, member, passes⟩ := protects.passesBy_iff.2 trivial
    have late := protects.late_iff .cleanup (Nat.le_succ 3) []
    rw [List.append_nil] at late
    refine late.trans (iff_of_false ?_ fun calm ↦ calm p member passes)
    rintro ⟨p, ⟨⟩, -⟩
  | @onward r _ _ σ₁ _ ps₁ ps₂ protects windsUp =>
    have calm : (∀ p ∈ ps₁, ¬ p.PassesBy) ↔ ∀ reason, r ≠ .error (.stop reason) := by
      have passes := not_congr protects.passesBy_iff
      simpa only [Departure.PassesBy, not_exists, not_and] using passes
    rw [protects.late_iff .cleanup (Nat.le_succ 3), windsUp.cleanup_iff,
      List.forall_mem_append, calm]

end Laws

end Suspension
