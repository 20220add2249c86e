import Suspension.Proofs.Steps.Invariant

/-!
# Questions and their answers

A branch that asks the awaiter in a variable whether it is completed, and enters its arm if not,
does so only if the variable holds a future that is not completed. The test is taken apart by
several steps, and what one of them leaves with says what the next one does (`Node.Answers`). So it
is an invariant of runs (`Configuration.Answered`), and it holds of every run from its start
(`pends_of_reaches`).
-/

namespace Suspension

open Steps Eval

/-- A variable holds a future that is not completed. -/
def Frame.Pends (σ : Frame) (v : Variable) : Prop :=
  ∃ cell f, lookup σ v.id = some (.future cell) ∧ σ.host.future? cell = some f ∧
    f.isCompleted = false

/-- A node asks the awaiter in a variable whether it is completed. -/
def Node.Asks (n : Node) (v : Variable) : Prop :=
  ∃ i, n.shape = .awaiter .isCompleted ⟨i, .var v⟩

/-- A node asks the awaiter in a variable whether it is not completed. -/
def Node.AsksNot (n : Node) (v : Variable) : Prop :=
  ∃ question : Node, question.Asks v ∧ n.shape = .unary .not question

/-- A node enters an arm if the awaiter in a variable is not completed. -/
def Node.Minds (n : Node) (v : Variable) (arm : Node) : Prop :=
  ∃ test : Node, test.AsksNot v ∧ n.shape = .branch test arm none

/-- What a question was answered is right. -/
structure Node.Answers (n : Node) (σ : Frame) (b : Value) : Prop where
  asks : ∀ {v}, n.Asks v → b.asBool? = some false → σ.Pends v
  asksNot : ∀ {v}, n.AsksNot v → b.asBool? = some true → σ.Pends v

namespace Steps

variable {s : Setting} {n c : Node} {t : Task} {v : Variable} {σ : Frame} {r : Outcome}

/-! ### One move -/

/-- A node with one operand waits for it at one stage only. -/
theorem Task.Awaits.of_unary {o : Node} (h : t.Awaits c)
    (unary : SameUnary t.node.shape t.node.shape o o) : t.stage = .operand ∧ c = o := by
  obtain ⟨⟨i, shape⟩, st⟩ := t
  obtain ⟨A, B, stages⟩ := h
  dsimp only [Node.shape] at stages unary ⊢
  cases stages with
  | operand same => exact ⟨rfl, by cases unary <;> cases same <;> rfl⟩
  | operands same => cases unary <;> cases same
  | statements shape => cases unary <;> cases shape
  | round shape => cases unary <;> cases shape
  | test test => cases unary <;> cases test
  | arm arm => cases unary <;> cases arm
  | guard shape => cases unary <;> cases shape
  | body shape => cases unary <;> cases shape
  | filter ex clauses => cases unary <;> simp [clausesOf, Node.shape] at clauses
  | handler member => cases unary <;> cases member
  | fault outcomes part => cases unary <;> cases part
  | cleanup outcomes part => cases unary <;> cases part

/-- A branch waits for its test or for one of its arms. -/
theorem Task.Awaits.of_branch {test yes : Node} {no : Option Node} (h : t.Awaits c)
    (branch : t.node.shape = .branch test yes no) :
    t.stage = .test ∧ c = test ∨ t.stage = .arm ∧ c ∈ yes :: no.toList := by
  obtain ⟨⟨i, shape⟩, st⟩ := t
  obtain ⟨A, B, stages⟩ := h
  dsimp only [Node.shape] at stages branch ⊢
  subst branch
  cases stages with
  | test test => exact .inl ⟨rfl, (Option.some.inj test).symm⟩
  | arm arm => exact .inr ⟨rfl, arm⟩
  | operand same => cases same
  | operands same => cases same
  | statements shape => cases shape
  | round shape => cases shape
  | guard shape => cases shape
  | body shape => cases shape
  | filter ex clauses => simp [clausesOf, Node.shape] at clauses
  | handler member => cases member
  | fault outcomes part => cases part
  | cleanup outcomes part => cases part

/-- A move answers right, and enters an arm that minds only if the future is not completed. -/
structure Move.Tells (n : Node) (m : Move) : Prop where
  leave : ∀ {b}, m.control = .leave (.ok b) → n.Answers m.frame b
  enter : ∀ {c v}, m.control = .enter c none → m.tasks = [⟨n, .arm⟩] → n.Minds v c →
    m.frame.Pends v

/-- A node that asks nothing has nothing to answer. -/
theorem Move.Tells.of_shape {m : Move} (awaiter : n.kind ≠ .awaiter) (unary : n.kind ≠ .unary)
    (branch : n.kind ≠ .branch) : m.Tells n where
  leave _ := ⟨fun ⟨_, shape⟩ ↦ absurd (congrArg Shape.kind shape) awaiter,
    fun ⟨_, _, shape⟩ ↦ absurd (congrArg Shape.kind shape) unary⟩
  enter _ _ := fun ⟨_, _, shape⟩ ↦ absurd (congrArg Shape.kind shape) branch

/-- Children are entered at other stages than arms. -/
theorem Move.Tells.descend {st : Stage} {seek : Option SymbolId} (other : st = .arm → seek ≠ none) :
    (descend n st c seek σ).Tells n where
  leave := by rintro _ ⟨⟩
  enter := by
    rintro _ _ ⟨⟩ tasks
    exact absurd rfl (other (Task.mk.inj (List.cons.inj tasks).1).2)

theorem Move.Tells.give_error (e : Exit) (σ : Frame) : (give (.error e) σ).Tells n where
  leave := by rintro _ ⟨⟩
  enter := by rintro _ _ ⟨⟩

/-- A node that is entered enters its operand or its test first. -/
theorem Move.Tells.enterNode (s : Setting) (n : Node) (seek : Option SymbolId) (σ : Frame) :
    (enterNode s n seek σ).Tells n := by
  obtain ⟨i, shape⟩ := n
  cases shape with
  | awaiter question o => exact descend (by rintro ⟨⟩)
  | unary op o => exact descend (by rintro ⟨⟩)
  | branch test yes no =>
    simp only [Steps.enterNode, startNode, Node.shape, testOrArm]
    split
    · rename_i arm sought
      refine descend fun _ none ↦ ?_
      rw [none] at sought
      cases sought
    · exact descend (by rintro ⟨⟩)
  | _ => exact of_shape (by rintro ⟨⟩) (by rintro ⟨⟩) (by rintro ⟨⟩)

/-- What an awaiter answers to the question whether it is completed. -/
theorem answers_awaiterStep {w b : Value} (yields : Yields c (.ok w) σ)
    (asks : n.shape = .awaiter .isCompleted c)
    (answered : (Evaluator.awaiterStep .isCompleted w n σ).1 = .ok b) :
    (Evaluator.awaiterStep .isCompleted w n σ).2 = σ ∧ n.Answers σ b := by
  rw [Evaluator.awaiterStep, bind_apply, cell_apply] at answered ⊢
  cases holds : cell? σ.host w with
  | none =>
    rw [holds] at answered
    cases answered
  | some found =>
    obtain ⟨cell, f⟩ := found
    rw [holds] at answered
    obtain rfl : .bool f.isCompleted = b := Except.ok.inj answered
    refine ⟨rfl, fun ⟨k, shape⟩ no ↦ ?_, fun ⟨_, _, shape⟩ ↦ ?_⟩
    · obtain rfl := (Shape.awaiter.inj (asks.symm.trans shape)).2
      obtain ⟨i, rfl⟩ | other : (∃ i, w = .future i) ∨ cell? σ.host w = none := by
        cases w <;> first | exact .inl ⟨_, rfl⟩ | exact .inr rfl
      · rw [cell?, Option.map_eq_some_iff] at holds
        obtain ⟨g, future, same⟩ := holds
        cases same
        exact ⟨_, _, yields _ rfl, future, Option.some.inj no⟩
      · rw [holds] at other
        cases other
    · rw [asks] at shape
      cases shape

/-- A node goes on as its operand or its test was answered. -/
theorem Move.Tells.leaveTo (s : Setting) (awaits : t.Awaits c) (yields : Yields c r σ)
    (answers : ∀ b, r = .ok b → c.Answers σ b) : (leaveTo s t r σ).Tells t.node := by
  obtain ⟨⟨i, shape⟩, st⟩ := t
  cases shape with
  | awaiter question o =>
    obtain ⟨stage, rfl⟩ := awaits.of_unary (.awaiter o o question)
    obtain rfl : st = .operand := stage
    rcases r with e | w
    · exact give_error e σ
    · refine ⟨fun {b} answered ↦ ?_, by rintro _ _ ⟨⟩⟩
      cases question with
      | isCompleted =>
        have answered : (Evaluator.awaiterStep .isCompleted w ⟨i, .awaiter .isCompleted c⟩ σ).1 =
            .ok b := Control.leave.inj answered
        obtain ⟨frame, answers⟩ := answers_awaiterStep yields rfl answered
        show Node.Answers _
          (Evaluator.awaiterStep .isCompleted w ⟨i, .awaiter .isCompleted c⟩ σ).2 b
        rw [frame]
        exact answers
      | _ => exact ⟨by rintro _ ⟨_, ⟨⟩⟩, by rintro _ ⟨_, _, ⟨⟩⟩⟩
  | unary op o =>
    obtain ⟨stage, rfl⟩ := awaits.of_unary (.unary o o op)
    obtain rfl : st = .operand := stage
    rcases r with e | w
    · exact give_error e σ
    · refine ⟨fun {b} answered ↦ ⟨by rintro _ ⟨_, ⟨⟩⟩, ?_⟩, by rintro _ _ ⟨⟩⟩
      rintro v ⟨_, asks, ⟨⟩⟩ yes
      have answered : (unary .not w ⟨i, .unary .not c⟩ σ).1 = .ok b := Control.leave.inj answered
      have answers := (answers w rfl).asks asks
      show (unary .not w ⟨i, .unary .not c⟩ σ).2.Pends v
      cases truth : w.asBool? with
      | none =>
        simp only [unary, truth] at answered
        cases answered
      | some b' =>
        simp only [unary, truth] at answered ⊢
        obtain rfl : .bool (!b') = b := Except.ok.inj answered
        cases b' with
        | false => exact answers truth
        | true => cases yes
  | branch test yes no =>
    rcases awaits.of_branch rfl with ⟨stage, rfl⟩ | ⟨stage, -⟩
    · obtain rfl : st = .test := stage
      rcases r with e | w
      · exact give_error e σ
      · refine ⟨fun _ ↦ ⟨by rintro _ ⟨_, ⟨⟩⟩, by rintro _ ⟨_, _, ⟨⟩⟩⟩, ?_⟩
        rintro c' v entered - ⟨_, asksNot, ⟨⟩⟩
        -- The test has said yes, as there is nothing to enter otherwise.
        simp only [Steps.leaveTo, armFor, Node.shape, Evaluator.sideFor] at entered ⊢
        cases truth : w.asBool? with
        | none =>
          rw [truth] at entered
          cases entered
        | some b =>
          rw [truth] at entered
          cases b with
          | true => exact (answers w rfl).asksNot asksNot truth
          | false => cases entered
    · obtain rfl : st = .arm := stage
      refine ⟨fun _ ↦ ⟨by rintro _ ⟨_, ⟨⟩⟩, by rintro _ ⟨_, _, ⟨⟩⟩⟩, ?_⟩
      rintro _ _ entered
      cases r <;> cases entered
  | _ => exact of_shape (by rintro ⟨⟩) (by rintro ⟨⟩) (by rintro ⟨⟩)

/-! ### Runs -/

/-- Between two steps of a run of a tree: what was answered is right, and an arm that minds is
entered only if the future is not completed. -/
inductive Configuration.Answered (root : Node) : Configuration → Prop
  | enter {n : Node} {seek : Option SymbolId} {K : List Task} {σ : Frame}
    (lineage : Lineage root n K)
    (minds : ∀ {m K'}, K = ⟨m, .arm⟩ :: K' → seek = none → ∀ {v}, m.Minds v n → σ.Pends v) :
    Answered root ⟨.enter n seek, K, σ⟩
  | leave {n : Node} {r : Outcome} {K : List Task} {σ : Frame} (lineage : Lineage root n K)
    (yields : Yields n r σ) (answers : ∀ b, r = .ok b → n.Answers σ b) :
    Answered root ⟨.leave r, K, σ⟩

theorem Configuration.Answered.of_move {root : Node} {m : Move} {K : List Task}
    (moves : (Invariant.any s).Moves n m) (tells : m.Tells n) (lineage : Lineage root n K) :
    (m.on K).Answered root := by
  cases moves with
  | give frames yields => exact .leave lineage yields fun b same ↦ tells.leave (congrArg _ same)
  | descend awaits child frames =>
    refine .enter (lineage.child awaits) ?_
    rintro m K' stack rfl v minds
    obtain ⟨top, -⟩ := List.cons.inj stack
    obtain ⟨rfl, rfl⟩ := Task.mk.inj top
    exact tells.enter rfl rfl minds

/-- **Every answer in a run is right.** -/
theorem answered_of_reaches {root : Node} {seek : Option SymbolId} {d : Configuration}
    (reach : (system s).Reaches (start root seek σ) d) : d.Answered root := by
  have law := Invariant.any_lawful s
  obtain ⟨k, rfl⟩ := reach
  induction k with
  | zero => exact .enter .root (by rintro _ _ ⟨⟩)
  | succ k ih =>
    rw [TransitionSystem.run_add, TransitionSystem.run_one]
    generalize (system s).run k (start root seek σ) = c at ih
    cases ih with
    | enter lineage =>
      exact .of_move (Invariant.enter law ⟨trivial, fun _ _ ↦ trivial⟩ _ trivial)
        (.enterNode s _ _ _) lineage
    | leave lineage yields answers =>
      cases lineage with
      | root => exact .leave .root yields answers
      | child outer awaits =>
        exact .of_move (Invariant.leave law ⟨fun _ ↦ trivial, fun _ _ ↦ trivial⟩ awaits trivial
          yields) (.leaveTo s awaits yields answers) outer

/-- **An arm that minds is entered only if the future is not completed.** -/
theorem pends_of_reaches {root m arm : Node} {seek : Option SymbolId} {K : List Task} {τ : Frame}
    (reach : (system s).Reaches (start root seek σ) ⟨.enter arm none, ⟨m, .arm⟩ :: K, τ⟩)
    (minds : m.Minds v arm) : τ.Pends v := by
  cases answered_of_reaches reach with
  | enter _ pends => exact pends rfl rfl minds

end Steps

end Suspension
