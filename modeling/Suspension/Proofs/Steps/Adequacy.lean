import Suspension.Proofs.Steps.Moments

/-!
# The machine evaluates

The machine comes to what `eval` comes to. The induction is on the fuel and carries both directions
at once (`Follows`): either the machine reaches the outcome of the recursion, with the stack it
started from, or the recursion ran out of fuel and the machine takes more steps than there was fuel,
the first of which the recursion has recorded too. So an outcome of `eval` is one of the machine
(`Steps.ends_of_eval`), and an outcome of the machine is one of `eval` for all sufficient fuel
(`Steps.eval_of_ends`). What the machine comes by on the way is recorded by `eval` with sufficient
fuel, whether there is an outcome or not (`Steps.recorded_of_reaches`).
-/

namespace Suspension

namespace Steps

variable {s : Setting}

/-- A computation ran out of fuel: the machine is not over for as many steps as there was fuel, and
what it does in these was recorded. All that was recorded is what the machine does by some time. -/
structure Exhausts (s : Setting) (f : Nat) (result : Outcome × Frame)
    (c : Configuration) : Prop where
  out : result.1 = .error (.stop .outOfFuel)
  live : (system s).Live f c
  moments : ((system s).run f c).frame.moments <:+ result.2.moments
  stopped : ∃ d, (system s).Reaches c d ∧ d.frame.moments = result.2.moments

/-- A fuelled computation and the machine agree: the machine reaches its outcome above a stack, or
it ran out of fuel. -/
def Follows (s : Setting) (f : Nat) (K : List Task) (x : Eval Value) (c : Frame → Configuration) :
    Prop :=
  ∀ σ, (system s).Reaches (c σ) ⟨.leave (x σ).1, K, (x σ).2⟩ ∨ Exhausts s f (x σ) (c σ)

/-- Less fuel would have been too little as well. -/
theorem Exhausts.le {f g : Nat} {result : Outcome × Frame} {c : Configuration}
    (h : Exhausts s f result c) (le : g ≤ f) : Exhausts s g result c :=
  ⟨h.out, h.live.le le, (moments_run s le c).trans h.moments, h.stopped⟩

/-- Running out of fuel later. -/
theorem Exhausts.of_reaches {f : Nat} {result : Outcome × Frame} {c d : Configuration}
    (h : Exhausts s f result d) (reach : (system s).Reaches c d) : Exhausts s f result c := by
  obtain ⟨e, onward, recorded⟩ := h.stopped
  refine ⟨h.out, h.live.of_reaches reach, ?_, e, reach.trans onward, recorded⟩
  obtain ⟨k, rfl⟩ := reach
  refine .trans ?_ h.moments
  rw [← TransitionSystem.run_add]
  exact moments_run s (Nat.le_add_left f k) c

theorem Exhausts.of_next {f : Nat} {result : Outcome × Frame} {c : Configuration}
    (h : Exhausts s f result ((system s).next c)) : Exhausts s (f + 1) result c := by
  obtain ⟨e, onward, recorded⟩ := h.stopped
  refine ⟨h.out, h.live.of_next, ?_, e, onward.head, recorded⟩
  rw [Nat.add_comm, TransitionSystem.run_add]
  exact h.moments

/-- Goes on from the outcome of a computation, whichever it is. -/
def thenWith (x : Eval Value) (k : Outcome → Eval Value) : Eval Value :=
  fun σ ↦ k (x σ).1 (x σ).2

theorem bind_eq_thenWith (x : Eval Value) (k : Value → Eval Value) :
    x >>= k = thenWith x fun r ↦ match r with
      | .ok v => k v
      | .error e => throw e := by
  funext σ
  rw [Eval.bind_apply, thenWith]
  rcases x σ with ⟨e | v, σ'⟩ <;> rfl

theorem discard_bind (x y : Eval Value) : (do discard x; y) = x >>= fun _ ↦ y := by
  funext σ
  rw [Eval.bind_apply, Eval.bind_apply, Eval.discard_apply]
  rcases x σ with ⟨e | v, σ'⟩ <;> rfl

/-- Concluding with a result that is known changes nothing. -/
@[simp] theorem thenWith_conclude (x : Eval Value) : thenWith x Eval.conclude = x := by
  funext σ
  rw [thenWith]
  rcases x σ with ⟨e | v, σ'⟩ <;> rfl

namespace Follows

variable {f g : Nat} {K : List Task} {x y : Eval Value} {c d : Frame → Configuration}

theorem le (h : Follows s f K x c) (le : g ≤ f) : Follows s g K x c := fun σ ↦
  (h σ).imp_right fun h ↦ h.le le

/-- What has no children is one move. -/
theorem perform (x : Eval Value) : Follows s f K x fun σ ↦ (perform x σ).on K :=
  fun _ ↦ .inl (.refl _)

theorem give (r : Outcome) :
    Follows s f K (Eval.conclude r) fun σ ↦ (Steps.give r σ).on K := by
  cases r with
  | ok => exact fun _ ↦ .inl (.refl _)
  | error => exact fun _ ↦ .inl (.refl _)

/-- A child, and what its parent does with the outcome. -/
theorem child {n : Node} {stage : Stage} {e : Node} {seek : Option SymbolId}
    {k : Outcome → Eval Value} (le : f ≤ g + 1)
    (child : ∀ K, Follows s f K x fun σ ↦ ⟨.enter e seek, K, σ⟩)
    (rest : ∀ r, Follows s g K (k r) fun σ ↦ (leaveTo s ⟨n, stage⟩ r σ).on K)
    (exhausted : ∀ σ, (k (.error (.stop .outOfFuel)) σ).1 = .error (.stop .outOfFuel) ∧
      (k (.error (.stop .outOfFuel)) σ).2.moments = σ.moments) :
    Follows s f K (thenWith x k) fun σ ↦ (descend n stage e seek σ).on K := by
  intro σ
  rcases child (⟨n, stage⟩ :: K) σ with reach | ⟨out, live, moments, e, onward, recorded⟩
  · rcases rest (x σ).1 (x σ).2 with reach' | late
    · exact .inl (reach.trans (TransitionSystem.Reaches.head reach'))
    · have late : Exhausts s g (k (x σ).1 (x σ).2)
        ((system s).next ⟨.leave (x σ).1, ⟨n, stage⟩ :: K, (x σ).2⟩) := late
      exact .inr ((late.of_next.of_reaches reach).le le)
  · obtain ⟨out', same⟩ := exhausted (x σ).2
    refine .inr ⟨?_, live, ?_, e, onward, ?_⟩
    · rw [thenWith, out, out']
    · rw [thenWith, out, same]
      exact moments
    · rw [thenWith, out, same]
      exact recorded

/-- A child whose parent has nothing to do with outcomes other than values. -/
theorem childBind {n : Node} {stage : Stage} {e : Node} {seek : Option SymbolId}
    {k : Value → Eval Value}
    (child : ∀ K, Follows s f K x fun σ ↦ ⟨.enter e seek, K, σ⟩)
    (value : ∀ v, Follows s f K (k v) fun σ ↦ (leaveTo s ⟨n, stage⟩ (.ok v) σ).on K)
    (other : ∀ e σ, leaveTo s ⟨n, stage⟩ (.error e) σ = Steps.give (.error e) σ) :
    Follows s f K (x >>= k) fun σ ↦ (descend n stage e seek σ).on K := by
  rw [bind_eq_thenWith]
  refine Follows.child (Nat.le_succ f) child (fun r ↦ ?_) fun _ ↦ ⟨rfl, rfl⟩
  cases r with
  | ok v => exact value v
  | error e =>
    simp only [other]
    exact give _

end Follows

/-! ### The forms, one by one -/

/-- A statement and those after it, from the outcome of the first. -/
theorem statements_cons (eval : Evaluator) (all : List Node) (g : Nat) (c : Node)
    (rest : List Node) (seek : Option SymbolId) (last : Value) :
    Evaluator.statements s eval all (g + 1) (c :: rest) seek last =
      thenWith (eval c seek) fun r ↦ match r with
        | .ok value => Evaluator.statements s eval all g rest none value
        | .error (.jump label) => match Evaluator.fromLabel s label all with
          | [] => Eval.conclude (.error (.jump label))
          | c :: rest => Evaluator.statements s eval all g (c :: rest) (some label) .unit
        | .error e => Eval.conclude (.error e) := by
  funext σ
  simp only [Evaluator.statements, thenWith]
  rcases eval c seek σ with ⟨(label | v | v | reason) | v, σ'⟩
  · simp only
    cases Evaluator.fromLabel s label all <;> rfl
  all_goals rfl

/-- A round of a loop and those after it, from the outcome of the first. -/
theorem rounds_succ (eval : Evaluator) (body : Node) (breakLabel continueLabel : Option Label)
    (g : Nat) (seek : Option SymbolId) :
    Evaluator.rounds s eval body breakLabel continueLabel (g + 1) seek =
      thenWith (eval body seek) fun r ↦ match r with
        | .ok _ => Evaluator.rounds s eval body breakLabel continueLabel g none
        | .error (.jump label) =>
          if breakLabel.any (·.id == label) then Eval.conclude (.ok .unit)
          else if continueLabel.any (·.id == label) then
            Evaluator.rounds s eval body breakLabel continueLabel g none
          else if s.labels body label then
            Evaluator.rounds s eval body breakLabel continueLabel g (some label)
          else Eval.conclude (.error (.jump label))
        | .error e => Eval.conclude (.error e) := by
  funext σ
  simp only [Evaluator.rounds, thenWith]
  rcases eval body seek σ with ⟨(label | v | v | reason) | v, σ'⟩
  · simp only
    split
    · rfl
    · split
      · rfl
      · split <;> rfl
  all_goals rfl

theorem windUp_stop (eval : Evaluator) (cleanup fault : Option Node) (reason : Stop) :
    Evaluator.windUp eval cleanup fault (.error (.stop reason)) = throw (.stop reason) := by
  cases cleanup <;> cases fault <;> rfl

/-- The body of a clause that applies, and the parts of its region. -/
def handlerThen (eval : Evaluator) (cleanup fault : Option Node) (ex : Value) (c : Clause Node) :
    Eval Value := do
  modify fun σ ↦ { σ with handling := ex :: σ.handling }
  let r ← Eval.attempt (eval c.body none)
  modify fun σ ↦ { σ with handling := σ.handling.tail }
  Evaluator.windUp eval cleanup fault r

/-- The clauses of a region for an exception, and its parts. -/
def clausesThen (s : Setting) (eval : Evaluator) (cleanup fault : Option Node) (ex : Value)
    (cs : List (Clause Node)) : Eval Value := do
  Evaluator.windUp eval cleanup fault (← Evaluator.handle s eval ex cs)

/-- A clause is tried with its variable bound. -/
theorem clausesThen_cons (eval : Evaluator) (cleanup fault : Option Node) (ex : Value)
    (c : Clause Node) (cs : List (Clause Node)) (σ : Frame) :
    clausesThen s eval cleanup fault ex (c :: cs) σ =
      (do
        if ← Evaluator.applies eval c.filter then handlerThen eval cleanup fault ex c
        else clausesThen s eval cleanup fault ex cs) (bindClause s c ex σ) := by
  have tried (x : Eval Bool) (σ : Frame) :
      ((do
        if ← x then
          modify fun σ ↦ { σ with handling := ex :: σ.handling }
          let r ← Eval.attempt (eval c.body none)
          modify fun σ ↦ { σ with handling := σ.handling.tail }
          return r
        else Evaluator.handle s eval ex cs : Eval Outcome) >>=
        Evaluator.windUp eval cleanup fault) σ =
      (do if ← x then handlerThen eval cleanup fault ex c
          else clausesThen s eval cleanup fault ex cs) σ := by
    simp only [Eval.bind_apply]
    rcases x σ with ⟨e | (_ | _), σ'⟩
    · rfl
    · simp only [Bool.false_eq_true, if_false, clausesThen, Eval.bind_apply]
    · rfl
  rw [clausesThen, Evaluator.handle, bindClause]
  cases c.binder with
  | none => exact tried _ σ
  | some v =>
    rw [← tried]
    simp only [Eval.bind_apply, Eval.bind_clause_apply]

/-- A filter, and what comes after it, from its outcome. -/
theorem applies_eq_thenWith (eval : Evaluator) (filter : Node) (yes no : Eval Value) :
    (do if ← Evaluator.applies eval (some filter) then yes else no) =
      thenWith (eval filter none) fun r ↦ match r with
        | .ok value => if value.asBool? == some true then yes else no
        | .error (.thrown _) => no
        | .error e => Eval.conclude (.error e) := by
  funext σ
  rw [Eval.bind_apply, Evaluator.applies, Eval.bind_apply, Eval.attempt_apply, thenWith]
  rcases eval filter none σ with ⟨(label | v | v | reason) | v, σ'⟩ <;> rfl

/-- A region, from the outcome of its body. -/
theorem region_eq_thenWith (eval : Evaluator) (body : Node) (clauses : List (Clause Node))
    (cleanup fault : Option Node) :
    Evaluator.region s eval body clauses cleanup fault =
      thenWith (eval body none) fun r ↦ match r with
        | .error (.thrown ex) => clausesThen s eval cleanup fault ex clauses
        | r => Evaluator.windUp eval cleanup fault r := by
  funext σ
  rw [Evaluator.region, Eval.bind_apply, Eval.attempt_apply, thenWith]
  rcases eval body none σ with ⟨(label | v | v | reason) | v, σ'⟩ <;> rfl

section Forms

variable {f : Nat} {eval : Evaluator} {K : List Task} (n : Node)
variable (child : ∀ n seek K, Follows s f K (eval n seek) fun σ ↦ ⟨.enter n seek, K, σ⟩)

include child

/-- The machine follows the statements of a block. -/
theorem follows_statements {all : List Node} (block : statementsOf n = all) {g : Nat} (le : g ≤ f)
    (rest : List Node) (seek : Option SymbolId) (last : Value) :
    Follows s g K (Evaluator.statements s eval all g rest seek last)
      fun σ ↦ (nextStatement n rest seek last σ).on K := by
  induction g generalizing rest seek last with
  | zero =>
    cases rest with
    | nil => exact .give (.ok last)
    | cons c rest => exact fun σ ↦ .inr ⟨rfl, rfl, List.suffix_refl _, _, .refl _, rfl⟩
  | succ g ih =>
    cases rest with
    | nil => exact .give (.ok last)
    | cons c rest =>
      rw [statements_cons]
      refine Follows.child (Nat.le_refl _) (fun K ↦ (child c seek K).le le) (fun r ↦ ?_)
        fun _ ↦ ⟨rfl, rfl⟩
      have ih := ih (by omega)
      match r with
      | .ok v => exact ih rest none v
      | .error (.jump label) =>
        simp only [leaveTo, jumpInBlock, block]
        cases Evaluator.fromLabel s label all with
        | nil => exact .give _
        | cons c rest => exact ih (c :: rest) (some label) .unit
      | .error (.ret v) => exact .give _
      | .error (.thrown ex) => exact .give _
      | .error (.stop reason) => exact .give _

/-- The machine follows the rounds of a loop. -/
theorem follows_rounds {body : Node} {breakLabel continueLabel : Option Label}
    (loop : n.shape = .loop body breakLabel continueLabel) {g : Nat} (le : g ≤ f)
    (seek : Option SymbolId) :
    Follows s g K (Evaluator.rounds s eval body breakLabel continueLabel g seek)
      fun σ ↦ (descend n .round body seek σ).on K := by
  induction g generalizing seek with
  | zero => exact fun σ ↦ .inr ⟨rfl, rfl, List.suffix_refl _, _, .refl _, rfl⟩
  | succ g ih =>
    rw [rounds_succ]
    refine Follows.child (Nat.le_refl _) (fun K ↦ (child body seek K).le le) (fun r ↦ ?_)
      fun _ ↦ ⟨rfl, rfl⟩
    have ih := ih (by omega)
    match r with
    | .ok v =>
      simp only [leaveTo, nextRound, loop]
      exact ih none
    | .error (.jump label) =>
      simp only [leaveTo, jumpInLoop, loop]
      split
      · exact .give _
      · split
        · exact ih none
        · split
          · exact ih (some label)
          · exact .give _
    | .error (.ret v) => exact .give _
    | .error (.thrown ex) => exact .give _
    | .error (.stop reason) => exact .give _

/-- The machine follows the evaluation of operands. -/
theorem follows_operands (rest : List (Node × Option SymbolId)) (done : List Value) :
    Follows s f K (do combine s n (done ++ (← rest.mapM fun (o, seek) ↦ eval o seek)))
      fun σ ↦ (nextOperand s n done rest σ).on K := by
  induction rest generalizing done with
  | nil =>
    simp only [List.mapM_nil, pure_bind, List.append_nil]
    exact .perform _
  | cons o rest ih =>
    simp only [List.mapM_cons, bind_assoc, pure_bind]
    refine Follows.childBind (child o.1 o.2) (fun v ↦ ?_) fun _ _ ↦ rfl
    have ih := ih (done ++ [v])
    simp only [List.append_assoc, List.singleton_append] at ih
    exact ih

theorem follows_selected (x : Except FaultCause (Option Node)) :
    Follows s f K (do Evaluator.selected eval (← Eval.orFault x n))
      fun σ ↦ (enterArm n x σ).on K := by
  match x with
  | .error cause => exact .perform _
  | .ok none => exact .give (.ok .unit)
  | .ok (some arm) =>
    have passes : Follows s f K (thenWith (eval arm none) Eval.conclude)
        fun σ ↦ (descend n .arm arm none σ).on K :=
      Follows.child (Nat.le_succ f) (child arm none) (fun r ↦ .give r) fun _ ↦ ⟨rfl, rfl⟩
    rw [thenWith_conclude] at passes
    exact passes

/-- The machine follows a finally body. -/
theorem follows_cleanup {cleanup fault : Option Node} (parts : partsOf n = (cleanup, fault))
    (r : Outcome) :
    Follows s f K
      (do
        match cleanup, r with
        | some _, .error (.stop _) => pure ()
        | some part, _ => discard (eval part none)
        | none, _ => pure ()
        Eval.conclude r)
      fun σ ↦ (runCleanup n r σ).on K := by
  have runs (part : Node) (clean : cleanup = some part) :
      Follows s f K (do discard (eval part none); Eval.conclude r)
        fun σ ↦ (descend n (.cleanup r) part none σ).on K := by
    rw [discard_bind]
    exact Follows.childBind (child part none) (fun v ↦ .give r) fun _ _ ↦ rfl
  simp only [runCleanup, parts]
  cases cleanup with
  | none => exact .give r
  | some part =>
    rcases r with (label | v | ex | reason) | v
    · exact runs part rfl
    · exact runs part rfl
    · exact runs part rfl
    · exact .give _
    · exact runs part rfl

/-- The machine follows the parts behind a protected body. -/
theorem follows_windUp {cleanup fault : Option Node} (parts : partsOf n = (cleanup, fault))
    (r : Outcome) :
    Follows s f K (Evaluator.windUp eval cleanup fault r) fun σ ↦ (runParts n r σ).on K := by
  have clean := follows_cleanup (K := K) n child parts
  simp only [runParts, parts, Evaluator.windUp]
  match fault, r with
  | some part, .error (.thrown ex) =>
    dsimp only
    rw [discard_bind]
    exact Follows.childBind (child part none) (fun v ↦ clean _) fun _ _ ↦ rfl
  | none, r => exact clean r
  | some part, .ok v => exact clean (.ok v)
  | some part, .error (.jump label) => exact clean _
  | some part, .error (.ret v) => exact clean _
  | some part, .error (.stop reason) => exact clean _

/-- The machine follows the body of a clause. -/
theorem follows_handler {cleanup fault : Option Node} (parts : partsOf n = (cleanup, fault))
    (ex : Value) (c : Clause Node) :
    Follows s f K (handlerThen eval cleanup fault ex c) fun σ ↦ (enterHandler n ex c σ).on K := by
  have handled : Follows s f K
      (thenWith (eval c.body none) fun r σ ↦
        Evaluator.windUp eval cleanup fault r { σ with handling := σ.handling.tail })
      fun σ ↦ (descend n (.handler c) c.body none σ).on K := by
    refine Follows.child (Nat.le_succ f) (child c.body none)
      (fun r σ ↦ follows_windUp n child parts r _) fun σ ↦ ?_
    rw [windUp_stop]
    exact ⟨rfl, rfl⟩
  exact fun σ ↦ handled _

/-- What a region does with an exception that leaves its body. -/
theorem follows_clauses {cleanup fault : Option Node} (parts : partsOf n = (cleanup, fault))
    (ex : Value) (cs : List (Clause Node)) :
    Follows s f K (clausesThen s eval cleanup fault ex cs)
      fun σ ↦ (tryClauses s n ex cs σ).on K := by
  induction cs with
  | nil => exact follows_windUp n child parts _
  | cons c cs ih =>
    have handler := follows_handler (K := K) n child parts ex c
    intro σ
    rw [clausesThen_cons]
    simp only [tryClauses]
    cases filter : c.filter with
    | none => exact handler (bindClause s c ex σ)
    | some test =>
      rw [applies_eq_thenWith]
      refine Follows.child (Nat.le_succ f) (child test none) (fun r ↦ ?_) (fun _ ↦ ⟨rfl, rfl⟩) _
      rcases r with (label | v | ex' | reason) | v
      · exact .give _
      · exact .give _
      · exact ih
      · exact .give _
      · simp only [leaveTo]
        split
        · exact handler
        · exact ih

/-- A region, entered from its start. -/
theorem follows_region {body : Node} {clauses : List (Clause Node)} {cleanup fault : Option Node}
    (region : n.shape = .region body clauses cleanup fault) :
    Follows s f K (Evaluator.region s eval body clauses cleanup fault)
      fun σ ↦ (descend n .body body none σ).on K := by
  have parts : partsOf n = (cleanup, fault) := by rw [partsOf, region]
  have clausesEq : clausesOf n = clauses := by rw [clausesOf, region]
  rw [region_eq_thenWith]
  refine Follows.child (Nat.le_succ f) (child body none) (fun r ↦ ?_) fun σ ↦ ?_
  · rcases r with (label | v | ex | reason) | v
    · exact follows_windUp n child parts _
    · exact follows_windUp n child parts _
    · simp only [leaveTo, clausesEq]
      exact follows_clauses n child parts ex clauses
    · exact follows_windUp n child parts _
    · exact follows_windUp n child parts _
  · simp only [windUp_stop]
    exact ⟨rfl, rfl⟩

/-- The arm of a switch or a branch that holds what is sought, or the test and the arm it
selects. -/
theorem follows_testOrArm (test : Node) (arms : List Node) (seek : Option SymbolId)
    (select : Value → Except FaultCause (Option Node)) (armEq : armFor n = select) :
    Follows s f K
      (match Evaluator.soughtArm? s test arms seek with
      | some arm => eval arm seek
      | none => do
        let v ← eval test seek
        Evaluator.selected eval (← Eval.orFault (select v) n))
      fun σ ↦ (testOrArm s n test arms seek σ).on K := by
  simp only [testOrArm]
  cases Evaluator.soughtArm? s test arms seek with
  | some arm =>
    have passes : Follows s f K (thenWith (eval arm seek) Eval.conclude)
        fun σ ↦ (descend n .arm arm seek σ).on K :=
      Follows.child (Nat.le_succ f) (child arm seek) (fun r ↦ .give r) fun _ ↦ ⟨rfl, rfl⟩
    rw [thenWith_conclude] at passes
    exact passes
  | none =>
    refine Follows.childBind (child test seek) (fun v ↦ ?_) fun _ _ ↦ rfl
    simp only [leaveTo, armEq]
    exact follows_selected n child (select v)

/-- The machine follows the operands of a call. -/
theorem follows_calls (operands : List Node) (seek : Option SymbolId) :
    Follows s f K
      (do
        let entered ← Eval.orFault (Evaluator.soughtOperand? s operands seek) n
        combine s n (← (sought operands entered seek).mapM fun (o, seek) ↦ eval o seek))
      fun σ ↦ (firstOperand s n operands seek σ).on K := by
  simp only [firstOperand]
  cases Evaluator.soughtOperand? s operands seek with
  | error cause => exact .perform _
  | ok entered => exact follows_operands n child (sought operands entered seek) []

/-- A node, once its visit is noted. -/
theorem follows_step (seek : Option SymbolId) :
    Follows s f K (Evaluator.step s eval f n seek) fun σ ↦ (startNode s n seek σ).on K := by
  -- Layers with one operand are evaluated alike: the operand, then what the layer does.
  have operand (o : Node) (finishes : Value → Eval Value) (finishEq : finish s n = finishes) :
      Follows s f K (eval o seek >>= finishes) fun σ ↦ (descend n .operand o seek σ).on K := by
    refine Follows.childBind (child o seek) (fun v ↦ ?_) fun _ _ ↦ rfl
    simp only [leaveTo, finishEq]
    exact .perform _
  obtain ⟨id, shape⟩ := n
  cases shape with
  | block declared body =>
    intro σ
    have block : statementsOf ⟨id, .block declared body⟩ = body := rfl
    exact follows_statements _ child block (Nat.le_refl f) _ seek .unit _
  | await o acquire result =>
    simp only [Evaluator.step, startNode, Node.shape]
    split
    · exact operand o _ rfl
    · exact .perform _
  | awaiter question o => exact operand o _ rfl
  | region body clauses cleanup fault =>
    simp only [Evaluator.step, startNode, Node.shape]
    split
    · exact .perform _
    · exact follows_region _ child rfl
  | loop body breakLabel continueLabel =>
    have rounds := follows_rounds (K := K) ⟨id, .loop body breakLabel continueLabel⟩ child rfl
      (Nat.le_refl f)
    simp only [Evaluator.step, startNode, Node.shape, Evaluator.loop]
    cases seek with
    | none => exact rounds none
    | some label =>
      dsimp only
      split
      · exact .give (.ok .unit)
      · split
        · exact rounds none
        · exact rounds (some label)
  | label target => exact .perform _
  | goto target => exact .perform _
  | switch value cases otherwise => exact follows_testOrArm _ child _ _ _ _ rfl
  | branch test yes no => exact follows_testOrArm _ child _ _ _ _ rfl
  | lock guard body =>
    simp only [Evaluator.step, startNode, Node.shape]
    split
    · exact .perform _
    · rw [discard_bind]
      refine Follows.childBind (child guard none) (fun v ↦ ?_) fun _ _ ↦ rfl
      have passes : Follows s f K (thenWith (eval body none) Eval.conclude)
          fun σ ↦ (descend ⟨id, .lock guard body⟩ .arm body none σ).on K :=
        Follows.child (Nat.le_succ f) (child body none) (fun r ↦ .give r) fun _ ↦ ⟨rfl, rfl⟩
      rw [thenWith_conclude] at passes
      exact passes
  | ret value =>
    cases value with
    | none => exact .perform _
    | some value => exact operand value _ rfl
  | raise value =>
    cases value with
    | none => exact .perform _
    | some value => exact operand value _ rfl
  | assign target value => exact operand value _ rfl
  | binary op left right =>
    have calls := follows_calls (K := K) ⟨id, .binary op left right⟩ child [left, right] seek
    simp only [sought, List.zipIdx_cons, List.zipIdx_nil, List.map_cons, List.map_nil,
      List.mapM_cons, List.mapM_nil, bind_assoc, pure_bind] at calls
    exact calls
  | unary op o => exact operand o _ rfl
  | call callee args =>
    have calls := follows_calls (K := K) ⟨id, .call callee args⟩ child args seek
    simp only [sought, List.mapM_map] at calls
    exact calls
  | var source => exact .perform _
  | const value => exact .perform _
  | defaultOf ty => exact .perform _

end Forms

/-! ### Both directions -/

/-- **The machine follows the evaluation of every tree.** -/
theorem follows_eval (f : Nat) (n : Node) (seek : Option SymbolId) (K : List Task) :
    Follows s f K (eval s f n seek) fun σ ↦ ⟨.enter n seek, K, σ⟩ := by
  induction f generalizing n seek K with
  | zero => exact fun σ ↦ .inr ⟨rfl, rfl, List.suffix_refl _, _, .refl _, rfl⟩
  | succ f ih =>
    intro σ
    have visited : eval s (f + 1) n seek σ =
        Evaluator.step s (eval s f) f n seek (Eval.noted s (.visit n.id seek) σ) := by
      simp only [eval, Eval.bind_apply, Eval.note_apply]
    rw [visited]
    rcases follows_step (K := K) n ih seek (Eval.noted s (.visit n.id seek) σ) with reach | late
    · exact .inl (TransitionSystem.Reaches.head reach)
    · exact .inr (Exhausts.of_next late)

/-- An evaluation from the start of a node. -/
def start (n : Node) (seek : Option SymbolId) (σ : Frame) : Configuration :=
  ⟨.enter n seek, [], σ⟩

/-- What the recursion comes to with enough fuel, the machine comes to above any stack. -/
theorem reaches_of_eval {f : Nat} {n : Node} {seek : Option SymbolId} {K : List Task} {σ σ' : Frame}
    {r : Outcome} (h : eval s f n seek σ = (r, σ')) (enough : r ≠ .error (.stop .outOfFuel)) :
    (system s).Reaches ⟨.enter n seek, K, σ⟩ ⟨.leave r, K, σ'⟩ := by
  rcases follows_eval (s := s) f n seek K σ with reach | late
  · rw [h] at reach
    exact reach
  · have out := late.out
    rw [h] at out
    exact absurd out enough

/-- What the recursion comes to with enough fuel, the machine comes to. -/
theorem ends_of_eval {f : Nat} {n : Node} {seek : Option SymbolId} {σ σ' : Frame} {r : Outcome}
    (h : eval s f n seek σ = (r, σ')) (enough : r ≠ .error (.stop .outOfFuel)) :
    (system s).Ends (start n seek σ) (r, σ') :=
  ⟨_, reaches_of_eval h enough, rfl⟩

/-- What the machine comes to, the recursion comes to with all sufficient fuel. -/
theorem eval_of_ends {n : Node} {seek : Option SymbolId} {σ σ' : Frame} {r : Outcome}
    (h : (system s).Ends (start n seek σ) (r, σ')) :
    ∃ N, ∀ f ≥ N, eval s f n seek σ = (r, σ') := by
  obtain ⟨N, ended⟩ := h.not_live
  refine ⟨N, fun f le ↦ ?_⟩
  rcases follows_eval (s := s) f n seek [] σ with reach | late
  · have same := h.unique ⟨_, reach, rfl⟩
    exact same.symm
  · exact absurd (late.live.le le) ended

/-- What the recursion has recorded when it stops, with whatever fuel, the machine comes by. -/
theorem reaches_of_recorded (f : Nat) (n : Node) (seek : Option SymbolId) (σ : Frame) :
    ∃ c, (system s).Reaches (start n seek σ) c ∧
      c.frame.moments = (eval s f n seek σ).2.moments := by
  rcases follows_eval (s := s) f n seek [] σ with reach | late
  · exact ⟨_, reach, rfl⟩
  · exact late.stopped

/-- What the machine comes by is recorded by the recursion with all sufficient fuel. -/
theorem recorded_of_reaches {n : Node} {seek : Option SymbolId} {σ : Frame} {c : Configuration}
    (h : (system s).Reaches (start n seek σ) c) :
    ∃ N, ∀ f ≥ N, c.frame.moments <:+ (eval s f n seek σ).2.moments := by
  obtain ⟨N, rfl⟩ := h
  refine ⟨N, fun f le ↦ (moments_run s le _).trans ?_⟩
  rcases follows_eval (s := s) f n seek [] σ with ⟨k, reach⟩ | late
  · have ended : (system s).result? ((system s).run k (start n seek σ)) =
      some (eval s f n seek σ) :=
      congrArg (system s).result? reach
    refine (moments_run s (Nat.le_add_left f k) _).trans ?_
    rw [TransitionSystem.run_add, TransitionSystem.run_of_result ended]
    exact (congrArg (fun c ↦ c.frame.moments) reach) ▸ List.suffix_refl _
  · exact late.moments

end Steps

end Suspension
