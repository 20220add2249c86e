import Suspension.Proofs.Steps.Finding

/-!
# Lockstep

Two evaluations go hand in hand as long as they are at nodes of one form. `Lockstep` collects what a
comparison of trees has to provide: a relation between nodes, one between frames, which labels may
be jumped to, which exits may stand for each other, and that every primitive evaluation keeps the
frames related. In return, entering related nodes (`Lockstep.enter`) and leaving to related tasks
(`Lockstep.leave`) are moves of one form (`Moves`).
-/

namespace Suspension

namespace Steps

open Eval

/-- A node without children gave what it always gives, or a variable what was assigned to it. -/
def Yields (n : Node) (r : Outcome) (σ : Frame) : Prop :=
  ∀ v, r = .ok v → match n.shape with
    | .var w => lookup σ w.id = some v
    | .assign w _ => lookup σ w.id = some v
    | .const value => v = value.value
    | .defaultOf ty => v = ty.defaultValue
    | _ => True

/-- What a comparison of two evaluations consists of. -/
structure Lockstep where
  s : Setting
  s' : Setting
  /-- The nodes that correspond. -/
  Nodes : Scope → Node → Node → Prop
  /-- The frames that correspond. -/
  Frames : Scope → Frame → Frame → Prop
  /-- The labels that are jumped to. -/
  Jumps : SymbolId → Prop
  /-- Exits that stand for each other without being the same. -/
  Escapes : Exit → Exit → Prop
  /-- The nodes whose evaluation is compared. -/
  Admits : Scope → Node → Node → Prop

namespace Lockstep

variable (L : Lockstep)

/-- Results of evaluations that correspond. -/
def Results (A : Scope) (x x' : Outcome × Frame) : Prop :=
  Outcomes L.Jumps L.Escapes x.1 x'.1 ∧ L.Frames A x.2 x'.2

/-- Neither of two exits is an exception or the end of the run. -/
def Passing (e : Exit) : Prop :=
  (∀ v, e ≠ .thrown v) ∧ ∀ reason, e ≠ .stop reason

/-- Neither of the labels of a loop is a given one. -/
def Elsewhere (label : SymbolId) (breakLabel continueLabel : Option Label) : Prop :=
  breakLabel.any (·.id == label) = false ∧ continueLabel.any (·.id == label) = false

/-- What makes a comparison go through. -/
structure Lawful : Prop where
  waits : ∀ {A n n' o acquire ty}, L.Admits A n n' → n.shape = .await o acquire ty →
    L.s.waits = L.s'.waits
  labels : ∀ {A n n' label}, L.Nodes A n n' → L.Jumps label →
    L.s.labels n label = L.s'.labels n' label
  stable : ∀ {A B n n' os os' o o'}, SameOperands n.shape n'.shape os os' → L.Admits A n n' →
    L.Nodes B o o' → o.isStable = o'.isStable
  -- Exits that stand for each other pass through everything.
  passing : ∀ {e e'}, L.Escapes e e' → Passing e ∧ Passing e'
  escapes : ∀ {A n n' label e'}, L.Escapes (.jump label) e' → L.Nodes A n n' →
    L.s.labels n label = false
  escapes' : ∀ {A n n' label e}, L.Escapes e (.jump label) → L.Nodes A n n' →
    L.s'.labels n' label = false
  elsewhere : ∀ {A n n' body breakLabel continueLabel label e'}, L.Escapes (.jump label) e' →
    L.Admits A n n' → n.shape = .loop body breakLabel continueLabel →
    Elsewhere label breakLabel continueLabel
  elsewhere' : ∀ {A n n' body breakLabel continueLabel label e}, L.Escapes e (.jump label) →
    L.Admits A n n' → n'.shape = .loop body breakLabel continueLabel →
    Elsewhere label breakLabel continueLabel
  -- The frames stay related.
  within : ∀ {A B σ σ'}, A.Within B → L.Frames B σ σ' → L.Frames A σ σ'
  handling : ∀ {A σ σ'}, L.Frames A σ σ' → σ.handling = σ'.handling
  handle : ∀ {A σ σ'} (exs : List Value), L.Frames A σ σ' →
    L.Frames A { σ with handling := exs } { σ' with handling := exs }
  visit : ∀ {A} {n n' : Node} {seek σ σ'}, L.Admits A n n' → L.Frames A σ σ' →
    L.Frames A (noted L.s (.visit n.id seek) σ) (noted L.s' (.visit n'.id seek) σ')
  declare : ∀ {A n n' declared ns σ σ'}, L.Admits A n n' → n.shape = .block declared ns →
    L.Frames A σ σ' → L.Frames (A.declare declared) { σ with locals := σ.locals.declare declared }
      { σ' with locals := σ'.locals.declare declared }
  bind : ∀ {A n n' body cs cleanup fault clause v ex σ σ'}, L.Admits A n n' →
    n.shape = .region body cs cleanup fault → clause ∈ cs → clause.binder = some v →
    L.Frames A σ σ' → L.Frames (A.bind (some v)) (bound L.s v ex σ) (bound L.s' v ex σ')
  hold : ∀ {A : Scope} {before done o left v σ σ'}, L.Frames (A.hold before done (o :: left)) σ σ' →
    Yields o (.ok v) σ → done.length = before.length →
    L.Frames (A.hold (before ++ [o]) (done ++ [v]) left) σ σ'
  -- Evaluations without children have related results.
  leaf : ∀ {A n n' σ σ'}, IsLeaf n.shape → n.shape = n'.shape → L.Admits A n n' →
    L.Frames A σ σ' → L.Results A (leaf L.s n σ) (leaf L.s' n' σ')
  finish : ∀ {A n n' o o' v σ σ'}, SameUnary n.shape n'.shape o o' → L.Admits A n n' →
    Yields o (.ok v) σ → L.Frames A σ σ' → L.Results A (finish L.s n v σ) (finish L.s' n' v σ')
  combine : ∀ {A n n' os os' vs σ σ'}, SameOperands n.shape n'.shape os os' →
    L.Admits A n n' → L.Frames A σ σ' →
    L.Results A (combine L.s n vs σ) (combine L.s' n' vs σ')

/-- Moves that correspond: both leave, or both wait at the same stage for children that
correspond. -/
inductive Moves (A : Scope) (n n' : Node) : Move → Move → Prop
  | give {r r' : Outcome} {σ σ' : Frame} (outcomes : Outcomes L.Jumps L.Escapes r r')
    (frames : L.Frames A σ σ') (yields : Yields n r σ) :
    Moves A n n' (give r σ) (give r' σ')
  | descend {st st' : Stage} {B : Scope} {c c' : Node} {seek : Option SymbolId} {σ σ' : Frame}
    (stages : StageMatch L.Jumps L.Escapes A n n' st st' B c c') (nodes : L.Nodes B c c')
    (sought : ∀ label, seek = some label → L.Jumps label) (frames : L.Frames B σ σ') :
    Moves A n n' (descend n st c seek σ) (descend n' st' c' seek σ')

/-! ### Moves of one form -/

/-- Where no label is sought, none has to be admitted. -/
theorem none_sought {J : SymbolId → Prop} :
    ∀ label, (none : Option SymbolId) = some label → J label :=
  nofun

variable {L} {A B : Scope} {n n' : Node} {σ σ' : Frame}

/-- Nodes without children yield what they came to. -/
theorem yields_leaf (s : Setting) {n : Node} (h : IsLeaf n.shape) (σ : Frame) :
    Yields n (leaf s n σ).1 (leaf s n σ).2 := by
  obtain ⟨id, shape⟩ := n
  intro v eq
  cases shape with
  | assign => exact h.elim
  | var w =>
    simp only [leaf, Node.shape, load_apply] at eq ⊢
    cases found : lookup σ w.id with
    | none => rw [found] at eq; cases eq
    | some value =>
      rw [found] at eq
      cases eq
      exact found
  | const value => cases eq; rfl
  | defaultOf ty => cases eq; rfl
  | _ => trivial

/-- Most nodes with children yield whatever they make of it. -/
theorem yields_of_untold {n : Node} (h : Untold n.shape) (r : Outcome) (σ : Frame) :
    Yields n r σ := by
  obtain ⟨id, shape⟩ := n
  intro v _
  cases shape <;> trivial

/-- What an assignment leaves with is what its variable holds. -/
theorem yields_finish (s : Setting) {n n' o o' : Node} (same : SameUnary n.shape n'.shape o o')
    (v : Value) (σ : Frame) : Yields n (finish s n v σ).1 (finish s n v σ).2 := by
  obtain ⟨i, shape⟩ := n
  obtain ⟨i', shape'⟩ := n'
  dsimp only [Node.shape] at same
  cases same with
  | assign _ _ target =>
    intro w eq
    simp only [finish, Node.shape, bind_apply, store_apply] at eq ⊢
    cases found : assigned? s target v σ with
    | none => rw [found] at eq; cases eq
    | some σ' =>
      rw [found] at eq
      cases eq
      exact lookup_assigned s σ found
  | _ => exact yields_of_untold (by trivial) _ _

theorem yields_error (n : Node) (e : Exit) (σ : Frame) : Yields n (.error e) σ := by
  rintro v ⟨⟩

/-- A label is not to be found in the statements of a block, nor in or at a loop. -/
structure Nowhere (s : Setting) (n : Node) (label : SymbolId) : Prop where
  statements : ∀ c ∈ statementsOf n, s.labels c label = false
  loop : ∀ {body breakLabel continueLabel}, n.shape = .loop body breakLabel continueLabel →
    s.labels body label = false ∧ Elsewhere label breakLabel continueLabel

/-- Where there are neither statements nor rounds, no label is to be found. -/
theorem Nowhere.of_kind {s : Setting} {label : SymbolId} (block : n.kind ≠ .block)
    (loop : n.kind ≠ .loop) : Nowhere s n label := by
  obtain ⟨i, shape⟩ := n
  constructor
  · cases shape with
    | block declared ns => exact absurd rfl block
    | _ => exact fun c member ↦ nomatch member
  · rintro body breakLabel continueLabel rfl
    exact absurd rfl loop

/-- A jump that leads nowhere passes through a block. -/
theorem jumpInBlock_nowhere {s : Setting} {label : SymbolId} (h : Nowhere s n label) :
    jumpInBlock s n label σ = give (.error (.jump label)) σ := by
  rw [jumpInBlock, fromLabel_eq_nil h.statements]

/-- A jump that leads nowhere passes through a loop. -/
theorem jumpInLoop_nowhere {s : Setting} {label : SymbolId} (h : Nowhere s n label) :
    jumpInLoop s n label σ = give (.error (.jump label)) σ := by
  rw [jumpInLoop]
  cases shape : n.shape with
  | loop body breakLabel continueLabel =>
    obtain ⟨inside, elsewhere⟩ := h.loop shape
    simp only [inside, elsewhere.1, elsewhere.2, Bool.false_eq_true, if_false]
  | _ => rfl

/-- What passes goes by the fault body. -/
theorem runParts_passing {e : Exit} (h : Passing e) :
    runParts n (.error e) σ = runCleanup n (.error e) σ := by
  obtain ⟨notThrown, -⟩ := h
  unfold runParts
  cases e with
  | thrown v => exact absurd rfl (notThrown v)
  | _ => cases (partsOf n).2 <;> rfl

/-- What passes is kept while the finally body runs. -/
theorem runCleanup_passing {e : Exit} (h : Passing e) :
    runCleanup n (.error e) σ = match (partsOf n).1 with
      | some part => descend n (.cleanup (.error e)) part none σ
      | none => give (.error e) σ := by
  obtain ⟨-, notStop⟩ := h
  unfold runCleanup
  cases e with
  | stop reason => exact absurd rfl (notStop reason)
  | _ => cases (partsOf n).1 <;> rfl

/-- A statement that is left by a jump that leads nowhere leaves its block. -/
theorem leaveTo_statements_nowhere {s : Setting} {rest : List Node} {e : Exit}
    (nowhere : ∀ label, e = .jump label → Nowhere s n label) :
    leaveTo s ⟨n, .statements rest⟩ (.error e) σ = give (.error e) σ := by
  cases e with
  | jump label => exact jumpInBlock_nowhere (nowhere label rfl)
  | _ => rfl

/-- A round that is left by a jump that leads nowhere leaves its loop. -/
theorem leaveTo_round_nowhere {s : Setting} {e : Exit}
    (nowhere : ∀ label, e = .jump label → Nowhere s n label) :
    leaveTo s ⟨n, .round⟩ (.error e) σ = give (.error e) σ := by
  cases e with
  | jump label => exact jumpInLoop_nowhere (nowhere label rfl)
  | _ => rfl

/-- What is no exception passes the clauses of a region. -/
theorem leaveTo_body_passing {s : Setting} {e : Exit} (h : Passing e) :
    leaveTo s ⟨n, .body⟩ (.error e) σ = runParts n (.error e) σ := by
  cases e with
  | thrown v => exact absurd rfl (h.1 v)
  | _ => rfl

/-- What is no exception leaves the filter of a clause as it is. -/
theorem leaveTo_filter_passing {s : Setting} {ex : Value} {c : Clause Node}
    {cs : List (Clause Node)} {e : Exit} (h : Passing e) :
    leaveTo s ⟨n, .filter ex c cs⟩ (.error e) σ = give (.error e) σ := by
  cases e with
  | thrown v => exact absurd rfl (h.1 v)
  | _ => rfl

/-- The value of a node that always gives the same is known. -/
theorem known_of_yields {v : Value} (h : Yields n (.ok v) σ) : Known n v := by
  have h := h v rfl
  rw [Known]
  cases shape : n.shape with
  | const value => rw [shape] at h; exact h
  | defaultOf ty => rw [shape] at h; exact h
  | _ => trivial

theorem not_block_of_region {body : Node} {cs : List (Clause Node)} {cleanup fault : Option Node}
    (shape : n.shape = .region body cs cleanup fault) : n.kind ≠ .block := by
  rw [Node.kind, shape]
  rintro ⟨⟩

/-- What has clauses is a region. -/
theorem region_of_clauses {before cs : List (Clause Node)} {c : Clause Node}
    (h : clausesOf n = before ++ c :: cs) :
    ∃ body cleanup fault, n.shape = .region body (before ++ c :: cs) cleanup fault := by
  obtain ⟨i, shape⟩ := n
  cases shape with
  | region body clauses cleanup fault =>
    obtain rfl : clauses = before ++ c :: cs := h
    exact ⟨body, cleanup, fault, rfl⟩
  | _ => simp [clausesOf, Node.shape] at h

section Law

variable (law : L.Lawful)

include law

/-- Going on to the next statement of corresponding blocks. -/
theorem nextStatement_match (before before' : List Node) {declared : List Variable}
    {rest rest' : List Node}
    (shape : n.shape = .block declared (before ++ rest))
    (shape' : n'.shape = .block declared (before' ++ rest'))
    (length : before.length = before'.length)
    (statements : List.Forall₂ (L.Nodes (A.declare declared)) rest rest') (seek : Option SymbolId)
    (sought : ∀ label, seek = some label → L.Jumps label) (last : Value)
    (frames : L.Frames (A.declare declared) σ σ') :
    L.Moves A n n' (nextStatement n rest seek last σ) (nextStatement n' rest' seek last σ') := by
  cases statements with
  | nil =>
    refine .give (.value last) (law.within (A.within_declare declared) frames) ?_
    exact yields_of_untold (by rw [shape]; trivial) _ _
  | cons head tail => exact .descend (.statements shape shape' length) head sought frames

/-- The statements of corresponding blocks, from a label on. -/
theorem fromLabel_statements {declared : List Variable} {ns ns' : List Node} {label : SymbolId}
    (statements : List.Forall₂ (L.Nodes (A.declare declared)) ns ns') (admitted : L.Jumps label) :
    Evaluator.fromLabel L.s label ns = [] ∧ Evaluator.fromLabel L.s' label ns' = [] ∨
    ∃ before c rest before' c' rest', ns = before ++ c :: rest ∧ ns' = before' ++ c' :: rest' ∧
      before.length = before'.length ∧ L.Nodes (A.declare declared) c c' ∧
      Evaluator.fromLabel L.s label ns = c :: rest ∧
      Evaluator.fromLabel L.s' label ns' = c' :: rest' :=
  fromLabel_match (fun related ↦ law.labels related admitted) statements

/-- A jump out of a statement of corresponding blocks. -/
theorem jumpInBlock_match {declared : List Variable} {ns ns' : List Node} {label : SymbolId}
    (shape : n.shape = .block declared ns) (shape' : n'.shape = .block declared ns')
    (statements : List.Forall₂ (L.Nodes (A.declare declared)) ns ns') (admitted : L.Jumps label)
    (frames : L.Frames (A.declare declared) σ σ') :
    L.Moves A n n' (jumpInBlock L.s n label σ) (jumpInBlock L.s' n' label σ') := by
  have all : statementsOf n = ns := by rw [statementsOf, shape]
  have all' : statementsOf n' = ns' := by rw [statementsOf, shape']
  rw [jumpInBlock, jumpInBlock, all, all']
  rcases fromLabel_statements law statements admitted with
    ⟨none, none'⟩ | ⟨before, c, rest, before', c', rest', split, split', length, related, found,
      found'⟩
  · rw [none, none']
    refine .give (.jump admitted) (law.within (A.within_declare declared) frames) ?_
    exact yields_of_untold (by rw [shape]; trivial) _ _
  · rw [found, found']
    exact .descend (.statements (split ▸ shape) (split' ▸ shape') length) related
      (fun l eq ↦ by cases eq; exact admitted) frames

/-- A jump out of a round of corresponding loops. -/
theorem jumpInLoop_match {body body' : Node} {breakLabel continueLabel : Option Label}
    {label : SymbolId} (shape : n.shape = .loop body breakLabel continueLabel)
    (shape' : n'.shape = .loop body' breakLabel continueLabel) (related : L.Nodes A body body')
    (admitted : L.Jumps label) (frames : L.Frames A σ σ') :
    L.Moves A n n' (jumpInLoop L.s n label σ) (jumpInLoop L.s' n' label σ') := by
  have inner : Untold n.shape := by rw [shape]; trivial
  rw [jumpInLoop, jumpInLoop, shape, shape']
  dsimp only
  rw [← law.labels related admitted]
  split
  · exact .give (.value _) frames (yields_of_untold inner _ _)
  · split
    · exact .descend (.round shape shape') related none_sought frames
    · split
      · exact .descend (.round shape shape') related (fun l eq ↦ by cases eq; exact admitted) frames
      · exact .give (.jump admitted) frames (yields_of_untold inner _ _)

/-- Going on to the next operand of corresponding nodes. -/
theorem nextOperand_match (before before' : List Node) {done : List Value}
    {rest rest' : List (Node × Option SymbolId)}
    (same : SameOperands n.shape n'.shape (before ++ rest.map Prod.fst)
      (before' ++ rest'.map Prod.fst))
    (admits : L.Admits A n n') (length : before.length = before'.length)
    (known : List.Forall₂ Known before done) (seeks : rest.map Prod.snd = rest'.map Prod.snd)
    (sought : ∀ label, some label ∈ rest.map Prod.snd → L.Jumps label) (ready : Ready rest)
    (operands : OperandsMatch L.Nodes A before (rest.map Prod.fst) (rest'.map Prod.fst))
    (frames : L.Frames (A.hold before done (rest.map Prod.fst)) σ σ') :
    L.Moves A n n' (nextOperand L.s n done rest σ) (nextOperand L.s' n' done rest' σ') := by
  match rest, rest' with
  | [], [] =>
    have inside := law.within (A.within_hold before done _) frames
    exact .give (law.combine same admits inside).1 (law.combine same admits inside).2
      (yields_of_untold same.untold _ _)
  | (o, seek) :: rest, (o', seek') :: rest' =>
    cases operands with
    | cons head tail =>
      obtain rfl : seek = seek' := (List.cons.inj seeks).1
      refine .descend (.operands same length known rfl rfl (List.cons.inj seeks).2
        (fun l member ↦ sought l (List.mem_cons_of_mem _ member)) ?_)
        (head done known.length_eq.symm) (fun l eq ↦ sought l (by simp [eq])) frames
      exact List.pairwise_cons.2 ⟨fun x member ↦ (List.pairwise_cons.1 ready).1 x member,
        (List.pairwise_cons.1 ready).2⟩
  | [], _ :: _ => cases seeks
  | _ :: _, [] => cases seeks

/-- Entering the operands of corresponding nodes. -/
theorem firstOperand_match {os os' : List Node} (same : SameOperands n.shape n'.shape os os')
    (admits : L.Admits A n n') (operands : OperandsMatch L.Nodes A [] os os')
    (seek : Option SymbolId) (jumps : ∀ label, seek = some label → L.Jumps label)
    (frames : L.Frames A σ σ') :
    L.Moves A n n' (firstOperand L.s n os seek σ) (firstOperand L.s' n' os' seek σ') := by
  have pairs := operands.forall₂
  have places : Evaluator.soughtOperand? L.s os seek = Evaluator.soughtOperand? L.s' os' seek :=
    soughtOperand_match (R := fun o o' ↦ ∃ B, L.Nodes B o o')
      (fun eq related ↦ law.labels related.choose_spec (jumps _ eq))
      (fun related ↦ law.stable same admits related.choose_spec) pairs
  rw [firstOperand, firstOperand, ← places]
  cases found : Evaluator.soughtOperand? L.s os seek with
  | error cause =>
    exact .give (.fault cause _ _) frames (yields_of_untold same.untold _ _)
  | ok entered =>
    dsimp only
    refine nextOperand_match law [] [] ?_ admits rfl .nil
      (map_snd_sought pairs.length_eq entered seek) (fun l member ↦ jumps l (mem_sought member))
      (ready_sought found) ?_ ?_
    · simpa only [map_fst_sought, List.nil_append] using same
    · simpa only [map_fst_sought] using operands
    · simpa only [Scope.hold_nil] using frames

/-- Entering the test of corresponding nodes, or the arm with the label that is sought. -/
theorem testOrArm_match {test test' : Node} {arms arms' : List Node} {seek : Option SymbolId}
    (tests : L.Nodes A test test') (sides : List.Forall₂ (L.Nodes A) arms arms')
    (testEq : testOf n = some test) (testEq' : testOf n' = some test')
    (armsEq : armsOf n = arms) (armsEq' : armsOf n' = arms')
    (jumps : ∀ label, seek = some label → L.Jumps label) (frames : L.Frames A σ σ') :
    L.Moves A n n' (testOrArm L.s n test arms seek σ) (testOrArm L.s' n' test' arms' seek σ') := by
  have sought : Option.Rel (fun a a' ↦ L.Nodes A a a' ∧ a ∈ arms ∧ a' ∈ arms')
      (Evaluator.soughtArm? L.s test arms seek) (Evaluator.soughtArm? L.s' test' arms' seek) := by
    cases seek with
    | none => exact .none
    | some label =>
      have admitted := jumps label rfl
      have members : Option.Rel (L.Nodes A) (arms.find? fun a ↦ L.s.labels a label)
          (arms'.find? fun a ↦ L.s'.labels a label) :=
        find_match (fun related ↦ law.labels related admitted) sides
      -- Both ask whether the test holds the label, and get one answer.
      simp only [Evaluator.soughtArm?, Option.bind_eq_bind, Option.bind_some,
        ← law.labels tests admitted]
      split
      · exact .none
      · cases found : arms.find? fun a ↦ L.s.labels a label with
        | none =>
          rw [found] at members
          generalize arms'.find? _ = found' at members
          cases members
          exact .none
        | some a =>
          rw [found] at members
          cases found' : arms'.find? fun a ↦ L.s'.labels a label with
          | none => rw [found'] at members; cases members
          | some a' =>
            rw [found'] at members
            cases members with
            | some related =>
              exact .some ⟨related, List.mem_of_find?_eq_some found,
                List.mem_of_find?_eq_some found'⟩
  rw [testOrArm, testOrArm]
  generalize Evaluator.soughtArm? L.s test arms seek = arm at sought
  generalize Evaluator.soughtArm? L.s' test' arms' seek = arm' at sought
  cases sought with
  | none => exact .descend (.test testEq testEq') tests jumps frames
  | some related =>
    exact .descend (.arm (armsEq ▸ related.2.1) (armsEq' ▸ related.2.2)) related.1 jumps frames

omit law in
/-- Entering corresponding arms. -/
theorem enterArm_match {x x' : Except FaultCause (Option Node)}
    (arms : match x, x' with
      | .ok arm, .ok arm' =>
        Option.Rel (fun a a' ↦ L.Nodes A a a' ∧ a ∈ armsOf n ∧ a' ∈ armsOf n') arm arm'
      | .error cause, .error cause' => cause = cause'
      | _, _ => False)
    (inner : Untold n.shape) (frames : L.Frames A σ σ') :
    L.Moves A n n' (enterArm n x σ) (enterArm n' x' σ') := by
  match x, x' with
  | .error cause, .error cause' =>
    cases arms
    exact .give (.fault cause _ _) frames (yields_of_untold inner _ _)
  | .ok arm, .ok arm' =>
    cases arms with
    | none => exact .give (.value _) frames (yields_of_untold inner _ _)
    | some related =>
      exact .descend (.arm related.2.1 related.2.2) related.1 none_sought frames
  | .ok _, .error _ => exact arms.elim
  | .error _, .ok _ => exact arms.elim

/-- Going on to the finally bodies of corresponding regions. -/
theorem runCleanup_match {r r' : Outcome} (outcomes : Outcomes L.Jumps L.Escapes r r')
    (cleanups : Option.Rel (L.Nodes A) (partsOf n).1 (partsOf n').1) (inner : Untold n.shape)
    (frames : L.Frames A σ σ') : L.Moves A n n' (runCleanup n r σ) (runCleanup n' r' σ') := by
  have gives : L.Moves A n n' (give r σ) (give r' σ') :=
    .give outcomes frames (yields_of_untold inner _ _)
  cases outcomes with
  | escape stand =>
    obtain ⟨passing, passing'⟩ := law.passing stand
    rw [runCleanup_passing passing, runCleanup_passing passing']
    generalize part : (partsOf n).1 = cleanup at cleanups
    generalize part' : (partsOf n').1 = cleanup' at cleanups
    cases cleanups with
    | none => exact gives
    | some related =>
      exact .descend (.cleanup (.escape stand) part part') related none_sought frames
  | _ =>
    unfold runCleanup
    generalize part : (partsOf n).1 = cleanup at cleanups
    generalize part' : (partsOf n').1 = cleanup' at cleanups
    cases cleanups with
    | none => exact gives
    | some related =>
      first
      | exact gives
      | refine .descend (.cleanup ?_ part part') related none_sought frames
        constructor <;> assumption

/-- Going on to the parts of corresponding regions. -/
theorem runParts_match {r r' : Outcome} (outcomes : Outcomes L.Jumps L.Escapes r r')
    (cleanups : Option.Rel (L.Nodes A) (partsOf n).1 (partsOf n').1)
    (faults : Option.Rel (L.Nodes A) (partsOf n).2 (partsOf n').2) (inner : Untold n.shape)
    (frames : L.Frames A σ σ') : L.Moves A n n' (runParts n r σ) (runParts n' r' σ') := by
  have clean := runCleanup_match law outcomes cleanups inner frames
  cases outcomes with
  | escape stand =>
    obtain ⟨passing, passing'⟩ := law.passing stand
    rw [runParts_passing passing, runParts_passing passing']
    exact clean
  | _ =>
    unfold runParts
    generalize part : (partsOf n).2 = fault at faults
    generalize part' : (partsOf n').2 = fault' at faults
    cases faults with
    | none => exact clean
    | some related =>
      first
      | exact clean
      | exact .descend (.fault (.thrown _) part part') related none_sought frames

/-- Binding the variables of corresponding clauses. -/
theorem bindClause_match {body : Node} {cs : List (Clause Node)} {cleanup fault : Option Node}
    {c c' : Clause Node} (admits : L.Admits A n n')
    (shape : n.shape = .region body cs cleanup fault)
    (member : c ∈ cs)
    (binder : c.binder = c'.binder) (ex : Value) (frames : L.Frames A σ σ') :
    L.Frames (A.bind c.binder) (bindClause L.s c ex σ) (bindClause L.s' c' ex σ') := by
  rw [bindClause, bindClause, ← binder]
  cases bound : c.binder with
  | none => exact frames
  | some v => exact law.bind admits shape member bound frames

/-- Entering the bodies of corresponding clauses. -/
theorem enterHandler_match {c c' : Clause Node} (related : ClauseMatch L.Nodes A c c')
    (member : c ∈ clausesOf n) (member' : c' ∈ clausesOf n') (ex : Value)
    (frames : L.Frames (A.bind c.binder) σ σ') :
    L.Moves A n n' (enterHandler n ex c σ) (enterHandler n' ex c' σ') := by
  have same := law.handling frames
  rw [enterHandler, enterHandler, ← same]
  exact .descend (.handler member member') related.body none_sought
    (law.handle _ frames)

/-- Trying the clauses of corresponding regions. -/
theorem tryClauses_match (before before' : List (Clause Node)) {body body' : Node}
    {cs cs' : List (Clause Node)}
    {cleanup cleanup' fault fault' : Option Node}
    (shape : n.shape = .region body (before ++ cs) cleanup fault)
    (shape' : n'.shape = .region body' (before' ++ cs') cleanup' fault')
    (length : before.length = before'.length) (admits : L.Admits A n n')
    (clauses : List.Forall₂ (ClauseMatch L.Nodes A) cs cs')
    (cleanups : Option.Rel (L.Nodes A) cleanup cleanup')
    (faults : Option.Rel (L.Nodes A) fault fault') (ex : Value) (frames : L.Frames A σ σ') :
    L.Moves A n n' (tryClauses L.s n ex cs σ) (tryClauses L.s' n' ex cs' σ') := by
  cases clauses with
  | nil =>
    refine runParts_match law (.thrown ex) ?_ ?_ (by rw [shape]; trivial) frames
    · rw [partsOf, partsOf, shape, shape']
      exact cleanups
    · rw [partsOf, partsOf, shape, shape']
      exact faults
  | @cons c c' cs cs' head tail =>
    have member : c ∈ before ++ c :: cs := by simp
    have bound := bindClause_match law admits shape member head.binder ex frames
    have all : clausesOf n = before ++ c :: cs := by rw [clausesOf, shape]
    have all' : clausesOf n' = before' ++ c' :: cs' := by rw [clausesOf, shape']
    have handler : L.Moves A n n' (enterHandler n ex c (bindClause L.s c ex σ))
        (enterHandler n' ex c' (bindClause L.s' c' ex σ')) :=
      enterHandler_match law head (by simp [all]) (by simp [all']) ex bound
    rw [tryClauses, tryClauses]
    have filters := head.filter
    generalize filter : c.filter = part at filters
    generalize filter' : c'.filter = part' at filters
    cases filters with
    | none => exact handler
    | some related =>
      exact .descend (.filter ex all all' length filter filter') related none_sought
        bound

omit law in
/-- Leaving the test of corresponding nodes: both select the same arm. -/
theorem selectArm_match (layer : Layer L.Nodes A n.shape n'.shape) (v : Value)
    (inner : Untold n.shape) (frames : L.Frames A σ σ') :
    L.Moves A n n' (enterArm n (armFor n v) σ) (enterArm n' (armFor n' v) σ') := by
  refine enterArm_match ?_ inner frames
  obtain ⟨id, shape⟩ := n
  obtain ⟨id', shape'⟩ := n'
  dsimp only [Node.shape] at layer inner
  cases layer with
  | @switch value value' cs cs' otherwise otherwise' values cases others =>
    simp only [armFor, Node.shape, Evaluator.caseFor]
    cases v.asInt? with
    | none => rfl
    | some i =>
      -- Cases are in pairs with equal tests, so that both find none or a pair.
      dsimp only
      have found := find_case (i := i) cases
      generalize selected : cs.find? (fun c ↦ c.tests.contains i) = c at found
      generalize selected' : cs'.find? (fun c ↦ c.tests.contains i) = c' at found
      cases found with
      | none =>
        cases others with
        | none => exact .none
        | some related => exact .some ⟨related, by simp [armsOf, Node.shape],
            by simp [armsOf, Node.shape]⟩
      | some related =>
        refine .some ⟨related.body, ?_, ?_⟩
        · simp only [armsOf, Node.shape, List.mem_append, List.mem_map]
          exact .inl ⟨_, List.mem_of_find?_eq_some selected, rfl⟩
        · simp only [armsOf, Node.shape, List.mem_append, List.mem_map]
          exact .inl ⟨_, List.mem_of_find?_eq_some selected', rfl⟩
  | @branch test test' yes yes' no no' tests sides others =>
    simp only [armFor, Node.shape, Evaluator.sideFor]
    cases v.asBool? with
    | none => rfl
    | some b =>
      cases b with
      | true => exact .some ⟨sides, by simp [armsOf, Node.shape], by simp [armsOf, Node.shape]⟩
      | false =>
        cases others with
        | none => exact .none
        | some related => exact .some ⟨related, by simp [armsOf, Node.shape],
            by simp [armsOf, Node.shape]⟩
  | unary same operand => cases same <;> exact .none
  | operands same operands => cases same <;> exact .none
  | leaf leaf => cases shape <;> first | exact leaf.elim | exact .none
  | _ => exact .none

/-- Entering corresponding nodes. -/
theorem enter (layer : Layer L.Nodes A n.shape n'.shape) (admits : L.Admits A n n')
    (seek : Option SymbolId) (jumps : ∀ label, seek = some label → L.Jumps label)
    (frames : L.Frames A σ σ') :
    L.Moves A n n' (enterNode L.s n seek σ) (enterNode L.s' n' seek σ') := by
  have visited : L.Frames A (noted L.s (.visit n.id seek) σ) (noted L.s' (.visit n'.id seek) σ') :=
    law.visit admits frames
  rw [enterNode, enterNode]
  generalize noted L.s (.visit n.id seek) σ = σ at visited
  generalize noted L.s' (.visit n'.id seek) σ' = σ' at visited
  obtain ⟨i, shape⟩ := n
  obtain ⟨i', shape'⟩ := n'
  dsimp only [Node.shape] at layer admits
  -- The invariant of frames is used once, for the visit; each case then compares two moves.
  cases layer with
  | block statements =>
    have declared := law.declare admits rfl visited
    cases seek with
    | none =>
      exact nextStatement_match law [] [] rfl rfl rfl statements none jumps
        .unit declared
    | some label =>
      simp only [startNode, Node.shape]
      rcases fromLabel_statements law statements (jumps label rfl) with
        ⟨none, none'⟩ | ⟨before, c, rest, before', c', rest', split, split', length, related, found,
          found'⟩
      · rw [none, none']
        exact .give (.value _) (law.within (A.within_declare _) declared)
          (yields_of_untold (by trivial) _ _)
      · rw [found, found']
        subst split split'
        exact .descend (.statements rfl rfl length) related jumps declared
  | unary same operand =>
    cases same with
    | await =>
      simp only [startNode, Node.shape, ← law.waits admits rfl]
      split
      · exact .descend (.operand (.await ..)) operand jumps visited
      · exact .give (.fault _ _ _) visited (yields_of_untold (by trivial) _ _)
    | awaiter => exact .descend (.operand (.awaiter ..)) operand jumps visited
    | ret => exact .descend (.operand (.ret ..)) operand jumps visited
    | raise => exact .descend (.operand (.raise ..)) operand jumps visited
    | assign => exact .descend (.operand (.assign ..)) operand jumps visited
    | unary => exact .descend (.operand (.unary ..)) operand jumps visited
  | region bodies clauses cleanups faults =>
    simp only [startNode, Node.shape]
    split
    · exact .give (.fault _ _ _) visited (yields_of_untold (by trivial) _ _)
    · exact .descend (.body rfl rfl) bodies none_sought visited
  | loop bodies =>
    simp only [startNode, Node.shape]
    cases seek with
    | none => exact .descend (.round rfl rfl) bodies none_sought visited
    | some label =>
      dsimp only
      split
      · exact .give (.value _) visited (yields_of_untold (by trivial) _ _)
      · split
        · exact .descend (.round rfl rfl) bodies none_sought visited
        · exact .descend (.round rfl rfl) bodies jumps visited
  | switch values cases others =>
    exact testOrArm_match law values (arms_switch cases others) rfl rfl rfl rfl jumps visited
  | branch tests sides others =>
    exact testOrArm_match law tests (arms_branch sides others) rfl rfl rfl rfl jumps visited
  | lock guards bodies =>
    simp only [startNode, Node.shape]
    split
    · exact .give (.fault _ _ _) visited (yields_of_untold (by trivial) _ _)
    · exact .descend (.guard rfl rfl) guards none_sought visited
  | @operands sh sh' os os' same operands =>
    cases same with
    | @binary op l r l' r' =>
      exact @firstOperand_match L A ⟨i, .binary op l r⟩ ⟨i', .binary op l' r'⟩ _ _ law _ _
        (.binary op l r l' r') admits operands seek jumps visited
    | @call callee args args' length =>
      exact @firstOperand_match L A ⟨i, .call callee os⟩ ⟨i', .call callee os'⟩ _ _ law _ _
        (.call callee os os' length) admits operands seek jumps visited
  | leaf leaf =>
    have results : L.Results A (Steps.leaf L.s ⟨i, shape⟩ σ) (Steps.leaf L.s' ⟨i', shape⟩ σ') :=
      law.leaf leaf rfl admits visited
    have yields := yields_leaf L.s (n := ⟨i, shape⟩) leaf σ
    have start (s : Setting) (i : NodeId) (σ : Frame) :
        startNode s ⟨i, shape⟩ seek σ = perform (Steps.leaf s ⟨i, shape⟩) σ := by
      cases shape <;> first | rfl | exact leaf.elim | skip
      all_goals
        rename_i value
        cases value
        · rfl
        · exact leaf.elim
    rw [start, start]
    exact .give results.1 results.2 yields

/-- Exits that stand for each other lead nowhere in corresponding nodes. -/
theorem nowhere_match (layer : Layer L.Nodes A n.shape n'.shape)
    (admits : n.kind ≠ .block → L.Admits A n n')
    {e e' : Exit} (stand : L.Escapes e e') :
    (∀ label, e = .jump label → Nowhere L.s n label) ∧
      ∀ label, e' = .jump label → Nowhere L.s' n' label := by
  obtain ⟨i, shape⟩ := n
  obtain ⟨i', shape'⟩ := n'
  dsimp only [Node.shape] at layer admits
  cases layer with
  | block statements =>
    refine ⟨?_, ?_⟩ <;> rintro label rfl <;> refine ⟨fun c member ↦ ?_, fun eq ↦ nomatch eq⟩
    · obtain ⟨c', -, related⟩ := exists_of_forall₂_left statements member
      exact law.escapes stand related
    · obtain ⟨c', -, related⟩ := exists_of_forall₂_right statements member
      exact law.escapes' stand related
  | loop bodies =>
    refine ⟨?_, ?_⟩ <;> rintro label rfl <;> refine ⟨fun c member ↦ (nomatch member), ?_⟩ <;>
      rintro body breakLabel continueLabel eq <;> cases eq
    · exact ⟨law.escapes stand bodies, law.elsewhere stand (admits (by rintro ⟨⟩)) rfl⟩
    · exact ⟨law.escapes' stand bodies, law.elsewhere' stand (admits (by rintro ⟨⟩)) rfl⟩
  | unary same operand =>
    cases same <;> exact ⟨fun _ _ ↦ .of_kind nofun nofun, fun _ _ ↦ .of_kind nofun nofun⟩
  | operands same operands =>
    cases same <;> exact ⟨fun _ _ ↦ .of_kind nofun nofun, fun _ _ ↦ .of_kind nofun nofun⟩
  | leaf leaf =>
    cases shape <;>
      first
      | exact leaf.elim
      | exact ⟨fun _ _ ↦ .of_kind nofun nofun, fun _ _ ↦ .of_kind nofun nofun⟩
  | _ => exact ⟨fun _ _ ↦ .of_kind nofun nofun, fun _ _ ↦ .of_kind nofun nofun⟩

omit law in
/-- The clauses of corresponding regions. -/
theorem clauses_match (layer : Layer L.Nodes A n.shape n'.shape) :
    List.Forall₂ (ClauseMatch L.Nodes A) (clausesOf n) (clausesOf n') := by
  rw [clausesOf, clausesOf]
  generalize n.shape = shape at layer
  generalize n'.shape = shape' at layer
  cases layer with
  | region bodies clauses cleanups faults => exact clauses
  | unary same operand => cases same <;> exact .nil
  | operands same operands => cases same <;> exact .nil
  | leaf leaf => cases shape <;> first | exact leaf.elim | exact .nil
  | _ => exact .nil

omit law in
/-- The parts of corresponding regions. -/
theorem parts_match (layer : Layer L.Nodes A n.shape n'.shape) :
    Option.Rel (L.Nodes A) (partsOf n).1 (partsOf n').1 ∧
      Option.Rel (L.Nodes A) (partsOf n).2 (partsOf n').2 := by
  rw [partsOf, partsOf]
  generalize n.shape = shape at layer
  generalize n'.shape = shape' at layer
  cases layer with
  | region bodies clauses cleanups faults => exact ⟨cleanups, faults⟩
  | unary same operand => cases same <;> exact ⟨.none, .none⟩
  | operands same operands => cases same <;> exact ⟨.none, .none⟩
  | leaf leaf => cases shape <;> first | exact leaf.elim | exact ⟨.none, .none⟩
  | _ => exact ⟨.none, .none⟩

/-- Leaving a statement of corresponding blocks. -/
theorem leaveStatement_match (layer : Layer L.Nodes A n.shape n'.shape)
    (admits : n.kind ≠ .block → L.Admits A n n') {declared : List Variable}
    {before before' rest rest' : List Node} {c c' : Node}
    (shape : n.shape = .block declared (before ++ c :: rest))
    (shape' : n'.shape = .block declared (before' ++ c' :: rest'))
    (length : before.length = before'.length) {r r' : Outcome}
    (outcomes : Outcomes L.Jumps L.Escapes r r') (frames : L.Frames (A.declare declared) σ σ') :
    L.Moves A n n' (leaveTo L.s ⟨n, .statements rest⟩ r σ)
      (leaveTo L.s' ⟨n', .statements rest'⟩ r' σ') := by
  have outer : L.Frames A σ σ' := law.within (A.within_declare declared) frames
  have statements : List.Forall₂ (L.Nodes (A.declare declared)) (before ++ c :: rest)
      (before' ++ c' :: rest') := by
    rw [shape, shape'] at layer
    exact layer.statements
  have passes (yields : Yields n r σ) : L.Moves A n n' (give r σ) (give r' σ') :=
    .give outcomes outer yields
  cases outcomes with
  | value v =>
    have shape : n.shape = .block declared ((before ++ [c]) ++ rest) := by simp [shape]
    have shape' : n'.shape = .block declared ((before' ++ [c']) ++ rest') := by simp [shape']
    have tail := (forall₂_after statements length).2
    exact nextStatement_match law _ _ shape shape' (by simp [length]) tail none none_sought v frames
  | jump admitted => exact jumpInBlock_match law shape shape' statements admitted frames
  | escape stand =>
    obtain ⟨nowhere, nowhere'⟩ := nowhere_match law layer admits stand
    rw [leaveTo_statements_nowhere nowhere, leaveTo_statements_nowhere nowhere']
    exact passes (yields_error _ _ _)
  | _ => exact passes (yields_error _ _ _)

/-- Leaving a round of corresponding loops. -/
theorem leaveRound_match (layer : Layer L.Nodes A n.shape n'.shape)
    (admits : n.kind ≠ .block → L.Admits A n n') {c c' : Node}
    {breakLabel continueLabel : Option Label} (shape : n.shape = .loop c breakLabel continueLabel)
    (shape' : n'.shape = .loop c' breakLabel continueLabel) {r r' : Outcome}
    (outcomes : Outcomes L.Jumps L.Escapes r r') (frames : L.Frames A σ σ') :
    L.Moves A n n' (leaveTo L.s ⟨n, .round⟩ r σ) (leaveTo L.s' ⟨n', .round⟩ r' σ') := by
  have body : L.Nodes A c c' := by
    rw [shape, shape'] at layer
    exact layer.loopBody
  have passes (yields : Yields n r σ) : L.Moves A n n' (give r σ) (give r' σ') :=
    .give outcomes frames yields
  cases outcomes with
  | value v =>
    simp only [leaveTo, nextRound, shape, shape']
    exact .descend (.round shape shape') body none_sought frames
  | jump admitted => exact jumpInLoop_match law shape shape' body admitted frames
  | escape stand =>
    obtain ⟨nowhere, nowhere'⟩ := nowhere_match law layer admits stand
    rw [leaveTo_round_nowhere nowhere, leaveTo_round_nowhere nowhere']
    exact passes (yields_error _ _ _)
  | _ => exact passes (yields_error _ _ _)

/-- Leaving the body of corresponding regions: an exception goes to the clauses, and everything else
to the parts. -/
theorem leaveBody_match (layer : Layer L.Nodes A n.shape n'.shape)
    (admits : n.kind ≠ .block → L.Admits A n n') {c c' : Node}
    {clauses clauses' : List (Clause Node)} {cleanup cleanup' fault fault' : Option Node}
    (shape : n.shape = .region c clauses cleanup fault)
    (shape' : n'.shape = .region c' clauses' cleanup' fault') {r r' : Outcome}
    (outcomes : Outcomes L.Jumps L.Escapes r r') (frames : L.Frames A σ σ') :
    L.Moves A n n' (leaveTo L.s ⟨n, .body⟩ r σ) (leaveTo L.s' ⟨n', .body⟩ r' σ') := by
  have untold : Untold n.shape := by rw [shape]; trivial
  obtain ⟨cleanups, faults⟩ := parts_match layer
  have ends := runParts_match law outcomes cleanups faults untold frames
  cases outcomes with
  | thrown ex =>
    have clauses := clauses_match layer
    simp only [partsOf, clausesOf, shape, shape'] at cleanups faults clauses
    simp only [leaveTo, clausesOf, shape, shape']
    exact tryClauses_match law [] [] shape shape' rfl (admits (not_block_of_region shape)) clauses
      cleanups faults ex frames
  | escape stand =>
    obtain ⟨passing, passing'⟩ := law.passing stand
    rw [leaveTo_body_passing passing, leaveTo_body_passing passing']
    exact ends
  | _ => exact ends

/-- Leaving the filter of corresponding clauses: where it yields true, the body of the clause is
entered, and the next clause is tried where it yields anything else or raises. -/
theorem leaveFilter_match (layer : Layer L.Nodes A n.shape n'.shape)
    (admits : n.kind ≠ .block → L.Admits A n n') {before before' cs cs' : List (Clause Node)}
    {clause clause' : Clause Node} (ex : Value) (clauses : clausesOf n = before ++ clause :: cs)
    (clauses' : clausesOf n' = before' ++ clause' :: cs') (length : before.length = before'.length)
    {r r' : Outcome} (outcomes : Outcomes L.Jumps L.Escapes r r')
    (frames : L.Frames (A.bind clause.binder) σ σ') :
    L.Moves A n n' (leaveTo L.s ⟨n, .filter ex clause cs⟩ r σ)
      (leaveTo L.s' ⟨n', .filter ex clause' cs'⟩ r' σ') := by
  have outer : L.Frames A σ σ' := law.within (A.within_bind _) frames
  obtain ⟨body, cleanup, fault, shape⟩ := region_of_clauses clauses
  obtain ⟨body', cleanup', fault', shape'⟩ := region_of_clauses clauses'
  have related := clauses_match layer
  rw [clauses, clauses'] at related
  obtain ⟨head, tail⟩ := forall₂_after related length
  have next : L.Moves A n n' (tryClauses L.s n ex cs σ) (tryClauses L.s' n' ex cs' σ') := by
    have shape : n.shape = .region body ((before ++ [clause]) ++ cs) cleanup fault := by
      simp [shape]
    have shape' : n'.shape = .region body' ((before' ++ [clause']) ++ cs') cleanup' fault' := by
      simp [shape']
    obtain ⟨cleanups, faults⟩ := parts_match layer
    simp only [partsOf, shape, shape'] at cleanups faults
    exact tryClauses_match law _ _ shape shape' (by simp [length])
      (admits (not_block_of_region shape)) tail cleanups faults ex outer
  have passes (yields : Yields n r σ) : L.Moves A n n' (give r σ) (give r' σ') :=
    .give outcomes outer yields
  cases outcomes with
  | value v =>
    simp only [leaveTo]
    split
    · exact enterHandler_match law head (by simp [clauses]) (by simp [clauses']) ex frames
    · exact next
  | thrown v => exact next
  | escape stand =>
    obtain ⟨passing, passing'⟩ := law.passing stand
    rw [leaveTo_filter_passing passing, leaveTo_filter_passing passing']
    exact passes (yields_error _ _ _)
  | _ => exact passes (yields_error _ _ _)

/-- Leaving to corresponding tasks. Blocks do nothing by themselves once they are entered. -/
theorem leave (layer : Layer L.Nodes A n.shape n'.shape)
    (admits : n.kind ≠ .block → L.Admits A n n') {st st' : Stage} {c c' : Node}
    (stages : StageMatch L.Jumps L.Escapes A n n' st st' B c c') {r r' : Outcome}
    (outcomes : Outcomes L.Jumps L.Escapes r r') (frames : L.Frames B σ σ')
    (yields : Yields c r σ) :
    L.Moves A n n' (leaveTo L.s ⟨n, st⟩ r σ) (leaveTo L.s' ⟨n', st'⟩ r' σ') := by
  have inner := stages.untold
  have outer := law.within stages.within frames
  have passes (yields : Yields n r σ) : L.Moves A n n' (give r σ) (give r' σ') :=
    .give outcomes outer yields
  cases stages with
  | statements shape shape' length =>
    exact leaveStatement_match law layer admits shape shape' length outcomes frames
  | round shape shape' => exact leaveRound_match law layer admits shape shape' outcomes frames
  | operand same =>
    cases outcomes with
    | value v =>
      have results := law.finish same (admits same.not_block) yields frames
      exact .give results.1 results.2 (yields_finish L.s same v σ)
    | _ => exact passes (yields_error _ _ _)
  | @operands before before' after after' c c' done rest rest' same length known left left' seeks
      sought ready =>
    cases outcomes with
    | value v =>
      subst left left'
      have tail : OperandsMatch L.Nodes A (before ++ [c]) (rest.map Prod.fst)
          (rest'.map Prod.fst) := (layer.operandsOf same).after length
      have knownAll : List.Forall₂ Known (before ++ [c]) (done ++ [v]) :=
        List.rel_append known (.cons (known_of_yields yields) .nil)
      exact nextOperand_match law (before ++ [c]) (before' ++ [c'])
        (by simpa using same) (admits same.not_block) (by simp [length]) knownAll seeks sought
        (List.pairwise_cons.1 ready).2 tail (law.hold frames yields known.length_eq.symm)
    | _ => exact passes (yields_error _ _ _)
  | test test test' =>
    cases outcomes with
    | value v => exact selectArm_match layer v (inner (by rintro ⟨⟩)) frames
    | _ => exact passes (yields_error _ _ _)
  | arm => exact passes (yields_of_untold (inner (by rintro ⟨⟩)) _ _)
  | guard shape shape' =>
    cases outcomes with
    | value v =>
      simp only [leaveTo, lockBody, shape, shape']
      rw [shape, shape'] at layer
      refine .descend (.arm ?_ ?_) layer.lockBody none_sought frames
      · simp [armsOf, shape]
      · simp [armsOf, shape']
    | _ => exact passes (yields_error _ _ _)
  | body shape shape' => exact leaveBody_match law layer admits shape shape' outcomes frames
  | filter ex clauses clauses' length =>
    exact leaveFilter_match law layer admits ex clauses clauses' length outcomes frames
  | handler member member' =>
    have popped := law.within (A.within_bind _) (law.handle σ.handling.tail frames)
    simp only [leaveTo]
    rw [← law.handling frames]
    exact runParts_match law outcomes (parts_match layer).1 (parts_match layer).2
      (inner (by rintro ⟨⟩)) popped
  | fault outcomes' part part' =>
    cases outcomes with
    | value v =>
      exact runCleanup_match law outcomes' (parts_match layer).1 (inner (by rintro ⟨⟩)) frames
    | _ => exact passes (yields_error _ _ _)
  | cleanup outcomes' part part' =>
    cases outcomes with
    | value v => exact .give outcomes' frames (yields_of_untold (inner (by rintro ⟨⟩)) _ _)
    | _ => exact passes (yields_error _ _ _)

end Law

end Lockstep

end Steps

end Suspension
