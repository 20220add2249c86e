import Mathlib.Data.List.Forall2
import Mathlib.Data.Option.Basic
import Suspension.Proofs.Steps.Basic

/-!
# Nodes that evaluate alike

Two trees whose evaluations are compared have the same form at most of their nodes: the same kind of
layer over children that are compared in turn. `Layer` says so for one node, `StageMatch` for the
stage that its evaluation has reached and the child it waits for.

What is asked of the children may depend on where they stand. A `Scope` is what is in force there:
the variables that the nodes around bind, and the values of variables that operands before an
operand that suspends were read from. Those must not change until the operands are read once more.
-/

namespace Suspension

namespace Steps

open Eval

/-- What is in force at a place of a tree. -/
structure Scope where
  /-- The variables that a block or a clause around binds. -/
  bound : List SymbolId := []
  /-- Variables that may not change, with their values. -/
  held : List (SymbolId × Value) := []

namespace Scope

/-- Inside a block. -/
def declare (A : Scope) (vs : List Variable) : Scope :=
  { A with bound := vs.map Variable.id ++ A.bound }

/-- Inside a clause. -/
def bind (A : Scope) (binder : Option Variable) : Scope :=
  { A with bound := binder.toList.map Variable.id ++ A.bound }

/-- The variables that operands were read from. -/
def readsOf (operands : List Node) (values : List Value) : List (SymbolId × Value) :=
  (operands.zip values).filterMap fun (o, value) ↦
    match o.shape with
    | .var v => some (v.id, value)
    | _ => none

/-- At the first of the operands that are left, behind those that have values already. -/
def hold (A : Scope) (before : List Node) (done : List Value) (left : List Node) : Scope :=
  if left.any Node.containsAwait then { A with held := readsOf before done ++ A.held } else A

/-- Less is in force than in another scope. -/
def Within (A B : Scope) : Prop :=
  A.bound ⊆ B.bound ∧ A.held ⊆ B.held

theorem Within.refl (A : Scope) : A.Within A :=
  ⟨fun _ h ↦ h, fun _ h ↦ h⟩

/-- A scope is within one with more variables. -/
theorem within_declare (A : Scope) (vs : List Variable) : A.Within (A.declare vs) :=
  ⟨List.subset_append_right _ _, fun _ h ↦ h⟩

theorem within_bind (A : Scope) (binder : Option Variable) : A.Within (A.bind binder) :=
  ⟨List.subset_append_right _ _, fun _ h ↦ h⟩

theorem within_hold (A : Scope) (before : List Node) (done : List Value) (left : List Node) :
    A.Within (A.hold before done left) := by
  rw [hold]
  split
  · exact ⟨fun _ h ↦ h, List.subset_append_right _ _⟩
  · exact .refl A

@[simp] theorem hold_nil (A : Scope) (done : List Value) (left : List Node) :
    A.hold [] done left = A := by
  rw [hold]
  split <;> rfl

end Scope

/-! ### Layers of one form -/

/-- What corresponds is there for each member of the first list. -/
theorem exists_of_forall₂_left {α β : Type} {R : α → β → Prop} {xs : List α} {ys : List β}
    (h : List.Forall₂ R xs ys) {x : α} (member : x ∈ xs) : ∃ y ∈ ys, R x y := by
  induction h with
  | nil => cases member
  | @cons x' y xs ys head tail ih =>
    rcases List.mem_cons.1 member with rfl | member
    · exact ⟨y, List.mem_cons_self, head⟩
    · obtain ⟨y, member', related⟩ := ih member
      exact ⟨y, List.mem_cons_of_mem _ member', related⟩

/-- What corresponds behind lists of one length corresponds. -/
theorem forall₂_after {α β : Type} {R : α → β → Prop} {xs ys : List α} {xs' ys' : List β} {x : α}
    {x' : β} (h : List.Forall₂ R (xs ++ x :: ys) (xs' ++ x' :: ys'))
    (length : xs.length = xs'.length) :
    R x x' ∧ List.Forall₂ R ys ys' := by
  induction xs generalizing xs' with
  | nil =>
    obtain rfl := List.length_eq_zero_iff.1 length.symm
    exact List.forall₂_cons.1 h
  | cons z zs ih =>
    cases xs' with
    | nil => cases length
    | cons z' zs' => exact ih (List.forall₂_cons.1 h).2 (by simpa using length)

/-- What corresponds is there for each member of the second list. -/
theorem exists_of_forall₂_right {α β : Type} {R : α → β → Prop} {xs : List α} {ys : List β}
    (h : List.Forall₂ R xs ys) {y : β} (member : y ∈ ys) : ∃ x ∈ xs, R x y :=
  exists_of_forall₂_left h.flip member

/-- Layers of one form with an only operand each. -/
inductive SameUnary : Shape Node → Shape Node → Node → Node → Prop
  | await (o o' : Node) (acquire : Option String) (result : Ty) :
    SameUnary (.await o acquire result) (.await o' acquire result) o o'
  | awaiter (o o' : Node) (question : AwaitStep) :
    SameUnary (.awaiter question o) (.awaiter question o') o o'
  | ret (o o' : Node) : SameUnary (.ret (some o)) (.ret (some o')) o o'
  | raise (o o' : Node) : SameUnary (.raise (some o)) (.raise (some o')) o o'
  | assign (o o' : Node) (target : Variable) :
    SameUnary (.assign target o) (.assign target o') o o'
  | unary (o o' : Node) (op : UnaryOp) : SameUnary (.unary op o) (.unary op o') o o'

/-- Layers of one form with operands. -/
inductive SameOperands : Shape Node → Shape Node → List Node → List Node → Prop
  | binary (op : BinaryOp) (l r l' r' : Node) :
    SameOperands (.binary op l r) (.binary op l' r') [l, r] [l', r']
  | call (callee : String) (args args' : List Node) (length : args.length = args'.length) :
    SameOperands (.call callee args) (.call callee args') args args'

/-- Layers without children. -/
def IsLeaf : Shape Node → Prop
  | .label _ => True
  | .goto _ => True
  | .ret none => True
  | .raise none => True
  | .var _ => True
  | .const _ => True
  | .defaultOf _ => True
  | _ => False

/-- Layers of which nothing is told when they are left: neither constants and reads, nor
assignments. -/
def Untold : Shape Node → Prop
  | .var _ => False
  | .const _ => False
  | .defaultOf _ => False
  | .assign _ _ => False
  | _ => True

theorem SameOperands.untold {sh sh' : Shape Node} {os os' : List Node}
    (h : SameOperands sh sh' os os') : Untold sh := by
  cases h <;> trivial

/-- A node with an only operand is no block. -/
theorem SameUnary.not_block {n : Node} {sh' : Shape Node} {o o' : Node}
    (h : SameUnary n.shape sh' o o') : n.kind ≠ .block := by
  rw [Node.kind]
  generalize n.shape = sh at h
  cases h <;> rintro ⟨⟩

/-- A node with operands is no block. -/
theorem SameOperands.not_block {n : Node} {sh' : Shape Node} {os os' : List Node}
    (h : SameOperands n.shape sh' os os') : n.kind ≠ .block := by
  rw [Node.kind]
  generalize n.shape = sh at h
  cases h <;> rintro ⟨⟩

variable (R : Scope → Node → Node → Prop)

/-- Clauses with related parts, inside their scope. -/
structure ClauseMatch (A : Scope) (c c' : Clause Node) : Prop where
  binder : c.binder = c'.binder
  filter : Option.Rel (R (A.bind c.binder)) c.filter c'.filter
  body : R (A.bind c.binder) c.body c'.body

/-- Cases with related bodies. -/
structure CaseMatch (A : Scope) (c c' : Case Node) : Prop where
  tests : c.tests = c'.tests
  body : R A c.body c'.body

/-- Operands that are related pairwise, those of the first list standing behind others. -/
inductive OperandsMatch (A : Scope) : List Node → List Node → List Node → Prop
  | nil (before : List Node) : OperandsMatch A before [] []
  | cons {before : List Node} {o o' : Node} {os os' : List Node}
    (head : ∀ done : List Value, done.length = before.length →
      R (A.hold before done (o :: os)) o o')
    (tail : OperandsMatch A (before ++ [o]) os os') : OperandsMatch A before (o :: os) (o' :: os')

variable {R} in
/-- Each operand is related to its counterpart somewhere. -/
theorem OperandsMatch.forall₂ {A : Scope} {before os os' : List Node}
    (h : OperandsMatch R A before os os') : List.Forall₂ (fun o o' ↦ ∃ B, R B o o') os os' := by
  induction h with
  | nil => exact .nil
  | @cons before o o' os os' head tail ih =>
    exact .cons ⟨_, head (List.replicate before.length .unit) List.length_replicate⟩ ih

/-- Layers of one form over related children. -/
inductive Layer (A : Scope) : Shape Node → Shape Node → Prop
  | block {declared : List Variable} {ns ns' : List Node}
    (statements : List.Forall₂ (R (A.declare declared)) ns ns') :
    Layer A (.block declared ns) (.block declared ns')
  | unary {sh sh' : Shape Node} {o o' : Node} (same : SameUnary sh sh' o o') (operand : R A o o') :
    Layer A sh sh'
  | region {body body' : Node} {cs cs' : List (Clause Node)}
    {cleanup cleanup' fault fault' : Option Node} (bodies : R A body body')
    (clauses : List.Forall₂ (ClauseMatch R A) cs cs')
    (cleanups : Option.Rel (R A) cleanup cleanup') (faults : Option.Rel (R A) fault fault') :
    Layer A (.region body cs cleanup fault) (.region body' cs' cleanup' fault')
  | loop {body body' : Node} {breakLabel continueLabel : Option Label} (bodies : R A body body') :
    Layer A (.loop body breakLabel continueLabel) (.loop body' breakLabel continueLabel)
  | switch {value value' : Node} {cs cs' : List (Case Node)} {otherwise otherwise' : Option Node}
    (values : R A value value') (cases : List.Forall₂ (CaseMatch R A) cs cs')
    (others : Option.Rel (R A) otherwise otherwise') :
    Layer A (.switch value cs otherwise) (.switch value' cs' otherwise')
  | branch {test test' yes yes' : Node} {no no' : Option Node} (tests : R A test test')
    (sides : R A yes yes') (others : Option.Rel (R A) no no') :
    Layer A (.branch test yes no) (.branch test' yes' no')
  | lock {guard guard' body body' : Node} (guards : R A guard guard') (bodies : R A body body') :
    Layer A (.lock guard body) (.lock guard' body')
  | operands {sh sh' : Shape Node} {os os' : List Node} (same : SameOperands sh sh' os os')
    (operands : OperandsMatch R A [] os os') : Layer A sh sh'
  | leaf {sh : Shape Node} (leaf : IsLeaf sh) : Layer A sh sh

variable {R} in
/-- Operands made of one list correspond one by one. -/
theorem OperandsMatch.of_map {α : Type} {f g : α → Node} {A : Scope} {xs : List α}
    (h : ∀ x ∈ xs, ∀ B, R B (f x) (g x)) (before : List Node) :
    OperandsMatch R A before (xs.map f) (xs.map g) := by
  induction xs generalizing before with
  | nil => exact .nil before
  | cons x xs ih =>
    exact .cons (fun done _ ↦ h x List.mem_cons_self _)
      (ih (fun y member ↦ h y (List.mem_cons_of_mem _ member)) _)

variable {R} in
/-- Layers over the same children, each child with two images, have one form. -/
theorem Layer.of_map {α : Type} {f g : α → Node} {A : Scope} {sh : Shape α}
    (h : ∀ c ∈ sh.children, ∀ B, R B (f c) (g c)) : Layer R A (sh.map f) (sh.map g) := by
  have all {xs : List α} (h : ∀ x ∈ xs, ∀ B, R B (f x) (g x)) (B : Scope) :
      List.Forall₂ (R B) (xs.map f) (xs.map g) := by
    rw [List.forall₂_map_left_iff, List.forall₂_map_right_iff, List.forall₂_same]
    exact fun x member ↦ h x member B
  have option {o : Option α} (h : ∀ x ∈ o.toList, ∀ B, R B (f x) (g x)) (B : Scope) :
      Option.Rel (R B) (o.map f) (o.map g) := by
    cases o with
    | none => exact .none
    | some x => exact .some (h x List.mem_cons_self B)
  cases sh with
  | block declared xs => exact .block (all h _)
  | await x acquire ty => exact .unary (.await _ _ acquire ty) (h x List.mem_cons_self A)
  | awaiter question x => exact .unary (.awaiter _ _ question) (h x List.mem_cons_self A)
  | region body cs cleanup fault =>
    simp only [Shape.children, List.forall_mem_append, List.forall_mem_cons] at h
    obtain ⟨⟨⟨bodies, clauses⟩, cleanups⟩, faults⟩ := h
    refine .region (bodies A) ?_ (option cleanups A) (option faults A)
    rw [List.forall₂_map_left_iff, List.forall₂_map_right_iff, List.forall₂_same]
    intro c member
    have parts (part) (inside : part ∈ c.children) : ∀ B, R B (f part) (g part) :=
      clauses part (List.mem_flatMap.2 ⟨c, member, inside⟩)
    exact ⟨rfl, option (fun n inside ↦ parts n (List.mem_append_left _ inside)) _,
      parts _ (List.mem_append_right _ List.mem_cons_self) _⟩
  | loop body b c => exact .loop (h body List.mem_cons_self A)
  | label => exact .leaf trivial
  | goto => exact .leaf trivial
  | switch value cs otherwise =>
    simp only [Shape.children, List.forall_mem_append, List.forall_mem_cons,
      List.forall_mem_map] at h
    obtain ⟨⟨values, cases⟩, others⟩ := h
    refine .switch (values A) ?_ (option others A)
    rw [List.forall₂_map_left_iff, List.forall₂_map_right_iff, List.forall₂_same]
    exact fun c member ↦ ⟨rfl, cases c member A⟩
  | branch test yes no =>
    simp only [Shape.children, List.forall_mem_cons] at h
    exact .branch (h.1 A) (h.2.1 A) (option h.2.2 A)
  | lock guard body =>
    exact .lock (h guard List.mem_cons_self A)
      (h body (List.mem_cons_of_mem _ List.mem_cons_self) A)
  | ret value =>
    cases value with
    | none => exact .leaf trivial
    | some x => exact .unary (.ret _ _) (h x List.mem_cons_self A)
  | raise value =>
    cases value with
    | none => exact .leaf trivial
    | some x => exact .unary (.raise _ _) (h x List.mem_cons_self A)
  | assign target x => exact .unary (.assign _ _ target) (h x List.mem_cons_self A)
  | binary op l r =>
    exact .operands (.binary op _ _ _ _) (@OperandsMatch.of_map R α f g A [l, r] h [])
  | unary op x => exact .unary (.unary _ _ op) (h x List.mem_cons_self A)
  | call callee args => exact .operands (.call callee _ _ (by simp)) (.of_map h [])
  | var => exact .leaf trivial
  | const => exact .leaf trivial
  | defaultOf => exact .leaf trivial

variable {R} in
/-- A layer has its own form. -/
theorem Layer.refl {A : Scope} {sh : Shape Node} (h : ∀ c ∈ sh.children, ∀ B, R B c c) :
    Layer R A sh sh := by
  have clause : Clause.map id = (id : Clause Node → Clause Node) := by
    funext c
    simp [Clause.map]
  have case : Case.map id = (id : Case Node → Case Node) := rfl
  have same : sh.map id = sh := by
    cases sh <;> simp [Shape.map, clause, case]
  have layer : Layer R A (sh.map id) (sh.map id) := .of_map h
  rwa [same] at layer

section Inversion

variable {R} {A : Scope}

/-- The statements of corresponding blocks correspond. -/
theorem Layer.statements {declared declared' : List Variable} {ns ns' : List Node}
    (h : Layer R A (.block declared ns) (.block declared' ns')) :
    List.Forall₂ (R (A.declare declared)) ns ns' := by
  cases h with
  | block statements => exact statements
  | unary same => cases same
  | operands same => cases same
  | leaf leaf => exact leaf.elim

/-- The bodies of corresponding loops correspond. -/
theorem Layer.loopBody {body body' : Node} {b c b' c' : Option Label}
    (h : Layer R A (.loop body b c) (.loop body' b' c')) : R A body body' := by
  cases h with
  | loop bodies => exact bodies
  | unary same => cases same
  | operands same => cases same
  | leaf leaf => exact leaf.elim

/-- The bodies of corresponding locks correspond. -/
theorem Layer.lockBody {guard guard' body body' : Node}
    (h : Layer R A (.lock guard body) (.lock guard' body')) : R A body body' := by
  cases h with
  | lock guards bodies => exact bodies
  | unary same => cases same
  | operands same => cases same
  | leaf leaf => exact leaf.elim

/-- The operands of corresponding nodes correspond. -/
theorem Layer.operandsOf {sh sh' : Shape Node} {os os' : List Node} (h : Layer R A sh sh')
    (same : SameOperands sh sh' os os') : OperandsMatch R A [] os os' := by
  cases same with
  | binary =>
    cases h with
    | operands same operands => cases same; exact operands
    | unary same => cases same
    | leaf leaf => exact leaf.elim
  | call =>
    cases h with
    | operands same operands => cases same; exact operands
    | unary same => cases same
    | leaf leaf => exact leaf.elim

/-- The operands behind one of those that correspond. -/
theorem OperandsMatch.after {front before before' after after' : List Node} {c c' : Node}
    (h : OperandsMatch R A front (before ++ c :: after) (before' ++ c' :: after'))
    (length : before.length = before'.length) :
    OperandsMatch R A (front ++ before ++ [c]) after after' := by
  induction before generalizing front before' with
  | nil =>
    obtain rfl := List.length_eq_zero_iff.1 length.symm
    cases h with
    | cons head tail => simpa using tail
  | cons o os ih =>
    cases before' with
    | nil => cases length
    | cons o' os' =>
      cases h with
      | cons head tail => simpa using ih tail (by simpa using length)

end Inversion

/-! ### Stages of one form -/

/-- The test of a switch or a branch. -/
def testOf (n : Node) : Option Node :=
  match n.shape with
  | .switch value _ _ => some value
  | .branch test _ _ => some test
  | _ => none

/-- What a node may end as: the arms of a switch or a branch, or the body of a lock. -/
def armsOf (n : Node) : List Node :=
  match n.shape with
  | .switch _ cases otherwise => cases.map Case.body ++ otherwise.toList
  | .branch _ yes no => yes :: no.toList
  | .lock _ body => [body]
  | _ => []

variable (J : SymbolId → Prop) (E : Exit → Exit → Prop)

/-- Outcomes of one kind: the same up to the places of faults, with the jumps that are admitted, or
exits that stand for each other. -/
inductive Outcomes : Outcome → Outcome → Prop
  | value (v : Value) : Outcomes (.ok v) (.ok v)
  | jump {label : SymbolId} (admitted : J label) :
    Outcomes (.error (.jump label)) (.error (.jump label))
  | ret (v : Value) : Outcomes (.error (.ret v)) (.error (.ret v))
  | thrown (v : Value) : Outcomes (.error (.thrown v)) (.error (.thrown v))
  | fault (cause : FaultCause) (place place' : Option NodeId) :
    Outcomes (.error (.stop (.fault ⟨cause, place⟩))) (.error (.stop (.fault ⟨cause, place'⟩)))
  | negationOverflow :
    Outcomes (.error (.stop .negationOverflow)) (.error (.stop .negationOverflow))
  | outOfFuel : Outcomes (.error (.stop .outOfFuel)) (.error (.stop .outOfFuel))
  | escape {e e' : Exit} (stand : E e e') : Outcomes (.error e) (.error e')

variable {J E} in
/-- What stands for an exit is an exit. -/
theorem Outcomes.of_error {e : Exit} {r' : Outcome}
    (h : Outcomes J E (.error e) r') : ∃ e', r' = .error e' := by
  cases h <;> exact ⟨_, rfl⟩

/-- A value that a constant operand is known to have. -/
def Known (o : Node) (v : Value) : Prop :=
  match o.shape with
  | .const value => v = value.value
  | .defaultOf ty => v = ty.defaultValue
  | _ => True

/-- Operands in front of one that is sought are stable. -/
def Ready (operands : List (Node × Option SymbolId)) : Prop :=
  operands.Pairwise fun o sought ↦ sought.2.isSome → o.1.isStable

/-- Two nodes have reached the same stage, and wait for the children that correspond to each other
in the scope given. -/
inductive StageMatch (A : Scope) (n n' : Node) : Stage → Stage → Scope → Node → Node → Prop
  | statements {declared : List Variable} {before before' rest rest' : List Node} {c c' : Node}
    (shape : n.shape = .block declared (before ++ c :: rest))
    (shape' : n'.shape = .block declared (before' ++ c' :: rest'))
    (length : before.length = before'.length) :
    StageMatch A n n' (.statements rest) (.statements rest') (A.declare declared) c c'
  | round {c c' : Node} {breakLabel continueLabel : Option Label}
    (shape : n.shape = .loop c breakLabel continueLabel)
    (shape' : n'.shape = .loop c' breakLabel continueLabel) :
    StageMatch A n n' .round .round A c c'
  | operand {c c' : Node} (same : SameUnary n.shape n'.shape c c') :
    StageMatch A n n' .operand .operand A c c'
  | operands {before before' after after' : List Node} {c c' : Node} {done : List Value}
    {rest rest' : List (Node × Option SymbolId)}
    (same : SameOperands n.shape n'.shape (before ++ c :: after) (before' ++ c' :: after'))
    (length : before.length = before'.length) (known : List.Forall₂ Known before done)
    (left : rest.map Prod.fst = after) (left' : rest'.map Prod.fst = after')
    (seeks : rest.map Prod.snd = rest'.map Prod.snd)
    (sought : ∀ label, some label ∈ rest.map Prod.snd → J label)
    (ready : Ready ((c, none) :: rest)) :
    StageMatch A n n' (.operands done rest) (.operands done rest') (A.hold before done (c :: after))
      c c'
  | test {c c' : Node} (test : testOf n = some c) (test' : testOf n' = some c') :
    StageMatch A n n' .test .test A c c'
  | arm {c c' : Node} (arm : c ∈ armsOf n) (arm' : c' ∈ armsOf n') :
    StageMatch A n n' .arm .arm A c c'
  | guard {c c' body body' : Node} (shape : n.shape = .lock c body)
    (shape' : n'.shape = .lock c' body') : StageMatch A n n' .guard .guard A c c'
  | body {c c' : Node} {clauses clauses' : List (Clause Node)}
    {cleanup cleanup' fault fault' : Option Node}
    (shape : n.shape = .region c clauses cleanup fault)
    (shape' : n'.shape = .region c' clauses' cleanup' fault') : StageMatch A n n' .body .body A c c'
  | filter {before before' cs cs' : List (Clause Node)} {clause clause' : Clause Node} {c c' : Node}
    (ex : Value) (clauses : clausesOf n = before ++ clause :: cs)
    (clauses' : clausesOf n' = before' ++ clause' :: cs') (length : before.length = before'.length)
    (filter : clause.filter = some c) (filter' : clause'.filter = some c') :
    StageMatch A n n' (.filter ex clause cs) (.filter ex clause' cs') (A.bind clause.binder) c c'
  | handler {clause clause' : Clause Node} (member : clause ∈ clausesOf n)
    (member' : clause' ∈ clausesOf n') :
    StageMatch A n n' (.handler clause) (.handler clause') (A.bind clause.binder) clause.body
      clause'.body
  | fault {r r' : Outcome} {c c' : Node} (outcomes : Outcomes J E r r')
    (part : (partsOf n).2 = some c) (part' : (partsOf n').2 = some c') :
    StageMatch A n n' (.fault r) (.fault r') A c c'
  | cleanup {r r' : Outcome} {c c' : Node} (outcomes : Outcomes J E r r')
    (part : (partsOf n).1 = some c) (part' : (partsOf n').1 = some c') :
    StageMatch A n n' (.cleanup r) (.cleanup r') A c c'

variable {J E} in
/-- Nodes that wait for a child are of a kind of which nothing is told when they are left, but for
some that wait for an only operand. -/
theorem StageMatch.untold {A B : Scope} {n n' c c' : Node} {st st' : Stage}
    (h : StageMatch J E A n n' st st' B c c') (other : st ≠ .operand) : Untold n.shape := by
  obtain ⟨i, shape⟩ := n
  cases h with
  | statements shape => rw [shape]; trivial
  | round shape => rw [shape]; trivial
  | operand => exact absurd rfl other
  | operands same => exact same.untold
  | test test => cases shape <;> trivial
  | arm arm => cases shape <;> trivial
  | guard shape => rw [shape]; trivial
  | body shape => rw [shape]; trivial
  | filter ex clauses => cases shape <;> first | trivial | simp [clausesOf, Node.shape] at clauses
  | handler member => cases shape <;> trivial
  | fault outcomes part => cases shape <;> trivial
  | cleanup outcomes part => cases shape <;> trivial

variable {J E} in
/-- More is in force in a child. -/
theorem StageMatch.within {A B : Scope} {n n' c c' : Node} {st st' : Stage}
    (h : StageMatch J E A n n' st st' B c c') : A.Within B := by
  cases h with
  | statements => exact A.within_declare _
  | operands => exact A.within_hold _ _ _
  | filter => exact A.within_bind _
  | handler => exact A.within_bind _
  | _ => exact .refl A

end Steps

end Suspension
