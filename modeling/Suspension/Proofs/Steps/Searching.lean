import Suspension.Proofs.Steps.Reaching
import Suspension.Proofs.Steps.Seeking

/-!
# A search changes nothing

To enter a node in search of a label that it holds is to go down to a node that defines the label.
On the way nodes that hold the label are entered, the variables of blocks among them start, and
operands in front of the one that holds the label are evaluated again, which are constants, defaults
and variables. `Searched` says that nothing else has happened.

What a single layer does with the label is one of three things (`Opening`): it enters a child that
holds it, it evaluates the operands in front of that child first, or it refuses. So the induction
over the tree (`search_ends`) has two endings, the arrival at a node that defines the label and a
fault.
-/

namespace Suspension

/-- The causes that a search ends with where it does not arrive: a layer that cannot be entered so,
or a variable in front of the label that has no value. -/
def FaultCause.EndsSearch : FaultCause → Prop
  | .intoOperand => True
  | .intoRegion => True
  | .intoLock => True
  | .unloweredAwait => True
  | .unbound _ => True
  | _ => False

namespace Steps

open Eval TransitionSystem

variable {s : Setting} {root n c : Node} {l : SymbolId} {σ σ' σ'' : Frame}

/-- What happens in a search: a node that holds the label, but does not define it, is entered in
search of it, or a constant, a default or a variable is evaluated. -/
inductive Passing (n : Node) (l : SymbolId) : Event → Prop
  | enter {m : Node} (within : m ∈ n.walk) (holds : l ∈ m.labelsWithin)
    (passes : l ∉ m.shape.ownLabels) : Passing n l (.visit m.id (some l))
  | read {o : Node} (within : o ∈ n.walk) (stable : o.isStable = true) :
    Passing n l (.visit o.id none)

/-- What a search for a label beneath a node has done to a frame by some time. `declared` are the
variables that were started, `way` is what was recorded, the latest first. -/
structure Searched (n : Node) (l : SymbolId) (declared : List Variable) (way : List Moment)
    (σ σ' : Frame) : Prop where
  locals : σ'.locals = σ.locals.declare declared
  persisted : σ'.persisted = σ.persisted
  host : σ'.host = σ.host
  handling : σ'.handling = σ.handling
  awaiters : σ'.awaiters = σ.awaiters
  moments : σ'.moments = way ++ σ.moments
  passing : ∀ m ∈ way, Passing n l m.event
  /-- Variables were started and nothing else happened to them, at any time. -/
  kept : ∀ m ∈ way, m.persisted = σ.persisted ∧
    ∃ started, started <+: declared ∧ m.locals = σ.locals.declare started
  /-- What was started belongs to blocks that were entered. -/
  started : ∀ v ∈ declared, ∃ b ∈ n.walk, ∃ vs ns, b.shape = .block vs ns ∧ v ∈ vs ∧
    ∃ m ∈ way, m.event = .visit b.id (some l)

/-! ### What was done -/

theorem Passing.mono {e : Event} (h : Passing c l e) (within : c ∈ n.walk) : Passing n l e := by
  cases h with
  | enter inside holds passes => exact .enter (Node.mem_walk_trans inside within) holds passes
  | read inside stable => exact .read (Node.mem_walk_trans inside within) stable

namespace Searched

variable {vs ws : List Variable} {way way' : List Moment}

theorem refl (σ : Frame) : Searched n l [] [] σ σ :=
  ⟨rfl, rfl, rfl, rfl, rfl, rfl, List.forall_mem_nil _, List.forall_mem_nil _,
    List.forall_mem_nil _⟩

theorem trans (h : Searched n l vs way σ σ') (h' : Searched n l ws way' σ' σ'') :
    Searched n l (vs ++ ws) (way' ++ way) σ σ'' where
  locals := by
    rw [h'.locals, h.locals, Store.declare, Store.declare, Store.declare, List.foldl_append]
  persisted := h'.persisted.trans h.persisted
  host := h'.host.trans h.host
  handling := h'.handling.trans h.handling
  awaiters := h'.awaiters.trans h.awaiters
  moments := by rw [h'.moments, h.moments, List.append_assoc]
  passing := List.forall_mem_append.2 ⟨h'.passing, h.passing⟩
  kept := by
    refine List.forall_mem_append.2 ⟨fun m member ↦ ?_, fun m member ↦ ?_⟩
    · obtain ⟨persisted, started, initial, locals⟩ := h'.kept m member
      refine ⟨persisted.trans h.persisted, vs ++ started,
        (List.prefix_append_right_inj vs).2 initial, ?_⟩
      rw [locals, h.locals, Store.declare, Store.declare, Store.declare, List.foldl_append]
    · obtain ⟨persisted, started, initial, locals⟩ := h.kept m member
      exact ⟨persisted, started, initial.trans (List.prefix_append vs ws), locals⟩
  started := by
    refine List.forall_mem_append.2 ⟨fun v member ↦ ?_, fun v member ↦ ?_⟩
    · obtain ⟨b, within, us, ns, shape, own, m, entered, visit⟩ := h.started v member
      exact ⟨b, within, us, ns, shape, own, m, List.mem_append_right way' entered, visit⟩
    · obtain ⟨b, within, us, ns, shape, own, m, entered, visit⟩ := h'.started v member
      exact ⟨b, within, us, ns, shape, own, m, List.mem_append_left way entered, visit⟩

/-- A search beneath a child is one beneath the node. -/
theorem mono (h : Searched c l vs way σ σ') (within : c ∈ n.walk) : Searched n l vs way σ σ' :=
  { h with
    passing := fun m member ↦ (h.passing m member).mono within
    started := fun v member ↦ by
      obtain ⟨b, inside, rest⟩ := h.started v member
      exact ⟨b, Node.mem_walk_trans inside within, rest⟩ }

/-- Noting the visit of a node. -/
theorem visit (records : s.records = true) {seek : Option SymbolId}
    (passing : Passing n l (.visit c.id seek)) : Searched n l []
      [⟨.visit c.id seek, σ.persisted, σ.locals⟩] σ (noted s (.visit c.id seek) σ) where
  locals := noted_locals ..
  persisted := noted_persisted ..
  host := noted_host ..
  handling := noted_handling ..
  awaiters := noted_awaiters ..
  moments := by rw [noted, if_pos records]; rfl
  passing := List.forall_mem_singleton.2 passing
  kept := List.forall_mem_singleton.2 ⟨rfl, [], List.prefix_refl _, rfl⟩
  started := List.forall_mem_nil _

/-- Starting the variables of a block whose visit was noted last. -/
theorem declare (h : Searched n l [] way σ σ') {ns : List Node} (within : c ∈ n.walk)
    (shape : c.shape = .block vs ns) (entered : ∃ m ∈ way, m.event = .visit c.id (some l)) :
    Searched n l vs way σ { σ' with locals := σ'.locals.declare vs } :=
  { h with
    locals := congrArg (Store.declare · vs) h.locals
    kept := fun m member ↦ by
      obtain ⟨persisted, started, initial, locals⟩ := h.kept m member
      exact ⟨persisted, started, initial.trans (List.nil_prefix), locals⟩
    started := fun v member ↦ ⟨c, within, vs, ns, shape, member, entered⟩ }

end Searched

/-! ### What a layer does -/

/-- A stage that hands on what stops the child it waits for. -/
def Stage.PassesStops (s : Setting) (n : Node) (st : Stage) : Prop :=
  ∀ reason σ, leaveTo s ⟨n, st⟩ (.error (.stop reason)) σ = give (.error (.stop reason)) σ

/-- What a layer does with a label that it holds and does not define. -/
inductive Opening (s : Setting) (n : Node) (l : SymbolId) (σ : Frame) : Move → Prop
  /-- It starts the variables that it declares, if any, and enters a child that holds the label. -/
  | child {st : Stage} {c : Node} {vs : List Variable} (child : c ∈ n.children)
    (holds : l ∈ c.labelsWithin) (starts : vs = [] ∨ ∃ ns, n.shape = .block vs ns)
    (stops : st.PassesStops s n) :
    Opening s n l σ (descend n st c (some l) { σ with locals := σ.locals.declare vs })
  /-- It evaluates the operands in front of the child that holds the label. -/
  | operands {before after : List Node} {c : Node} (operands : n.children = before ++ c :: after)
    (holds : l ∈ c.labelsWithin) (stable : ∀ o ∈ before, o.isStable = true) :
    Opening s n l σ (nextOperand s n []
      (before.map (fun o ↦ (o, none)) ++ (c, some l) :: after.map fun o ↦ (o, none)) σ)
  | refuses {cause : FaultCause} (ends : cause.EndsSearch) :
    Opening s n l σ (perform (fault cause n) σ)

/-- A child is entered that holds the label. -/
theorem Opening.enter {st : Stage} (child : c ∈ n.children) (holds : l ∈ c.labelsWithin)
    (stops : st.PassesStops s n) : Opening s n l σ (descend n st c (some l) σ) :=
  @Opening.child s n l σ st c [] child holds (.inl rfl) stops

/-- The first statement that holds a label. -/
theorem fromLabel_of_mem {ns : List Node} (member : c ∈ ns) (holds : s.labels c l = true) :
    ∃ d rest, d ∈ ns ∧ s.labels d l = true ∧ Evaluator.fromLabel s l ns = d :: rest := by
  induction ns with
  | nil => cases member
  | cons d rest ih =>
    rw [fromLabel_cons]
    split
    · rename_i first
      exact ⟨d, rest, List.mem_cons_self, first, rfl⟩
    · rename_i later
      have inside : c ∈ rest := (List.mem_cons.1 member).resolve_left fun eq ↦ later (eq ▸ holds)
      obtain ⟨e, rest', member', found⟩ := ih inside
      exact ⟨e, rest', List.mem_cons_of_mem d member', found⟩

/-- A test that holds a label is entered, or else the first arm that does. -/
theorem opening_testOrArm {test : Node} {arms : List Node} (split : n.children = test :: arms)
    (agree : ∀ d ∈ n.children, s.labels d l = true → l ∈ d.labelsWithin)
    (found : ∃ c ∈ n.children, s.labels c l = true) :
    Opening s n l σ (testOrArm s n test arms (some l) σ) := by
  simp only [testOrArm, Evaluator.soughtArm?, Option.bind_eq_bind, Option.bind_some]
  cases inTest : s.labels test l with
  | true =>
    have first : test ∈ n.children := split ▸ List.mem_cons_self
    exact .enter first (agree test first inTest) fun _ _ ↦ rfl
  | false =>
    obtain ⟨c, member, holds⟩ := found
    have inArms : c ∈ arms := (List.mem_cons.1 (split ▸ member)).resolve_left fun eq ↦ by
      rw [← eq, holds] at inTest
      cases inTest
    cases selected : arms.find? fun arm ↦ s.labels arm l with
    | none => exact absurd holds (List.find?_eq_none.1 selected c inArms)
    | some arm =>
      have inside : arm ∈ n.children :=
        split ▸ List.mem_cons_of_mem test (List.mem_of_find?_eq_some selected)
      have has : s.labels arm l = true := List.find?_some (p := fun arm ↦ s.labels arm l) selected
      exact .enter inside (agree arm inside has) fun _ _ ↦ rfl

/-- Operands that are stable are evaluated in front of the one that holds a label. -/
theorem opening_operands
    (agree : ∀ d ∈ n.children, s.labels d l = true → l ∈ d.labelsWithin)
    (found : ∃ c ∈ n.children, s.labels c l = true) :
    Opening s n l σ (firstOperand s n n.children (some l) σ) := by
  obtain ⟨c, member, holds⟩ := found
  simp only [firstOperand, Evaluator.soughtOperand?]
  cases place : n.children.findIdx? fun o ↦ s.labels o l with
  | none => exact absurd holds (Bool.eq_false_iff.1 (List.findIdx?_eq_none_iff.1 place c member))
  | some i =>
    obtain ⟨lt, has, -⟩ := List.findIdx?_eq_some_iff_getElem.1 place
    have split : n.children = n.children.take i ++ n.children[i] :: n.children.drop (i + 1) := by
      rw [List.getElem_cons_drop, List.take_append_drop]
    have length : (n.children.take i).length = i := List.length_take_of_le (Nat.le_of_lt lt)
    dsimp only
    by_cases stable : (n.children.take i).all Node.isStable = true
    · rw [if_pos stable]
      have each : sought n.children (some i) (some l) =
          (n.children.take i).map (fun o ↦ (o, none)) ++
            (n.children[i], some l) :: (n.children.drop (i + 1)).map fun o ↦ (o, none) := by
        have each := sought_eq (n.children.take i) n.children[i] (n.children.drop (i + 1)) (some l)
        rwa [← split, length] at each
      dsimp only
      rw [each]
      exact .operands split (agree _ (List.getElem_mem lt) has) fun o inside ↦
        List.all_eq_true.1 stable o inside
    · rw [if_neg stable]
      exact .refuses trivial

/-- A node that holds a label and does not define it. -/
theorem opening (labels : ∀ d ∈ n.children, s.labels d l = d.labelsWithin.contains l)
    (holds : l ∈ n.labelsWithin) (passes : l ∉ n.shape.ownLabels) :
    Opening s n l σ (startNode s n (some l) σ) := by
  have agree (d : Node) (child : d ∈ n.children) (has : s.labels d l = true) :
      l ∈ d.labelsWithin := by
    rw [labels d child] at has
    exact List.contains_iff_mem.1 has
  have found : ∃ c ∈ n.children, s.labels c l = true := by
    rw [n.labelsWithin_eq] at holds
    obtain ⟨c, child, inside⟩ :=
      List.mem_flatMap.1 ((List.mem_append.1 holds).resolve_left passes)
    exact ⟨c, child, by rw [labels c child]; exact List.contains_iff_mem.2 inside⟩
  obtain ⟨i, sh⟩ := n
  -- A layer with one child is left by that child only.
  have only {st : Stage} {o : Node} (children : sh.children = [o])
      (stops : st.PassesStops s ⟨i, sh⟩) :
      Opening s ⟨i, sh⟩ l σ (descend ⟨i, sh⟩ st o (some l) σ) := by
    obtain ⟨c, child, has⟩ := found
    have same : c = o := List.mem_singleton.1 (children ▸ child)
    subst same
    exact .enter child (agree c child has) stops
  cases sh with
  | block declared ns =>
    obtain ⟨c, (child : c ∈ ns), has⟩ := found
    obtain ⟨d, rest, member, has', start⟩ := fromLabel_of_mem child has
    have enters : startNode s ⟨i, .block declared ns⟩ (some l) σ =
        descend ⟨i, .block declared ns⟩ (.statements rest) d (some l)
          { σ with locals := σ.locals.declare declared } := by
      change nextStatement _ (Evaluator.fromLabel s l ns) (some l) .unit _ = _
      rw [start]
      rfl
    rw [enters]
    exact .child member (agree d member has') (.inr ⟨ns, rfl⟩) fun _ _ ↦ rfl
  | await o acquire result =>
    simp only [startNode, Node.shape]
    split
    · exact only rfl fun _ _ ↦ rfl
    · exact .refuses trivial
  | awaiter question o => exact only rfl fun _ _ ↦ rfl
  | region body clauses cleanup fault => exact .refuses trivial
  | loop body breakLabel continueLabel =>
    have elsewhere {o : Option Label} (free : l ∉ o.toList.map Label.id) :
        o.any (·.id == l) = false := by
      cases o with
      | none => rfl
      | some label => exact beq_eq_false_iff_ne.2 fun eq ↦ free (eq ▸ List.mem_singleton.2 rfl)
    simp only [Node.shape, Shape.ownLabels, List.map_append, List.mem_append, not_or] at passes
    simp only [startNode, Node.shape, elsewhere passes.1, elsewhere passes.2]
    exact only rfl fun _ _ ↦ rfl
  | switch value cases otherwise => exact opening_testOrArm rfl agree found
  | branch test yes no => exact opening_testOrArm rfl agree found
  | lock guard body => exact .refuses trivial
  | ret value =>
    cases value with
    | none => exact absurd found.choose_spec.1 List.not_mem_nil
    | some o => exact only rfl fun _ _ ↦ rfl
  | raise value =>
    cases value with
    | none => exact absurd found.choose_spec.1 List.not_mem_nil
    | some o => exact only rfl fun _ _ ↦ rfl
  | assign target o => exact only rfl fun _ _ ↦ rfl
  | binary op left right => exact opening_operands agree found
  | unary op o => exact only rfl fun _ _ ↦ rfl
  | call callee args => exact opening_operands agree found
  | _ => exact absurd found.choose_spec.1 List.not_mem_nil

/-! ### How a search ends -/

/-- How the search for a label beneath a node ends: it arrives at a node that defines the label, or
it stops with a fault. -/
inductive SearchEnds (s : Setting) (n : Node) (l : SymbolId) (K : List Task) (σ : Frame) : Prop
  | arrives {d : Node} {K' : List Task} {vs : List Variable} {way : List Moment} {σ' : Frame}
    (within : d ∈ n.walk) (defines : l ∈ d.shape.ownLabels) (searched : Searched n l vs way σ σ')
    (reach : (system s).Reaches ⟨.enter n (some l), K, σ⟩ ⟨.enter d (some l), K', σ'⟩)
  | fails {f : Fault} {vs : List Variable} {way : List Moment} {σ' : Frame}
    (ends : f.cause.EndsSearch) (searched : Searched n l vs way σ σ')
    (reach : (system s).Reaches ⟨.enter n (some l), K, σ⟩
      ⟨.leave (.error (.stop (.fault f))), K, σ'⟩)

section Ends

variable {K : List Task} {vs : List Variable} {way : List Moment}

/-- A search goes on in a child. -/
theorem SearchEnds.of_child {st : Stage} (child : c ∈ n.children) (stops : st.PassesStops s n)
    (searched : Searched n l vs way σ σ')
    (reach : (system s).Reaches ⟨.enter n (some l), K, σ⟩ ⟨.enter c (some l), ⟨n, st⟩ :: K, σ'⟩)
    (ends : SearchEnds s c l (⟨n, st⟩ :: K) σ') : SearchEnds s n l K σ := by
  have within : c ∈ n.walk := Node.mem_walk_of_mem_children (Node.mem_walk_self c) child
  cases ends with
  | arrives inside defines searched' reach' =>
    exact .arrives (Node.mem_walk_trans inside within) defines
      (searched.trans (searched'.mono within)) (reach.trans reach')
  | fails ends searched' reach' =>
    exact .fails ends (searched.trans (searched'.mono within))
      (reach.trans (reach'.trans (reaches_over (stops _ _))))

/-- A stable node comes to a value, unless it is a variable that has none. -/
theorem reaches_stable {o : Node} (stable : o.isStable = true) (K : List Task) (σ : Frame) :
    (∃ v, (system s).Reaches ⟨.enter o none, K, σ⟩
      ⟨.leave (.ok v), K, noted s (.visit o.id none) σ⟩) ∨
    ∃ f : Fault, f.cause.EndsSearch ∧ (system s).Reaches ⟨.enter o none, K, σ⟩
      ⟨.leave (.error (.stop (.fault f))), K, noted s (.visit o.id none) σ⟩ := by
  obtain ⟨i, sh⟩ := o
  cases sh with
  | const value => exact .inl ⟨value.value, reaches_value rfl⟩
  | defaultOf ty => exact .inl ⟨ty.defaultValue, reaches_value rfl⟩
  | var v =>
    cases held : lookup (noted s (.visit i none) σ) v.id with
    | some value =>
      refine .inl ⟨value, reaches_value ?_⟩
      simp only [startNode, Node.shape, perform, leaf, load_apply, Node.id, held]
    | none =>
      refine .inr ⟨⟨.unbound v, some i⟩, trivial, reaches_value ?_⟩
      simp only [startNode, Node.shape, perform, leaf, load_apply, Node.id, held, fault_apply]
  | _ => cases stable

/-- Stable operands in front of another operand come to values, unless one is a variable that has
none. -/
theorem reaches_stables (records : s.records = true) {before : List Node}
    (within : ∀ o ∈ before, o ∈ n.walk) (stable : ∀ o ∈ before, o.isStable = true)
    (done : List Value) (c : Node) (seek : Option SymbolId) (rest : List (Node × Option SymbolId))
    (K : List Task) (σ : Frame) : ∃ way σ', Searched n l [] way σ σ' ∧
      let operands := before.map (fun o ↦ (o, none)) ++ (c, seek) :: rest
      let first := (nextOperand s n done operands σ).on K
      ((∃ values, (system s).Reaches first
          ⟨.enter c seek, ⟨n, .operands values rest⟩ :: K, σ'⟩) ∨
        ∃ f : Fault, f.cause.EndsSearch ∧
          (system s).Reaches first ⟨.leave (.error (.stop (.fault f))), K, σ'⟩) := by
  induction before generalizing done σ with
  | nil => exact ⟨[], σ, .refl σ, .inl ⟨done, .refl _⟩⟩
  | cons o before ih =>
    have seen : Searched n l [] [⟨.visit o.id none, σ.persisted, σ.locals⟩] σ
        (noted s (.visit o.id none) σ) :=
      .visit records (.read (within o List.mem_cons_self) (stable o List.mem_cons_self))
    rcases reaches_stable (s := s) (stable o List.mem_cons_self)
      (⟨n, .operands done (before.map (fun o ↦ (o, none)) ++ (c, seek) :: rest)⟩ :: K) σ with
      ⟨v, reach⟩ | ⟨f, ends, reach⟩
    · obtain ⟨way, σ', searched, after⟩ := ih
        (fun o' member ↦ within o' (List.mem_cons_of_mem o member))
        (fun o' member ↦ stable o' (List.mem_cons_of_mem o member)) (done ++ [v])
        (noted s (.visit o.id none) σ)
      refine ⟨_, σ', seen.trans searched, after.imp ?_ ?_⟩
      · rintro ⟨values, reach'⟩
        exact ⟨values, reach.trans (reaches_leave rfl reach')⟩
      · rintro ⟨f, ends, reach'⟩
        exact ⟨f, ends, reach.trans (reaches_leave rfl reach')⟩
    · exact ⟨_, _, seen, .inr ⟨f, ends, reach.trans (reaches_over rfl)⟩⟩

/-- **A search changes nothing.** In a tree whose labels are found where they are, a label that is
sought in a node that holds it leads to a node that defines it, or to a fault, and on the way
nothing happens but what belongs to the search. -/
theorem search_ends (records : s.records = true)
    (labels : ∀ m ∈ root.walk, s.labels m l = m.labelsWithin.contains l) (within : n ∈ root.walk)
    (holds : l ∈ n.labelsWithin) (K : List Task) (σ : Frame) : SearchEnds s n l K σ := by
  induction n using Node.induction generalizing K σ with
  | step n ih =>
    -- The induction stops at the node that defines the label; above it the layer opens a child.
    by_cases defines : l ∈ n.shape.ownLabels
    · exact .arrives (Node.mem_walk_self n) defines (.refl σ) (.refl _)
    · have entered : Searched n l [] [⟨.visit n.id (some l), σ.persisted, σ.locals⟩] σ
          (noted s (.visit n.id (some l)) σ) :=
        .visit records (.enter (Node.mem_walk_self n) holds defines)
      have opens := opening (σ := noted s (.visit n.id (some l)) σ)
        (fun d child ↦ labels d (Node.mem_children_walk child within)) holds defines
      generalize start : startNode s n (some l) (noted s (.visit n.id (some l)) σ) = m at opens
      cases opens with
      | @child st c vs child inside starts stops =>
        have started : Searched n l vs [⟨.visit n.id (some l), σ.persisted, σ.locals⟩] σ
            { noted s (.visit n.id (some l)) σ with
              locals := (noted s (.visit n.id (some l)) σ).locals.declare vs } := by
          rcases starts with rfl | ⟨ns, shape⟩
          · exact entered
          · exact entered.declare (Node.mem_walk_self n) shape ⟨_, List.mem_cons_self, rfl⟩
        exact .of_child child stops started (reaches_child start)
          (ih c child (Node.mem_children_walk child within) inside _ _)
      | @operands before after c split inside stable =>
        have child : c ∈ n.children := split ▸ List.mem_append_right before List.mem_cons_self
        have front (o : Node) (member : o ∈ before) : o ∈ n.walk :=
          Node.mem_walk_of_mem_children (Node.mem_walk_self o)
            (split ▸ List.mem_append_left _ member)
        obtain ⟨way, σ', searched, ⟨values, reach⟩ | ⟨f, ends, reach⟩⟩ := reaches_stables (l := l)
          records front stable [] c (some l) (after.map fun o ↦ (o, none)) K
          (noted s (.visit n.id (some l)) σ)
        · exact .of_child child (fun _ _ ↦ rfl) (entered.trans searched)
            (reaches_enter start reach)
            (ih c child (Node.mem_children_walk child within) inside _ _)
        · exact .fails ends (entered.trans searched) (reaches_enter start reach)
      | @refuses cause ends =>
        have refused : (system s).Reaches ⟨.enter n (some l), K, σ⟩
            ⟨.leave (.error (.stop (.fault ⟨cause, some n.id⟩))), K,
              noted s (.visit n.id (some l)) σ⟩ := reaches_value start
        exact .fails ends entered refused

end Ends

end Steps

open Steps Eval

/-- An evaluation in search of a label only searches until it arrives or fails. By some time it has
done what belongs to the search and nothing else (`Searched`), and then it comes to a node that
defines the label, or it has stopped with a fault. -/
def Node.OnlySearches (s : Setting) (n : Node) (l : SymbolId) (σ : Frame) : Prop :=
  ∃ declared way σ', Searched n l declared way σ σ' ∧
    ((∃ d ∈ n.walk, l ∈ d.shape.ownLabels ∧
        (∃ K, (system s).Reaches (start n (some l) σ) ⟨.enter d (some l), K, σ'⟩) ∧
        ∃ enough, ∀ fuel ≥ enough,
          ⟨.visit d.id (some l), σ'.persisted, σ'.locals⟩ :: (way ++ σ.moments) <:+
            (eval s fuel n (some l) σ).2.moments) ∨
      ∃ f : Fault, f.cause.EndsSearch ∧
        ∃ enough, ∀ fuel ≥ enough, eval s fuel n (some l) σ = (.error (.stop (.fault f)), σ'))

/-- **Seeking has no effects.** Whatever node of a tree whose nodes are numbered apart is evaluated
in search of a label that it holds, and in whatever frame: before control arrives at the definition
of the label, the host, the variables that outlive the run, the exceptions being handled and the
awaiters are left alone, the variables of the run change only where blocks that are entered start
theirs, and nothing is evaluated but constants, defaults and variables. A search that does not
arrive ends with a fault, and never with a jump, a return or an exception. -/
theorem Node.only_searches {root n : Node} (distinct : root.ids.Nodup) (within : n ∈ root.walk)
    {l : SymbolId} (holds : l ∈ n.labelsWithin) (waits : Bool) (σ : Frame) :
    n.OnlySearches { labels := LabelIndex.build root, waits, records := true } l σ := by
  let s : Setting := { labels := LabelIndex.build root, waits, records := true }
  have ends : SearchEnds s n l [] σ :=
    search_ends rfl (fun _ inside ↦ LabelIndex.build_contains distinct inside l) within holds [] σ
  cases ends with
  | @arrives d K' vs way σ' inside defines searched reach =>
    refine ⟨vs, way, σ', searched, .inl ⟨d, inside, defines, ⟨K', reach⟩, ?_⟩⟩
    obtain ⟨enough, recorded⟩ := recorded_of_reaches (reach.trans (.head (.refl _)))
    have visited : (noted s (.visit d.id (some l)) σ').moments =
        ⟨.visit d.id (some l), σ'.persisted, σ'.locals⟩ :: (way ++ σ.moments) := by
      rw [← searched.moments]
      rfl
    have kept := (kept_startNode s d (noted s (.visit d.id (some l)) σ') (some l)).moments
    rw [visited] at kept
    exact ⟨enough, fun fuel le ↦ kept.trans (recorded fuel le)⟩
  | @fails f vs way σ' ends searched reach =>
    exact ⟨vs, way, σ', searched, .inr ⟨f, ends, eval_of_ends ⟨_, reach, rfl⟩⟩⟩

/-- A label in a block in a loop, behind an argument that is read again. The search starts with the
block that declares what is read, and control arrives at the label. -/
theorem Node.only_searches_argument : ∃ (root n : Node) (l : SymbolId), root.ids.Nodup ∧
    n ∈ root.walk ∧ l ∈ n.labelsWithin ∧
    let s : Setting := { labels := LabelIndex.build root, waits := false, records := true }
    n.OnlySearches s l { persisted := {}, host := {} } ∧
      ∃ d ∈ n.walk, l ∈ d.shape.ownLabels ∧
        ∃ m ∈ (eval s 12 n (some l) { persisted := {}, host := {} }).2.moments,
          m.event = .visit d.id (some l) := by
  let x : Variable := ⟨1, "x", .int⟩
  let within : Node := ⟨3, .label ⟨3, "in"⟩⟩
  let loop : Node := ⟨0, .loop ⟨1, .block [⟨2, "y", .str⟩] [⟨2, .goto ⟨4, "out"⟩⟩, within]⟩
    (some ⟨4, "out"⟩) none⟩
  let call : Node := ⟨5, .call "trace" [⟨6, .var x⟩, loop, ⟨7, .call "yield" []⟩]⟩
  let scope : Node := ⟨4, .block [x] [call]⟩
  let root : Node := ⟨8, .block [] [⟨9, .call "yield" []⟩, scope]⟩
  have distinct : root.ids.Nodup := by decide
  have below : scope ∈ root.walk := Node.mem_walk_of_mem_children (Node.mem_walk_self scope)
    (List.mem_cons_of_mem _ List.mem_cons_self)
  have holds : (3 : SymbolId) ∈ scope.labelsWithin := by decide
  have defined : within ∈ scope.walk := List.mem_of_getElem? (i := 6) rfl
  exact ⟨root, scope, 3, distinct, below, holds, Node.only_searches distinct below holds false _,
    within, defined, by decide, by decide +kernel⟩

end Suspension
