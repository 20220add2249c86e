import Suspension.Proofs.Preparation.Spilling
import Suspension.Proofs.Steps.Agreement
import Suspension.Proofs.Steps.Seeking

/-!
# Operands that are stored first

A `Storing` compares the evaluation of a tree with that of one in which some operands are stored in
variables of a new block before the expression that they belong to. Most nodes correspond layer by
layer; a node whose operands are stored corresponds to such a block (`Storing.Unfolds`). The first
evaluation then waits in one node for the operands one after the other, where the second waits in an
assignment in the block, and in the expression once everything is stored. `Stacks` says which tasks
correspond, and `Progress` what is known while operands are stored: of those that have values, the
expression holds constants, or variables that hold their values in the frame.

Both evaluations come by corresponding configurations again and again (`Storing.simulation`), so
they end together, with corresponding ends (`Storing.evaluatesLike`).
-/

namespace Suspension

namespace Steps

open Eval TransitionSystem

/-- Layers with operands define no labels themselves. -/
theorem SameOperands.ownLabels {sh sh' : Shape Node} {os os' : List Node}
    (h : SameOperands sh sh' os os') : sh.ownLabels = [] := by
  cases h <;> rfl

/-- A comparison of the evaluations of two trees. -/
structure Storing where
  s : Setting
  s' : Setting
  /-- Symbols whose numbers are below are common to both trees. -/
  base : Nat
  /-- The nodes that correspond, where some variables hold known values. -/
  Nodes : Held → Node → Node → Prop

namespace Storing

variable (P : Storing)

/-- An operand yields a value: as a constant, or as a variable that holds it. -/
def Reads (known : Held) (o : Node) (v : Value) : Prop :=
  match o.shape with
  | .var w => (w.id, v) ∈ known
  | .const value => v = value.value
  | .defaultOf ty => v = ty.defaultValue
  | _ => False

/-- How nodes that correspond look. -/
inductive Unfolds (held : Held) (n : Node) : Node → Prop
  | layer {n' : Node} (layer : Layer (fun _ ↦ P.Nodes held) {} n.shape n'.shape)
    (old : ∀ id ∈ n.shape.ownSymbols, id.toNat < P.base) : Unfolds held n n'
  | block {os ps os' stores : List Node} {ds : List Variable} {i : NodeId} {value : Node}
    (same : SameOperands n.shape value.shape os os') (stored : Stores ps ds stores os')
    (nodes : ∀ known : Held, (∀ p ∈ known, p.1 ∈ ds.map Variable.id) →
      List.Forall₂ (P.Nodes (known ++ held)) os ps)
    (distinct : (ds.map Variable.id).Nodup)
    (apart : ∀ id ∈ ds.map Variable.id, P.base ≤ id.toNat ∧ ∀ p ∈ held, p.1 ≠ id)
    (unlabelled : ∀ o ∈ os, ∀ label, P.s.labels o label = false)
    (unlabelled' : ∀ m ∈ stores ++ [value], ∀ label, P.s'.labels m label = false) :
    Unfolds held n ⟨i, .block ds (stores ++ [value])⟩

/-- What makes a comparison go through. -/
structure Lawful : Prop where
  waits : P.s.waits = P.s'.waits
  records : P.s.records = P.s'.records
  labels : ∀ {held n n'}, P.Nodes held n n' → ∀ label, P.s.labels n label = P.s'.labels n' label
  passes : ∀ {held n n'}, P.Nodes held n n' → PassesOn P.s n
  unfolds : ∀ {held n n'}, P.Nodes held n n' → P.Unfolds held n n'

/-- Some operands of a node have values; of the others, some are left to store in a block. The
variables of the block are `temps`. -/
structure Progress (held known : Held) (temps : List SymbolId) (n block value : Node)
    (done : List Value) (os ps : List Node) (ds : List Variable) (os' : List Node) : Prop where
  operands : ∃ before before', SameOperands n.shape value.shape (before ++ os) (before' ++ os') ∧
    List.Forall₂ (Reads known) before' done ∧
    ∀ o ∈ before', ∀ w, o.shape = .var w → w.id ∉ ds.map Variable.id
  nodes : ∀ known : Held, (∀ p ∈ known, p.1 ∈ temps) →
    List.Forall₂ (P.Nodes (known ++ held)) os ps
  temporary : ∀ p ∈ known, p.1 ∈ temps
  left : ∀ v ∈ ds, v.id ∈ temps ∧ ∃ value, (v.id, value) ∈ known
  distinct : (ds.map Variable.id).Nodup
  apart : ∀ id ∈ temps, P.base ≤ id.toNat ∧ ∀ p ∈ held, p.1 ≠ id
  unlabelled : ∀ m ∈ statementsOf block, ∀ label, P.s'.labels m label = false

/-- Operands in which nothing is sought. -/
def unsought (os : List Node) : List (Node × Option SymbolId) :=
  os.map fun o ↦ (o, none)

/-- The tasks that wait for corresponding nodes. -/
inductive Stacks : Held → Node → Node → List Task → List Task → Prop
  | nil (n n' : Node) : Stacks [] n n' [] []
  | layer {held : Held} {n n' c c' : Node} {st st' : Stage} {B : Scope} {K K' : List Task}
    (layer : Layer (fun _ ↦ P.Nodes held) {} n.shape n'.shape)
    (old : ∀ id ∈ n.shape.ownSymbols, id.toNat < P.base)
    (stages : StageMatch (fun label ↦ label.toNat < P.base) (fun _ _ ↦ False) {} n n' st st' B c c')
    (outer : Stacks held n n' K K') : Stacks held c c' (⟨n, st⟩ :: K) (⟨n', st'⟩ :: K')
  | storing {held known : Held} {temps : List SymbolId} {n block value o p : Node}
    {done : List Value} {os ps os' stores : List Node} {ds : List Variable} {temp : Variable}
    {i j : NodeId} {K K' : List Task}
    (progress : P.Progress held known temps n block value done (o :: os) (p :: ps) (temp :: ds)
      (⟨j, .var temp⟩ :: os'))
    (rest : Stores ps ds stores os') (outer : Stacks held n block K K') :
    Stacks (known ++ held) o p (⟨n, .operands done (unsought os)⟩ :: K)
      (⟨⟨i, .assign temp p⟩, .operand⟩ :: ⟨block, .statements (stores ++ [value])⟩ :: K')
  | applying {held known : Held} {n block value o p : Node} {done : List Value}
    {all all' os ps : List Node} {K K' : List Task}
    (same : SameOperands n.shape value.shape all all')
    (nodes : List.Forall₂ (P.Nodes (known ++ held)) os ps)
    (unlabelled : ∀ m ∈ statementsOf block, ∀ label, P.s'.labels m label = false)
    (outer : Stacks held n block K K') :
    Stacks (known ++ held) o p (⟨n, .operands done (unsought os)⟩ :: K)
      (⟨value, .operands done (unsought ps)⟩ :: ⟨block, .statements []⟩ :: K')

/-- Ends that correspond. -/
abbrev EndsAlike (r r' : Outcome) : Prop :=
  Outcomes (fun _ ↦ True) (fun _ _ ↦ False) r r'

/-- Ends that correspond, where labels that are jumped to have numbers below a bound. -/
abbrev EndsWithin (base : Nat) (r r' : Outcome) : Prop :=
  Outcomes (fun label ↦ label.toNat < base) (fun _ _ ↦ False) r r'

theorem EndsWithin.alike {base : Nat} {r r' : Outcome} (h : EndsWithin base r r') :
    EndsAlike r r' := by
  cases h with
  | value v => exact .value v
  | jump => exact .jump trivial
  | ret v => exact .ret v
  | thrown v => exact .thrown v
  | fault cause place place' => exact .fault cause place place'
  | negationOverflow => exact .negationOverflow
  | outOfFuel => exact .outOfFuel
  | escape stand => exact stand.elim

/-- Configurations that correspond. -/
inductive Related : Configuration → Configuration → Prop
  | enter {held : Held} {n n' : Node} {seek : Option SymbolId} {K K' : List Task} {σ σ' : Frame}
    (nodes : P.Nodes held n n') (sought : ∀ label, seek = some label → label.toNat < P.base)
    (tasks : P.Stacks held n n' K K') (frames : Agree P.base held σ σ') :
    Related ⟨.enter n seek, K, σ⟩ ⟨.enter n' seek, K', σ'⟩
  | leave {held : Held} {n n' : Node} {r r' : Outcome} {K K' : List Task} {σ σ' : Frame}
    (outcomes : EndsWithin P.base r r') (yields : Yields n r σ) (tasks : P.Stacks held n n' K K')
    (frames : Agree P.base held σ σ') : Related ⟨.leave r, K, σ⟩ ⟨.leave r', K', σ'⟩

variable {P} {held known : Held} {temps : List SymbolId} {n n' block value : Node}
variable {done : List Value} {os ps os' stores : List Node} {ds : List Variable}
variable {K K' : List Task} {σ σ' : Frame}

/-! ### Operands one after the other -/

/-- A node with operands starts with the first one, if nothing is sought. -/
theorem enterNode_operands (s : Setting) {all all' : List Node} {sh' : Shape Node}
    (same : SameOperands n.shape sh' all all') (σ : Frame) :
    enterNode s n none σ = nextOperand s n [] (unsought all) (noted s (.visit n.id none) σ) := by
  have start : enterNode s n none σ =
      nextOperand s n [] (sought all none none) (noted s (.visit n.id none) σ) := by
    obtain ⟨i, shape⟩ := n
    dsimp only [Node.shape] at same
    cases same <;> rfl
  have nothing : sought all none none = unsought all := by
    rw [sought, unsought, ← List.zipIdx_map_fst 0 all, List.map_map, List.zipIdx_map_fst]
    exact List.map_congr_left fun p _ ↦ by simp
  rw [start, nothing]

/-- A constant, or a variable that holds a known value, is evaluated in two steps. -/
theorem Reads.enter {s : Setting} {o : Node} {v : Value} (h : Reads known o v)
    (frame : ∀ p ∈ known, σ.locals.get? p.1 = some p.2) :
    enterNode s o none σ = give (.ok v) (noted s (.visit o.id none) σ) := by
  obtain ⟨i, shape⟩ := o
  rw [Reads] at h
  cases shape <;> first | exact h.elim | skip
  case var w =>
    have found : lookup (noted s (.visit i none) σ) w.id = some v := by
      rw [lookup, noted_locals, frame _ h]
    have loads : load w ⟨i, .var w⟩ (noted s (.visit i none) σ) =
        (.ok v, noted s (.visit i none) σ) := by
      rw [load_apply, found]
    show perform (load w ⟨i, .var w⟩) _ = _
    rw [perform, Node.id, loads]
  case const value =>
    obtain rfl := h
    rfl
  case defaultOf ty =>
    obtain rfl := h
    rfl

/-- A value for another variable leaves what is known. -/
theorem Reads.set {o : Node} {v value : Value} {id : SymbolId} (h : Reads known o v)
    (other : ∀ w, o.shape = .var w → w.id ≠ id) : Reads (known.set id value) o v := by
  obtain ⟨i, shape⟩ := o
  cases shape <;> try exact h
  case var w => exact List.mem_cons_of_mem _ (List.mem_filter.2 ⟨h, decide_eq_true (other w rfl)⟩)

/-- Constants and variables that hold known values are read in a row. -/
theorem reaches_read {s : Setting} {base : Nat} {before : List Node} {vs : List Value}
    (reads : List.Forall₂ (Reads known) before vs) (done : List Value) (rest : List Node)
    (frames : Agree base (known ++ held) σ σ') :
    ∃ σ'', (system s).Reaches ((nextOperand s n done (unsought (before ++ rest)) σ').on K)
      ((nextOperand s n (done ++ vs) (unsought rest) σ'').on K) ∧
      Agree base (known ++ held) σ σ'' := by
  induction reads generalizing done σ' with
  | nil => exact ⟨σ', by simpa using .refl _, frames⟩
  | @cons o v os vs head tail ih =>
    let t : Task := ⟨n, .operands done (unsought (os ++ rest))⟩
    have entered : next s ⟨.enter o none, t :: K, σ'⟩ =
        ⟨.leave (.ok v), t :: K, noted s (.visit o.id none) σ'⟩ := by
      show (enterNode s o none σ').on (t :: K) = _
      rw [head.enter fun p member ↦ (frames.held p (List.mem_append_left _ member)).2]
      rfl
    have left : next s ⟨.leave (.ok v), t :: K, noted s (.visit o.id none) σ'⟩ =
        (nextOperand s n (done ++ [v]) (unsought (os ++ rest))
          (noted s (.visit o.id none) σ')).on K := rfl
    obtain ⟨σ'', reach, after⟩ := ih (done ++ [v])
      (frames.noted_right (s := s) (e := .visit o.id none) rfl)
    rw [List.append_assoc, List.singleton_append] at reach
    refine ⟨σ'', ?_, after⟩
    show (system s).Reaches ⟨.enter o none, t :: K, σ'⟩ _
    exact (Proceeds.of_next entered).reaches.trans ((Proceeds.of_next left).reaches.trans reach)

/-- Exits pass through a block without labels. -/
theorem next_of_error (s : Setting) (e : Exit) (rest : List Node)
    (unlabelled : ∀ m ∈ statementsOf block, ∀ label, s.labels m label = false) :
    next s ⟨.leave (.error e), ⟨block, .statements rest⟩ :: K, σ⟩ = ⟨.leave (.error e), K, σ⟩ := by
  cases e with
  | jump label =>
    show (jumpInBlock s block label σ).on K = _
    rw [jumpInBlock, fromLabel_eq_nil fun m member ↦ unlabelled m member label]
    rfl
  | _ => rfl

/-- A block without statements left is left with whatever it is left with. -/
theorem next_of_last (s : Setting) (r : Outcome)
    (unlabelled : ∀ m ∈ statementsOf block, ∀ label, s.labels m label = false) :
    next s ⟨.leave r, ⟨block, .statements []⟩ :: K, σ⟩ = ⟨.leave r, K, σ⟩ := by
  cases r with
  | ok v => rfl
  | error e => exact next_of_error s e [] unlabelled

/-- Where everything is stored, the expression goes on with the operands that are left. -/
theorem applies (law : P.Lawful) {all all' : List Node}
    (same : SameOperands n.shape value.shape all all')
    (nodes : List.Forall₂ (P.Nodes (known ++ held)) os ps)
    (unlabelled : ∀ m ∈ statementsOf block, ∀ label, P.s'.labels m label = false)
    (outer : P.Stacks held n block K K') (frames : Agree P.base (known ++ held) σ σ')
    (done : List Value) : ∃ c', (system P.s').Reaches
      ((nextOperand P.s' value done (unsought ps) σ').on (⟨block, .statements []⟩ :: K')) c' ∧
      P.Related ((nextOperand P.s n done (unsought os) σ).on K) c' := by
  cases nodes with
  | nil =>
    obtain ⟨ends, after⟩ := Parallel.combine law.records same done σ σ' frames
    have left := next_of_last (K := K') (σ := (combine P.s' value done σ').2) P.s'
      (combine P.s' value done σ').1 unlabelled
    exact ⟨_, (Proceeds.of_next left).reaches,
      .leave ends.outcomes (Lockstep.yields_of_untold same.untold _ _) outer after.forget⟩
  | cons head tail => exact ⟨_, .refl _,
      .enter head Lockstep.none_sought (.applying same tail unlabelled outer) frames⟩

/-- A constant stands where it stood. -/
theorem constant (law : P.Lawful) {o p : Node} (nodes : P.Nodes held o p)
    (stays : p.needsSpill = false) :
    (∃ v, (∀ known, Reads known o v) ∧ ∀ known, Reads known p v) ∧ ∀ w, p.shape ≠ .var w := by
  cases law.unfolds nodes with
  | block => cases stays
  | layer layer =>
    obtain ⟨i, shape⟩ := o
    obtain ⟨j, shape'⟩ := p
    dsimp only [Node.shape] at layer
    cases layer with
    | unary same => cases same <;> cases stays
    | operands same => cases same <;> cases stays
    | leaf leaf =>
      cases shape <;> try cases stays
      · exact ⟨⟨_, fun _ ↦ rfl, fun _ ↦ rfl⟩, nofun⟩
      · exact ⟨⟨_, fun _ ↦ rfl, fun _ ↦ rfl⟩, nofun⟩
    | _ => cases stays

namespace Progress

variable {o p : Node}

/-- A constant in front of operands that are stored has its value. -/
theorem constant (h : P.Progress held known temps n block value done (o :: os) (p :: ps) ds
    (p :: os')) {v : Value} (reads : Reads known p v) (other : ∀ w, p.shape ≠ .var w) :
    P.Progress held known temps n block value (done ++ [v]) os ps ds os' where
  operands := by
    obtain ⟨before, before', same, read, settled⟩ := h.operands
    refine ⟨before ++ [o], before' ++ [p], by simpa using same, List.rel_append read
      (.cons reads .nil), List.forall_mem_append.2 ⟨settled, List.forall_mem_singleton.2 ?_⟩⟩
    exact fun w eq ↦ absurd eq (other w)
  nodes known inside := by
    cases h.nodes known inside with
    | cons _ tail => exact tail
  temporary := h.temporary
  left := h.left
  distinct := h.distinct
  apart := h.apart
  unlabelled := h.unlabelled

/-- An operand that is stored has its value. -/
theorem store {temp : Variable} {j : NodeId} (h : P.Progress held known temps n block value done
    (o :: os) (p :: ps) (temp :: ds) (⟨j, .var temp⟩ :: os')) (v : Value) :
    P.Progress held (known.set temp.id v) temps n block value (done ++ [v]) os ps ds os' := by
  have distinct := h.distinct
  rw [List.map_cons, List.nodup_cons] at distinct
  have keeps {id : SymbolId} {w : Value} (member : (id, w) ∈ known) (other : id ≠ temp.id) :
      (id, w) ∈ known.set temp.id v :=
    List.mem_cons_of_mem _ (List.mem_filter.2 ⟨member, decide_eq_true other⟩)
  have inside : temp.id ∈ temps := (h.left temp List.mem_cons_self).1
  refine ⟨?_, fun known inside ↦ ?_, List.forall_mem_cons.2 ⟨inside, fun p member ↦ ?_⟩,
    fun w member ↦ ?_, distinct.2, h.apart, h.unlabelled⟩
  · obtain ⟨before, before', same, read, settled⟩ := h.operands
    refine ⟨before ++ [o], before' ++ [⟨j, .var temp⟩], by simpa using same, List.rel_append ?_
      (.cons List.mem_cons_self .nil),
      List.forall_mem_append.2 ⟨?_, List.forall_mem_singleton.2 ?_⟩⟩
    · -- What was stored before is stored in other variables.
      refine ((List.forall₂_and_left _ _).2 ⟨settled, read⟩).imp fun b w ⟨apart, reads⟩ ↦ ?_
      exact reads.set fun x eq same ↦ apart x eq (same ▸ List.mem_cons_self)
    · exact fun b member w eq inside ↦ settled b member w eq (List.mem_cons_of_mem _ inside)
    · rintro w ⟨⟩
      exact distinct.1
  · cases h.nodes known inside with
    | cons _ tail => exact tail
  · exact h.temporary p (List.mem_filter.1 member).1
  · obtain ⟨among, value, found⟩ := h.left w (List.mem_cons_of_mem _ member)
    refine ⟨among, value, keeps found fun eq ↦ distinct.1 ?_⟩
    rw [← eq]
    exact List.mem_map_of_mem member

/-- Once everything is stored, the expression reads what is stored and goes on. -/
theorem expression (law : P.Lawful)
    (h : P.Progress held known temps n block value done os ps [] ps)
    (outer : P.Stacks held n block K K') (frames : Agree P.base (known ++ held) σ σ')
    (last : Value) : ∃ c', (system P.s').Reaches
      ((nextStatement block [value] none last σ').on K') c' ∧
      P.Related ((nextOperand P.s n done (unsought os) σ).on K) c' := by
  obtain ⟨before, before', same, reads, -⟩ := h.operands
  let below : List Task := ⟨block, .statements []⟩ :: K'
  have entered : next P.s' ⟨.enter value none, below, σ'⟩ = (nextOperand P.s' value []
      (unsought (before' ++ ps)) (noted P.s' (.visit value.id none) σ')).on below := by
    show (enterNode P.s' value none σ').on below = _
    rw [enterNode_operands P.s' same.flip]
  obtain ⟨σ'', read, after⟩ := reaches_read (s := P.s') (n := value) (K := below) reads [] ps
    (frames.noted_right (s := P.s') (e := .visit value.id none) rfl)
  obtain ⟨c', reach, related⟩ := applies law same (h.nodes known h.temporary) h.unlabelled outer
    after done
  refine ⟨c', ?_, related⟩
  show (system P.s').Reaches ⟨.enter value none, below, σ'⟩ c'
  exact (Proceeds.of_next entered).reaches.trans (read.trans reach)

/-- While operands are left to store, constants are passed and the next operand is entered. -/
theorem storing (law : P.Lawful) (stored : Stores ps ds stores os') (some : ds ≠ [])
    (h : P.Progress held known temps n block value done os ps ds os')
    (outer : P.Stacks held n block K K') (frames : Agree P.base (known ++ held) σ σ')
    (last : Value) : ∃ c c', (system P.s).Reaches
        ((nextOperand P.s n done (unsought os) σ).on K) c ∧
      (system P.s').Reaches
        ((nextStatement block (stores ++ [value]) none last σ').on K') c' ∧ P.Related c c' := by
  induction stored generalizing done os σ with
  | nil => exact absurd rfl some
  | @stored p ps os' stores ds i j temp awaits needs rest ih =>
    cases h.nodes known h.temporary with
    | @cons o _ os _ head tail =>
      let assign : Node := ⟨i, .assign temp p⟩
      let below : List Task := ⟨block, .statements (stores ++ [value])⟩ :: K'
      have entered : next P.s' ⟨.enter assign none, below, σ'⟩ =
          ⟨.enter p none, ⟨assign, .operand⟩ :: below, noted P.s' (.visit i none) σ'⟩ := rfl
      refine ⟨_, _, .refl _, (Proceeds.of_next entered).reaches, ?_⟩
      exact .enter head Lockstep.none_sought (.storing h rest outer) (frames.noted_right rfl)
  | @left p ps os' stores ds stays rest ih =>
    have nodes := h.nodes known h.temporary
    cases nodes with
    | @cons o _ os _ head tail =>
      obtain ⟨⟨v, yields, reads⟩, other⟩ :=
        Storing.constant law head (stays (rest.any_of_ne_nil some))
      obtain ⟨c, c', reach, reach', related⟩ := ih some (h.constant (reads known) other)
        (frames.noted_left (s := P.s) (e := .visit o.id none) rfl)
      refine ⟨c, c', .trans ?_ reach, reach', related⟩
      let t : Task := ⟨n, .operands done (unsought os)⟩
      have entered : next P.s ⟨.enter o none, t :: K, σ⟩ =
          ⟨.leave (.ok v), t :: K, noted P.s (.visit o.id none) σ⟩ := by
        show (enterNode P.s o none σ).on (t :: K) = _
        rw [(yields []).enter (List.forall_mem_nil _)]
        rfl
      exact (Proceeds.of_next entered).reaches.trans (Proceeds.next _).reaches

/-- Operands that are evaluated in one node, and stored in a block, lead to corresponding places. -/
theorem proceeds (law : P.Lawful) (stored : Stores ps ds stores os')
    (h : P.Progress held known temps n block value done os ps ds os')
    (outer : P.Stacks held n block K K') (frames : Agree P.base (known ++ held) σ σ')
    (last : Value) : ∃ c c', (system P.s).Reaches
        ((nextOperand P.s n done (unsought os) σ).on K) c ∧
      (system P.s').Reaches
        ((nextStatement block (stores ++ [value]) none last σ').on K') c' ∧ P.Related c c' := by
  by_cases none : ds = []
  · subst none
    obtain ⟨rfl, rfl⟩ := stored.eq_of_nil
    obtain ⟨c', reach, related⟩ := h.expression law outer frames last
    exact ⟨_, c', .refl _, reach, related⟩
  · exact h.storing law stored none outer frames last

end Progress

/-! ### Steps -/

/-- The trees go hand in hand where they have one form. -/
def lockstep (P : Storing) (held : Held) : Lockstep :=
  Agree.lockstep P.s P.s' P.base held (P.Nodes held)

/-- A layer and one of its form are both stable or both not. -/
theorem isStable_eq (h : P.Unfolds held n n') : n.isStable = n'.isStable := by
  cases h with
  | @block os ps os' stores ds i value same =>
    show n.isStable = false
    rw [Node.isStable]
    generalize n.shape = shape at same
    generalize value.shape = shape' at same
    cases same <;> rfl
  | layer layer =>
    rw [Node.isStable, Node.isStable]
    generalize n.shape = shape at layer
    generalize n'.shape = shape' at layer
    cases layer with
    | unary same => cases same <;> rfl
    | operands same => cases same <;> rfl
    | _ => rfl

theorem Lawful.lockstep (law : P.Lawful) (held : Held) : (P.lockstep held).Lawful :=
  Agree.lawful law.waits law.records law.labels fun related ↦ isStable_eq (law.unfolds related)

/-- Corresponding moves lead to corresponding configurations. -/
theorem Related.of_moves {m m' : Move} (h : (P.lockstep held).Moves {} n n' m m')
    (layer : Layer (fun _ ↦ P.Nodes held) {} n.shape n'.shape)
    (old : ∀ id ∈ n.shape.ownSymbols, id.toNat < P.base) (outer : P.Stacks held n n' K K') :
    P.Related (m.on K) (m'.on K') := by
  cases h with
  | give outcomes frames yields => exact .leave outcomes yields outer frames
  | descend stages nodes sought frames =>
    exact .enter nodes sought (.layer layer old stages outer) frames

/-- Entering a node whose operands are stored. -/
theorem enter_block (law : P.Lawful) {all all' : List Node} {i : NodeId}
    (same : SameOperands n.shape value.shape all all') (stored : Stores ps ds stores all')
    (nodes : ∀ known : Held, (∀ p ∈ known, p.1 ∈ ds.map Variable.id) →
      List.Forall₂ (P.Nodes (known ++ held)) all ps)
    (distinct : (ds.map Variable.id).Nodup)
    (apart : ∀ id ∈ ds.map Variable.id, P.base ≤ id.toNat ∧ ∀ p ∈ held, p.1 ≠ id)
    (unlabelled : ∀ m ∈ stores ++ [value], ∀ label, P.s'.labels m label = false)
    (outer : P.Stacks held n ⟨i, .block ds (stores ++ [value])⟩ K K')
    (frames : Agree P.base held σ σ') : ∃ c c',
      (system P.s).Proceeds ⟨.enter n none, K, σ⟩ c ∧
      (system P.s').Proceeds ⟨.enter ⟨i, .block ds (stores ++ [value])⟩ none, K', σ'⟩ c' ∧
      P.Related c c' := by
  let block : Node := ⟨i, .block ds (stores ++ [value])⟩
  have visited := (frames.noted_left (s := P.s) (e := .visit n.id none) rfl).noted_right
    (s := P.s') (e := .visit i none) rfl
  obtain ⟨known, temporary, left, declared⟩ := visited.declare_right apart
  have progress : P.Progress held known (ds.map Variable.id) n block value [] all ps ds all' :=
    ⟨⟨[], [], same, .nil, List.forall_mem_nil _⟩, nodes, temporary,
      fun v member ↦ ⟨List.mem_map_of_mem member, left v member⟩, distinct, apart, unlabelled⟩
  obtain ⟨c, c', reach, reach', related⟩ := progress.proceeds law stored outer declared .unit
  have entered : next P.s ⟨.enter n none, K, σ⟩ =
      (nextOperand P.s n [] (unsought all) (noted P.s (.visit n.id none) σ)).on K := by
    show (enterNode P.s n none σ).on K = _
    rw [enterNode_operands P.s same]
  have entered' : next P.s' ⟨.enter block none, K', σ'⟩ = (nextStatement block (stores ++ [value])
      none .unit { noted P.s' (.visit i none) σ' with
        locals := (noted P.s' (.visit i none) σ').locals.declare ds }).on K' := rfl
  exact ⟨c, c', (Proceeds.of_next entered).trans_reaches reach,
    (Proceeds.of_next entered').trans_reaches reach', related⟩

/-- Leaving an operand that is stored. -/
theorem leave_storing (law : P.Lawful) {o p : Node} {temp : Variable} {i j : NodeId}
    (progress : P.Progress held known temps n block value done (o :: os) (p :: ps) (temp :: ds)
      (⟨j, .var temp⟩ :: os'))
    (rest : Stores ps ds stores os') (outer : P.Stacks held n block K K') {r r' : Outcome}
    (outcomes : EndsWithin P.base r r') (frames : Agree P.base (known ++ held) σ σ') : ∃ c c',
      (system P.s).Proceeds ⟨.leave r, ⟨n, .operands done (unsought os)⟩ :: K, σ⟩ c ∧
      (system P.s').Proceeds ⟨.leave r', ⟨⟨i, .assign temp p⟩, .operand⟩ ::
        ⟨block, .statements (stores ++ [value])⟩ :: K', σ'⟩ c' ∧ P.Related c c' := by
  let assign : Node := ⟨i, .assign temp p⟩
  let below : List Task := ⟨block, .statements (stores ++ [value])⟩ :: K'
  obtain ⟨_, _, same, -, -⟩ := progress.operands
  cases r with
  | error e =>
    -- An exit leaves the operand in both runs, and the block with the stores in one more step.
    obtain ⟨e', rfl⟩ := outcomes.of_error
    have left : next P.s ⟨.leave (.error e), ⟨n, .operands done (unsought os)⟩ :: K, σ⟩ =
        ⟨.leave (.error e), K, σ⟩ := rfl
    have left' : next P.s' ⟨.leave (.error e'), ⟨assign, .operand⟩ :: below, σ'⟩ =
        ⟨.leave (.error e'), below, σ'⟩ := rfl
    refine ⟨_, _, .of_next left, .trans (.of_next left')
      (.of_next (next_of_error P.s' e' _ progress.unlabelled)), ?_⟩
    exact .leave outcomes (Lockstep.yields_of_untold same.untold _ _) outer frames.forget
  | ok v =>
    cases outcomes
    -- The value is in the list of one run and in the variable of the other.
    obtain ⟨inside, value', found⟩ := progress.left temp List.mem_cons_self
    obtain ⟨new, apart⟩ := progress.apart temp.id inside
    have after := (frames.noted_right (s := P.s') (e := .store temp v) rfl).insert_right new apart v
    obtain ⟨c, c', reach, reach', related⟩ := (progress.store v).proceeds law rest outer after v
    have contains : σ'.locals.contains temp.id = true := by
      have holds := (frames.held _ (List.mem_append_left _ found)).2
      rw [Store.contains, holds]
      rfl
    have finished : finish P.s' assign v σ' = (.ok v, { noted P.s' (.store temp v) σ' with
        locals := (noted P.s' (.store temp v) σ').locals.insert temp.id v }) := by
      show (store P.s' temp v assign >>= fun _ ↦ pure v : Eval Value) σ' = _
      rw [bind_apply, store_apply, assigned?, if_pos contains, noted_locals]
      rfl
    have left : next P.s ⟨.leave (.ok v), ⟨n, .operands done (unsought os)⟩ :: K, σ⟩ =
        (nextOperand P.s n (done ++ [v]) (unsought os) σ).on K := rfl
    have stored : next P.s' ⟨.leave (.ok v), ⟨assign, .operand⟩ :: below, σ'⟩ =
        ⟨.leave (.ok v), below, { noted P.s' (.store temp v) σ' with
          locals := (noted P.s' (.store temp v) σ').locals.insert temp.id v }⟩ := by
      show (perform (finish P.s' assign v) σ').on below = _
      rw [perform, finished]
      rfl
    have passed : next P.s' ⟨.leave (.ok v), below, { noted P.s' (.store temp v) σ' with
        locals := (noted P.s' (.store temp v) σ').locals.insert temp.id v }⟩ =
        (nextStatement block (stores ++ [value]) none v { noted P.s' (.store temp v) σ' with
          locals := (noted P.s' (.store temp v) σ').locals.insert temp.id v }).on K' := rfl
    exact ⟨c, c', (Proceeds.of_next left).trans_reaches reach,
      ((Proceeds.of_next stored).trans (.of_next passed)).trans_reaches reach', related⟩

/-- Leaving an operand of the expression in the block. -/
theorem leave_applying (law : P.Lawful) {all all' : List Node}
    (same : SameOperands n.shape value.shape all all')
    (nodes : List.Forall₂ (P.Nodes (known ++ held)) os ps)
    (unlabelled : ∀ m ∈ statementsOf block, ∀ label, P.s'.labels m label = false)
    (outer : P.Stacks held n block K K') {r r' : Outcome}
    (outcomes : EndsWithin P.base r r') (frames : Agree P.base (known ++ held) σ σ') : ∃ c c',
      (system P.s).Proceeds ⟨.leave r, ⟨n, .operands done (unsought os)⟩ :: K, σ⟩ c ∧
      (system P.s').Proceeds ⟨.leave r', ⟨value, .operands done (unsought ps)⟩ ::
        ⟨block, .statements []⟩ :: K', σ'⟩ c' ∧ P.Related c c' := by
  cases r with
  | error e =>
    obtain ⟨e', rfl⟩ := outcomes.of_error
    have left : next P.s ⟨.leave (.error e), ⟨n, .operands done (unsought os)⟩ :: K, σ⟩ =
        ⟨.leave (.error e), K, σ⟩ := rfl
    have left' : next P.s' ⟨.leave (.error e'), ⟨value, .operands done (unsought ps)⟩ ::
        ⟨block, .statements []⟩ :: K', σ'⟩ =
        ⟨.leave (.error e'), ⟨block, .statements []⟩ :: K', σ'⟩ := rfl
    refine ⟨_, _, .of_next left, .trans (.of_next left')
      (.of_next (next_of_last P.s' _ unlabelled)), ?_⟩
    exact .leave outcomes (Lockstep.yields_of_untold same.untold _ _) outer frames.forget
  | ok v =>
    cases outcomes
    obtain ⟨c', reach, related⟩ := applies law same nodes unlabelled outer frames (done ++ [v])
    exact ⟨_, c', Proceeds.next _, (Proceeds.next _).trans_reaches reach, related⟩

/-- Corresponding configurations lead to corresponding ones. -/
theorem Related.step (law : P.Lawful) {c c' : Configuration} (h : P.Related c c')
    (finds : c.Finds P.s) (live : c.result? = none) : ∃ d d',
      (system P.s).Proceeds c d ∧ (system P.s').Proceeds c' d' ∧ P.Related d d' := by
  cases h with
  | @enter held n n' seek K K' σ σ' nodes sought tasks frames =>
    cases law.unfolds nodes with
    | layer layer old =>
      have moves := Lockstep.enter (law.lockstep held) layer old seek sought frames
      exact ⟨_, _, .next _, .next _, .of_moves moves layer old tasks⟩
    | block same stored children distinct apart unlabelled unlabelled' =>
      -- Nothing is sought in operands, for they hold no labels.
      obtain rfl : seek = none := by
        cases seek with
        | none => rfl
        | some label =>
          have holds := finds.control n _ rfl label rfl
          rcases law.passes nodes label holds with own | ⟨o, child, holds⟩
          · rw [same.ownLabels] at own
            cases own
          · rw [same.children] at child
            rw [unlabelled o child label] at holds
            cases holds
      exact enter_block law same stored children distinct apart unlabelled' tasks frames
  | @leave held n n' r r' K K' σ σ' outcomes yields tasks frames =>
    cases tasks with
    | nil => cases live
    | layer layer old stages outer =>
      have moves := Lockstep.leave (law.lockstep held) layer (fun _ ↦ old) stages outcomes frames
        yields
      exact ⟨_, _, .next _, .next _, .of_moves moves layer old outer⟩
    | storing progress rest outer => exact leave_storing law progress rest outer outcomes frames
    | applying same nodes unlabelled outer =>
      exact leave_applying law same nodes unlabelled outer outcomes frames

variable (P) in
/-- Both evaluations come by corresponding configurations again and again. -/
theorem simulation (law : P.Lawful) {root : Node} {σ : Frame}
    (passes : ∀ n ∈ root.walk, PassesOn P.s n) :
    Simulation (system P.s) (system P.s')
      (fun c d ↦ P.Related c d ∧ (system P.s).Reaches (start root none σ) c)
      fun x x' ↦ EndsWithin P.base x.1 x'.1 ∧ Agree P.base [] x.2 x'.2 where
  step {c d} related live := by
    obtain ⟨related, reach⟩ := related
    obtain ⟨c', d', next, next', related'⟩ := related.step law (finds_of_reaches passes reach) live
    exact ⟨c', d', next, next', related', reach.trans next.reaches⟩
  ended {c d r} related ended := by
    cases related.1 with
    | enter => cases ended
    | leave outcomes yields tasks frames =>
      cases tasks with
      | nil =>
        cases ended
        exact ⟨_, .of_result rfl, outcomes, frames⟩
      | layer => cases ended
      | storing => cases ended
      | applying => cases ended
  live {c d} related live := by
    cases related.1 with
    | enter => rfl
    | leave outcomes yields tasks frames =>
      cases tasks with
      | nil => cases live
      | layer => rfl
      | storing => rfl
      | applying => rfl

end Storing

/-- Two evaluations end together, and alike: up to the place of a fault in the same way, in frames
that agree on variables whose numbers are below a bound. -/
structure EvaluatesLike (base : Nat) (s s' : Setting) (n n' : Node) (σ σ' : Frame) : Prop where
  forth : ∀ {fuel : Nat} {r : Outcome} {τ : Frame}, eval s fuel n none σ = (r, τ) →
    r ≠ .error (.stop .outOfFuel) → ∃ r' τ', (∃ N, ∀ f ≥ N, eval s' f n' none σ' = (r', τ')) ∧
      Storing.EndsAlike r r' ∧ Agree base [] τ τ'
  back : ∀ {fuel : Nat} {r' : Outcome} {τ' : Frame}, eval s' fuel n' none σ' = (r', τ') →
    r' ≠ .error (.stop .outOfFuel) → ∃ r τ, (∃ N, ∀ f ≥ N, eval s f n none σ = (r, τ)) ∧
      Storing.EndsAlike r r' ∧ Agree base [] τ τ'

section

variable {P : Storing} (law : P.Lawful) {root root' : Node}
  (passes : ∀ n ∈ root.walk, PassesOn P.s n) (nodes : P.Nodes [] root root') {σ σ' : Frame}
  (frames : Agree P.base [] σ σ')

include nodes frames in
theorem Storing.related_start : P.Related (start root none σ) (start root' none σ') ∧
    (system P.s).Reaches (start root none σ) (start root none σ) :=
  ⟨.enter nodes Lockstep.none_sought (.nil root root') frames, .refl _⟩

include law passes nodes frames

/-- If the first of two trees that correspond is left, so is the second. -/
theorem Storing.ends {fuel : Nat} {r : Outcome} {τ : Frame}
    (run : eval P.s fuel root none σ = (r, τ)) (enough : r ≠ .error (.stop .outOfFuel)) :
    ∃ r' τ', (∃ N, ∀ f ≥ N, eval P.s' f root' none σ' = (r', τ')) ∧
      EndsWithin P.base r r' ∧ Agree P.base [] τ τ' := by
  obtain ⟨⟨r', τ'⟩, ends, alike⟩ :=
    (P.simulation law passes).ends (related_start nodes frames) (ends_of_eval run enough)
  exact ⟨r', τ', eval_of_ends ends, alike⟩

/-- Trees that correspond are evaluated alike. -/
theorem Storing.evaluatesLike : EvaluatesLike P.base P.s P.s' root root' σ σ' := by
  refine ⟨fun run enough ↦ ?_, fun run enough ↦ ?_⟩
  · obtain ⟨r', τ', ends, within, after⟩ := Storing.ends law passes nodes frames run enough
    exact ⟨r', τ', ends, within.alike, after⟩
  · obtain ⟨⟨r, τ⟩, ends, within, after⟩ := (P.simulation law passes).ends_of_ends
      (related_start nodes frames) (ends_of_eval run enough)
    exact ⟨r, τ, eval_of_ends ends, within.alike, after⟩

end

end Steps

end Suspension
