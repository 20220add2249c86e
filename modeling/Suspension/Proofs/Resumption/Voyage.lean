import Suspension.Proofs.Resumption.Clear
import Suspension.Proofs.Steps.Finding
import Suspension.Proofs.Steps.Questions

/-!
# On the way to a suspend point

Between the start of a resumed body and the label where it goes on, little happens: nodes are
visited, jumps are made, and both copies of the state go back to running. `Voyage.At` says so of a
frame on the way, of all that was recorded included.
-/

namespace Suspension

open Steps Eval

/-- An operand that comes to a value whenever it is evaluated. -/
def Reread (keeps : SymbolId → Prop) (slots : SymbolId → Option Value) (o : Node) (v : Value) :
    Prop :=
  match o.shape with
  | .const value => v = value.value
  | .defaultOf ty => v = ty.defaultValue
  | .var w => keeps w.id ∧ slots w.id = some v
  | _ => False

/-- A node that asks a variable for the outcome of its awaiter, as suspend points do. -/
def Node.AsksVariable (n : Node) : Prop :=
  ∃ i v, n.shape = .awaiter .getResult ⟨i, .var v⟩

/-- A node on the way to a suspend point: it neither asks the awaiter in a variable anything nor
leads out of the body. -/
structure Node.Idle (c : Contract) (n : Node) : Prop where
  asks : ∀ step i v, n.shape ≠ .awaiter step ⟨i, .var v⟩
  stays : ¬ n.Departs c

theorem Node.Idle.not_asksVariable {c : Contract} {n : Node} (h : n.Idle c) : ¬ n.AsksVariable :=
  fun ⟨_, _, shape⟩ ↦ h.asks _ _ _ shape

theorem Node.Idle.not_asks {c : Contract} {n : Node} (h : n.Idle c) (v : Variable) : ¬ n.Asks v :=
  fun ⟨_, shape⟩ ↦ h.asks _ _ _ shape

/-- Whether a node is on the way by its form alone. -/
def Node.isIdle (n : Node) : Bool :=
  match n.shape with
  | .awaiter _ _ => false
  | .block _ [_, _, _] => false
  | _ => true

theorem Node.Idle.of_form {c : Contract} {n : Node} (h : n.isIdle = true) : n.Idle c where
  asks _ _ _ shape := by
    rw [isIdle, shape] at h
    cases h
  stays suspends := by
    obtain ⟨_, _, _, shape⟩ := suspends.shape
    rw [isIdle, shape] at h
    cases h

/-- What may happen on the way to a suspend point: nodes are visited, but not to ask for an outcome,
jumps are made, and the state goes back to running. -/
def Quiet (c : Contract) (root : Node) : Event → Prop
  | .visit i _ => ∀ n ∈ root.walk, n.id = i → ¬ n.AsksVariable
  | .store v value => v = c.localState ∨ v = c.state ∧ value = .int running
  | .exit e => ∃ l, e = .jump l
  | _ => False

/-- A run that starts in a state other than running. -/
structure Voyage where
  s : Setting
  c : Contract
  root : Node
  /-- The variables that operands in front of suspend points are read from. -/
  keeps : SymbolId → Prop
  /-- The variables that hold outcomes of suspend points. -/
  results : SymbolId → Prop
  state : Int64
  /-- The frame at the start. -/
  origin : Frame

namespace Voyage

variable (V : Voyage)

/-- What holds of every body that was lowered, and of the storage it is run on. -/
structure Lawful : Prop where
  distinct : V.root.ids.Nodup
  labels : ∀ n ∈ V.root.walk, ∀ l, V.s.labels n l = n.labelsWithin.contains l
  apart : V.c.state.id ≠ V.c.localState.id
  stateFree : ¬ V.results V.c.state.id
  localFree : ¬ V.results V.c.localState.id
  kept : ∀ id, V.keeps id → ¬ V.results id ∧ id ≠ V.c.localState.id ∧ id ≠ V.c.state.id

/-- A moment on the way. -/
structure OnWay (m : Moment) : Prop where
  event : Quiet V.c V.root m.event
  visit : ∀ {i seek}, m.event = .visit i seek → ∀ n ∈ V.root.walk, n.id = i → n.Idle V.c
  state : m.persisted.get? V.c.state.id = some (.int V.state) ∨
    m.persisted.get? V.c.state.id = some (.int running)
  others : ∀ id, id ≠ V.c.state.id → m.persisted.get? id = V.origin.persisted.get? id

/-- A frame on the way, with what the two copies of the state hold. -/
structure At (outer inner : Int64) (σ : Frame) : Prop where
  state : σ.persisted.get? V.c.state.id = some (.int outer)
  localState : σ.locals.get? V.c.localState.id = some (.int inner)
  whole : outer = V.state ∨ outer = running
  persisted : ∀ id, id ≠ V.c.state.id → σ.persisted.get? id = V.origin.persisted.get? id
  locals : ∀ id, id ≠ V.c.localState.id → ¬ V.results id → σ.locals.get? id = none
  host : σ.host = V.origin.host
  handling : σ.handling = V.origin.handling
  awaiters : σ.awaiters = V.origin.awaiters
  moments : ∃ new, σ.moments = new ++ V.origin.moments ∧ ∀ m ∈ new, V.OnWay m

namespace At

variable {V} {outer inner : Int64} {σ : Frame}

/-- Noting an event that is allowed. -/
theorem note (h : V.At outer inner σ) {e : Event} (allowed : Quiet V.c V.root e)
    (visit : ∀ {i seek}, e = .visit i seek → ∀ n ∈ V.root.walk, n.id = i → n.Idle V.c) :
    V.At outer inner (noted V.s e σ) := by
  refine ⟨by rw [noted_persisted, h.state], by rw [noted_locals, h.localState], h.whole,
    by rw [noted_persisted]; exact h.persisted, by rw [noted_locals]; exact h.locals,
    by rw [noted_host, h.host], by rw [noted_handling, h.handling],
    by rw [noted_awaiters, h.awaiters], ?_⟩
  obtain ⟨new, eq, onWay⟩ := h.moments
  rw [noted]
  split
  · refine ⟨⟨e, σ.persisted, σ.locals⟩ :: new, by rw [eq]; rfl, fun m member ↦ ?_⟩
    rcases List.mem_cons.1 member with rfl | member
    · refine ⟨allowed, visit, ?_, h.persisted⟩
      rcases h.whole with rfl | rfl
      · exact .inl h.state
      · exact .inr h.state
    · exact onWay m member
  · exact ⟨new, eq, onWay⟩

/-- Visiting a node. -/
theorem visit (law : V.Lawful) (h : V.At outer inner σ) {n : Node} (within : n ∈ V.root.walk)
    (idle : n.Idle V.c) (seek : Option SymbolId) :
    V.At outer inner (noted V.s (.visit n.id seek) σ) := by
  refine h.note (fun m member same ↦ ?_) fun eq m member same ↦ ?_
  · rw [List.inj_on_of_nodup_map law.distinct member within same]
    exact idle.not_asksVariable
  · obtain ⟨rfl, -⟩ := Event.visit.inj eq
    rw [List.inj_on_of_nodup_map law.distinct member within same]
    exact idle

/-- Declaring variables for outcomes. -/
theorem declare (law : V.Lawful) (h : V.At outer inner σ) {vs : List Variable}
    (results : ∀ v ∈ vs, V.results v.id) :
    V.At outer inner { σ with locals := σ.locals.declare vs } := by
  have others {id : SymbolId} (free : ¬ V.results id) : id ∉ vs.map Variable.id := by
    intro member
    obtain ⟨v, inside, rfl⟩ := List.mem_map.1 member
    exact free (results v inside)
  refine ⟨h.state, ?_, h.whole, h.persisted, fun id notLocal free ↦ ?_, h.host, h.handling,
    h.awaiters, h.moments⟩
  · rw [Store.get?_declare_of_notMem (others law.localFree), h.localState]
  · rw [Store.get?_declare_of_notMem (others free), h.locals id notLocal free]

/-- Setting the copy of the state inside. -/
theorem setLocal (h : V.At outer inner σ) (q : Int64) :
    ∃ σ', assigned? V.s V.c.localState (.int q) σ = some σ' ∧ V.At outer q σ' := by
  have has : σ.locals.contains V.c.localState.id = true := by
    rw [Store.contains, h.localState]
    rfl
  have told := h.note (e := .store V.c.localState (.int q)) (.inl rfl) (by rintro _ _ ⟨⟩)
  refine ⟨{ noted V.s (.store V.c.localState (.int q)) σ with
    locals := σ.locals.insert V.c.localState.id (.int q) }, by rw [assigned?, if_pos has],
    told.state, ?_, told.whole, told.persisted, fun id notLocal free ↦ ?_, told.host,
    told.handling, told.awaiters, told.moments⟩
  · rw [Store.get?_insert, if_pos rfl]
  · rw [Store.get?_insert, if_neg notLocal, h.locals id notLocal free]

/-- Setting the state back. -/
theorem setState (law : V.Lawful) (h : V.At outer inner σ) :
    ∃ σ', assigned? V.s V.c.state (.int running) σ = some σ' ∧ V.At running inner σ' := by
  have free : σ.locals.contains V.c.state.id = false := by
    rw [Store.contains, h.locals _ law.apart law.stateFree]
    rfl
  have has : σ.persisted.contains V.c.state.id = true := by
    rw [Store.contains, h.state]
    rfl
  have told := h.note (e := .store V.c.state (.int running)) (.inr ⟨rfl, rfl⟩)
    (by rintro _ _ ⟨⟩)
  refine ⟨{ noted V.s (.store V.c.state (.int running)) σ with
    persisted := σ.persisted.insert V.c.state.id (.int running) },
    by rw [assigned?, free, if_neg (by decide), if_pos has], ?_, told.localState, .inr rfl,
    fun id other ↦ ?_, told.locals, told.host, told.handling, told.awaiters, told.moments⟩
  · rw [Store.get?_insert, if_pos rfl]
  · rw [Store.get?_insert, if_neg other, h.persisted id other]

/-- The copy of the state inside. -/
theorem lookup_localState (h : V.At outer inner σ) :
    lookup σ V.c.localState.id = some (.int inner) := by
  rw [lookup, h.localState]

/-- The state outside. -/
theorem lookup_state (law : V.Lawful) (h : V.At outer inner σ) :
    lookup σ V.c.state.id = some (.int outer) := by
  rw [lookup, h.locals _ law.apart law.stateFree, h.state]

/-- What an operand that is read again comes to. -/
theorem lookup_kept (law : V.Lawful) (h : V.At outer inner σ) {id : SymbolId} (kept : V.keeps id) :
    lookup σ id = V.origin.persisted.get? id := by
  obtain ⟨notResult, notLocal, notState⟩ := law.kept id kept
  rw [lookup, h.locals id notLocal notResult, h.persisted id notState]

end At

end Voyage

end Suspension
