import Suspension.Proofs.Layout
import Suspension.Proofs.Resumption.Track
import Suspension.Proofs.Steps.Adequacy

/-!
# Arriving at a suspend point

There is a track to every suspend point of a lowered body (`Twin.track`), so a body that is entered
in a state other than running comes to the label of the suspend point with that state, and to the
question for its outcome (`Layout.arrives`).
-/

namespace Suspension

open Steps Eval TransitionSystem

/-! ### A track to every suspend point -/

section Tracks

variable {keeps : SymbolId → Prop} {slots : SymbolId → Option Value} {c : Contract}

/-- An operand that is kept is expanded to itself. -/
theorem Twin.shape_of_kept {p e : Node} {X : Added} (h : Twin keeps c p e X) (kept : p.Kept keeps) :
    e.shape = p.shape := by
  cases h with
  | same x => cases x <;> first | rfl | exact kept.elim
  | _ => exact kept.elim

/-- Operands that are kept can be read again where what is kept has values. -/
theorem Node.Kept.reread {n : Node} (h : n.Kept keeps)
    (filled : ∀ id, keeps id → ∃ v, slots id = some v) : ∃ v, Reread keeps slots n v := by
  obtain ⟨i, sh⟩ := n
  cases sh with
  | const value => exact ⟨_, rfl⟩
  | defaultOf ty => exact ⟨_, rfl⟩
  | var w =>
    obtain ⟨v, slot⟩ := filled w.id h
    exact ⟨v, h, slot⟩
  | _ => exact h.elim

theorem exists_forall₂ {α β : Type} {R : α → β → Prop} {as : List α} (h : ∀ a ∈ as, ∃ b, R a b) :
    ∃ bs, List.Forall₂ R as bs := by
  induction as with
  | nil => exact ⟨[], .nil⟩
  | cons a as ih =>
    obtain ⟨b, head⟩ := h a List.mem_cons_self
    obtain ⟨bs, tail⟩ := ih fun a' member ↦ h a' (List.mem_cons_of_mem a member)
    exact ⟨b :: bs, .cons head tail⟩

/-- Seeking enters any child of a layer beneath which there are suspend points. -/
theorem Opens.exists {i' : NodeId} {x : Shape (Node × Node × Added)} {y : Node × Node × Added}
    (below : ∀ y ∈ x.children, Twin keeps c y.1 y.2.1 y.2.2) (kind : x.kind ≠ .await)
    (closed : x.kind = .region ∨ x.kind = .lock → ∀ y ∈ x.children, y.2.2.table = [])
    (undeclared : x.declared ≠ [] → ∀ y ∈ x.children, y.2.2.table = [])
    (kept : ∀ {before y after}, x.operands = before ++ y :: after → y.2.2.table ≠ [] →
      ∀ z ∈ before, z.1.Kept keeps)
    (filled : ∀ id, keeps id → ∃ v, slots id = some v) (member : y ∈ x.children)
    (suspends : y.2.2.table ≠ []) : ∃ st, Opens keeps slots ⟨i', x.map (·.2.1)⟩ y.2.1 st := by
  -- Operands in front of one that suspends are kept, and so have values to be read again.
  have operands (inside : y ∈ x.operands) : ∃ before after done,
      x.operands.map (·.2.1) = before ++ y.2.1 :: after ∧
        List.Forall₂ (Reread keeps slots) before done := by
    obtain ⟨before, after, split⟩ := List.append_of_mem inside
    have reread : ∀ o ∈ before.map (·.2.1), ∃ v, Reread keeps slots o v := by
      refine List.forall_mem_map.2 fun z among ↦ ?_
      have keep := kept split suspends z among
      have child : z ∈ x.children := Shape.mem_operands (by rw [split]; simp [among])
      exact (keep.of_shape ((below z child).shape_of_kept keep)).reread filled
    obtain ⟨done, values⟩ := exists_forall₂ reread
    exact ⟨_, after.map (·.2.1), done, by rw [split, List.map_append, List.map_cons], values⟩
  have arms {n : Node} {test : Node} {others : List (Node × Node × Added)}
      (notLock : n.kind ≠ .lock) (tests : testOf n = some test)
      (all : armsOf n = others.map (·.2.1))
      (inside : test = y.2.1 ∨ y ∈ others) : ∃ st, Opens keeps slots n y.2.1 st := by
    rcases inside with rfl | inside
    · exact ⟨.test, .test tests⟩
    · obtain ⟨before, after, split⟩ :=
        List.append_of_mem (List.mem_map_of_mem (f := (·.2.1)) inside)
      exact ⟨.arm, .arm notLock (all.trans split)⟩
  cases x with
  | block declared ns =>
    have none : declared = [] := by
      by_contra some
      exact suspends (undeclared some y member)
    subst none
    obtain ⟨before, after, split⟩ := List.append_of_mem (List.mem_map_of_mem (f := (·.2.1)) member)
    exact ⟨_, .statements (congrArg (Shape.block []) split)⟩
  | region body cs cleanup fault => exact absurd (closed (.inl rfl) y member) suspends
  | lock guard body => exact absurd (closed (.inr rfl) y member) suspends
  | await => exact absurd rfl kind
  | loop body breakLabel continueLabel =>
    cases List.mem_singleton.1 member
    exact ⟨_, .round rfl⟩
  | switch value cs otherwise =>
    refine @arms _ _ (cs.map Case.body ++ otherwise.toList) (by rintro ⟨⟩) rfl ?_ ?_
    · simp [armsOf, Node.shape, Shape.map, Option.toList_map, Case.map, Function.comp_def]
    · exact (List.mem_cons.1 member).imp_left fun eq ↦ congrArg (·.2.1) eq.symm
  | branch test yes no =>
    refine @arms _ _ (yes :: no.toList) (by rintro ⟨⟩) rfl ?_ ?_
    · simp [armsOf, Node.shape, Shape.map, Option.toList_map]
    · exact (List.mem_cons.1 member).imp_left fun eq ↦ congrArg (·.2.1) eq.symm
  | awaiter q o =>
    cases List.mem_singleton.1 member
    exact ⟨_, .operand (.awaiter _ _ _) (by rintro ⟨⟩)⟩
  | assign target o =>
    cases List.mem_singleton.1 member
    exact ⟨_, .operand (.assign _ _ _) (by rintro ⟨⟩)⟩
  | unary op o =>
    cases List.mem_singleton.1 member
    exact ⟨_, .operand (.unary _ _ _) (by rintro ⟨⟩)⟩
  | ret value =>
    obtain rfl := Option.mem_toList.1 member
    exact ⟨_, .operand (.ret _ _) (by rintro ⟨⟩)⟩
  | raise value =>
    obtain rfl := Option.mem_toList.1 member
    exact ⟨_, .operand (.raise _ _) (by rintro ⟨⟩)⟩
  | binary op l r =>
    obtain ⟨before, after, done, split, values⟩ := operands member
    refine ⟨_, @Opens.operands _ _ _ _ _ after _ ?_ values⟩
    rw [← split]
    exact .binary op _ _ _ _
  | call callee args =>
    obtain ⟨before, after, done, split, values⟩ := operands member
    refine ⟨_, @Opens.operands _ _ _ _ _ after _ ?_ values⟩
    rw [← split]
    exact .call callee _ _ rfl
  | _ => cases member

/-- A place in an expansion where a suspend point is. -/
structure PointAt (keeps : SymbolId → Prop) (slots : SymbolId → Option Value) (c : Contract)
    (p₀ e₀ : Node) (X₀ : Added) (i : Int64) where
  settled : Node
  node : Node
  operand : Node
  acquire : Option String
  point : Point
  entry : Node
  inner : Added
  tasks : List Steps.Task
  track : Track keeps slots c p₀ e₀ X₀ settled node (inner ++ .ofPoint point entry) tasks
  isPoint : IsPoint c acquire point operand node
  isReturn : IsReturn c point.label entry
  state : Int64.ofNat point.index = i

/-- At a suspend point, a state is its own or belongs to a suspend point in its operand. -/
theorem Track.point {p₀ e₀ p e : Node} {X₀ X : Added} {K : List Steps.Task}
    {acquire : Option String}
    {q : Point} {p' o entry : Node} {i : Int64}
    (track : Track keeps slots c p₀ e₀ X₀ p e (X ++ .ofPoint q entry) K)
    (isPoint : IsPoint c acquire q o e) (isReturn : IsReturn c q.label entry)
    (operand : Twin keeps c p' o X)
    (inner : ∀ {K}, Track keeps slots c p₀ e₀ X₀ p' o X K → i ∈ X.table.flatMap Case.tests →
      Nonempty (PointAt keeps slots c p₀ e₀ X₀ i))
    (inside : i ∈ (X ++ .ofPoint q entry).table.flatMap Case.tests) :
    Nonempty (PointAt keeps slots c p₀ e₀ X₀ i) := by
  rw [Added.append_table, List.flatMap_append, List.mem_append] at inside
  rcases inside with inside | here
  · obtain ⟨ts, tasks⟩ : ∃ ts, OperandTasks acquire o e ts := by
      cases isPoint
      exact ⟨_, .mk _ _ _ _ _ _⟩
    exact inner (.operand track isPoint operand tasks) inside
  · have state : i = Int64.ofNat q.index := by simpa [Added.ofPoint] using here
    exact ⟨⟨p, e, o, acquire, q, entry, X, K, track, isPoint, isReturn, state.symm⟩⟩

/-- There is a track to the suspend point of every state. -/
theorem Twin.track {p₀ e₀ p e : Node} {X₀ X : Added} {K : List Steps.Task} (h : Twin keeps c p e X)
    (filled : ∀ id, keeps id → ∃ v, slots id = some v)
    (track : Track keeps slots c p₀ e₀ X₀ p e X K) {i : Int64}
    (inside : i ∈ X.table.flatMap Case.tests) : Nonempty (PointAt keeps slots c p₀ e₀ X₀ i) := by
  induction h generalizing K with
  | @same j j' x below kind closed undeclared kept ih =>
    obtain ⟨case, member, selects⟩ := List.mem_flatMap.1 inside
    obtain ⟨Y, among, member⟩ := List.mem_flatMap.1 member
    obtain ⟨y, child, rfl⟩ := List.mem_map.1 among
    obtain ⟨st, opens⟩ := Opens.exists below kind closed undeclared kept filled child
      (List.ne_nil_of_mem member)
    exact ih y child (.layer track (below y child) child opens)
      (List.mem_flatMap.2 ⟨case, member, selects⟩)
  | point operand isPoint isReturn interest ih =>
    exact track.point isPoint isReturn operand ih inside
  | unitPoint operand isPoint isReturn interest ih =>
    exact track.point isPoint isReturn operand ih inside
  | @region _ _ _ _ body' body e X entry cs cleanup fault cleanup' fault' bodies suspends clauses
      parts guarded guarded' entered ih =>
    obtain ⟨ts, tasks⟩ : ∃ ts, BodyTasks body e ts := by
      cases entered
      exact ⟨_, .mk _ _ _ _ _ _ _ _⟩
    refine ih (.body track entered bodies tasks) ?_
    simpa [Added.ofRegion] using inside

end Tracks

/-! ### From the label to the question for the outcome -/

/-- Where a suspend point goes on: its label, and the question for the outcome that follows. -/
structure GoesOn (p : Point) (n label question : Node) : Prop where
  isLabel : label.shape = .label p.label
  asks : ∃ k, question.shape = .awaiter .getResult ⟨k, .var p.awaiter⟩
  follows : ∃ declared before outcome after,
    n.shape = .block declared (before ++ label :: outcome :: after) ∧ question ∈ outcome.walk

/-- A suspend point whose label is sought asks for the outcome of its awaiter. -/
theorem IsPoint.arrives {V : Voyage} {acquire : Option String} {p : Point} {o e : Node}
    {q : Int64} {σ : Frame} {K : List Steps.Task} (law : V.Lawful)
    (isPoint : IsPoint V.c acquire p o e) (within : e ∈ V.root.walk)
    (declared : ∀ v ∈ e.shape.declared, V.results v.id)
    (once : e.labelsWithin.count p.label.id = 1) (here : V.At q q σ) :
    ∃ label question, GoesOn p e label question ∧ ∃ σ' K', V.At q q σ' ∧
      (V.s.records = true → ∃ m ∈ σ'.moments, m.event = .visit label.id (some p.label.id)) ∧
      (system V.s).Reaches ⟨.enter e (some p.label.id), K, σ⟩ ⟨.enter question none, K', σ'⟩ := by
  cases isPoint with
  | @mk i i₁ i₂ i₃ i₄ i₅ i₆ i₇ i₈ i₉ i₁₀ suspend outcome run suspension outcomes update =>
    let acquired : Node := ⟨i₁, .assign p.awaiter ⟨i₂, Expand.acquireShape acquire o⟩⟩
    let test : Node := ⟨i₃,
      .branch ⟨i₄, .unary .not ⟨i₅, .awaiter .isCompleted ⟨i₆, .var p.awaiter⟩⟩⟩ suspend none⟩
    let label : Node := ⟨i₇, .label p.label⟩
    let rest : List Node := [outcome, ⟨i₈, .assign p.awaiter ⟨i₉, .defaultOf .any⟩⟩, run,
      ⟨i₁₀, p.valueShape⟩]
    let e : Node := ⟨i, .block p.result.toList ([acquired, test] ++ label :: rest)⟩
    have child {m : Node} (member : m ∈ [acquired, test] ++ label :: rest) : m ∈ V.root.walk :=
      Node.mem_children_walk (m := e) member within
    have within₁ : label ∈ V.root.walk := child (by simp)
    have within₂ : outcome ∈ V.root.walk := child (by simp [rest])
    have inside : p.label.id ∈ label.labelsWithin := List.mem_cons_self
    have found : V.s.labels label p.label.id = true := by
      rw [law.labels label within₁]
      exact List.contains_iff_mem.2 inside
    -- The label is defined once beneath the block, so nothing in front of it holds it.
    have free : ∀ m ∈ [acquired, test], V.s.labels m p.label.id = false := by
      intro m member
      rw [law.labels m (child (List.mem_append_left _ member))]
      refine Bool.eq_false_iff.2 fun some ↦ ?_
      exact (Node.sole_beside (n := e) once rfl inside).2 m (List.mem_append_left _ member)
        (List.contains_iff_mem.1 some)
    have first := (here.visit law within (.of_form rfl)
      (some p.label.id)).declare law declared
    have second := first.visit law within₁ (.of_form rfl) (some p.label.id)
    have seen (σ : Frame) (records : V.s.records = true) :
        ∃ m ∈ (noted V.s (.visit label.id (some p.label.id)) σ).moments,
          m.event = .visit label.id (some p.label.id) := by
      rw [noted, if_pos records]
      exact ⟨_, List.mem_cons_self, rfl⟩
    have reach : (system V.s).Reaches ⟨.enter e (some p.label.id), K, σ⟩ _ :=
      (reaches_sought (K := K) (σ := σ) rfl free found).trans
        ((reaches_value rfl).trans (reaches_sibling rfl))
    cases outcomes with
    | dropped j k result =>
      exact ⟨label, _, ⟨rfl, ⟨k, rfl⟩, _, [acquired, test], _, _, rfl, Node.mem_walk_self _⟩, _, _,
        second, seen _, reach⟩
    | @kept i' j k v result =>
      have third := second.visit law within₂ (.of_form rfl) none
      refine ⟨label, _, ⟨rfl, ⟨k, rfl⟩, _, [acquired, test], _, _, rfl,
        Node.mem_children_walk List.mem_cons_self (Node.mem_walk_self _)⟩, _, _, third, ?_,
        reach.trans (reaches_child rfl)⟩
      intro records
      obtain ⟨m, member, event⟩ := seen _ records
      refine ⟨m, ?_, event⟩
      rw [noted, if_pos records]
      exact List.mem_cons_of_mem _ member

/-! ### From the start to the suspend point -/

namespace Layout

variable {l : Lowered} (L : Layout l)

/-- A run of a lowered body in a state other than running. -/
def voyage (records : Bool) (store : Store) (host : Host) (i : Int64) : Voyage where
  s := { labels := LabelIndex.build l.body, records }
  c := l.contract
  root := l.body
  keeps := l.keeps
  results id := id ∈ L.added.results.map Variable.id
  state := i
  origin := { persisted := store, host }

variable {records : Bool} {store : Store} {host : Host} {i : Int64}

theorem lawful : (L.voyage records store host i).Lawful := by
  have names := L.names
  rw [List.nodup_append] at names
  obtain ⟨contract, -, beside⟩ := names
  have results {id : SymbolId} (inside : id ∈ L.added.results.map Variable.id) :
      id ∈ L.added.names :=
    List.mem_append_left _ (List.mem_append_right _ inside)
  have state : l.contract.state.id ∈ l.contract.names := by simp [Contract.names]
  have localState : l.contract.localState.id ∈ l.contract.names := by simp [Contract.names]
  refine ⟨L.ids, fun n within label ↦ LabelIndex.build_contains L.ids within label, ?_,
    fun inside ↦ ?_, fun inside ↦ ?_, fun id kept ↦ ⟨fun inside ↦ ?_, ?_, ?_⟩⟩
  · simp only [Contract.names, List.nodup_cons, List.mem_cons, not_or] at contract
    exact contract.1.1
  · exact beside _ state _ (results inside) rfl
  · exact beside _ localState _ (results inside) rfl
  · exact L.apart id (List.mem_append_right _ (results inside)) (L.keeps_symbols kept)
  · rintro rfl
    exact L.apart _ (List.mem_append_left _ localState) (L.keeps_symbols kept)
  · rintro rfl
    exact L.apart _ (List.mem_append_left _ state) (L.keeps_symbols kept)

/-- The tasks of a lowered body that wait for the expanded one. -/
inductive OuterTasks (e : Node) : Node → List Steps.Task → Prop
  | mk (i j : NodeId) (declared : List Variable) (load dispatch exit : Node) :
    OuterTasks e ⟨i, .block declared [load, dispatch, ⟨j, .ret (some e)⟩, exit]⟩
      [⟨⟨j, .ret (some e)⟩, .operand⟩,
        ⟨⟨i, .block declared [load, dispatch, ⟨j, .ret (some e)⟩, exit]⟩, .statements [exit]⟩]

/-- The frame where a body declares its variables. -/
def visited (s : Setting) (i : NodeId) (store : Store) (host : Host) : Frame :=
  noted s (.visit i none) { persisted := store, host }

/-- The frame of a body that has started. -/
theorem started (records : Bool) (host : Host)
    (slot : store.get? l.contract.state.id = some (.int i)) :
    (L.voyage records store host i).At i 0
      { visited (L.voyage records store host i).s l.body.id store host with
        locals := (visited (L.voyage records store host i).s l.body.id store host).locals.declare
          [l.contract.localState] } := by
  have others {id : SymbolId} (other : id ≠ l.contract.localState.id) :
      id ∉ [l.contract.localState].map Variable.id := by simpa using other
  refine ⟨?_, ?_, .inl rfl, fun id other ↦ ?_, fun id other _ ↦ ?_, noted_host ..,
    noted_handling .., noted_awaiters .., ?_⟩
  · rw [visited, noted_persisted]
    exact slot
  · rw [visited, noted_locals]
    change (({} : Store).declare [l.contract.localState]).get? l.contract.localState.id = _
    rw [Store.declare_cons, Store.declare, List.foldl_nil, Store.get?_insert, if_pos rfl,
      L.localState]
    rfl
  · rw [visited, noted_persisted]
    rfl
  · rw [visited, noted_locals, Store.get?_declare_of_notMem (others other)]
    rfl
  · rw [visited, noted]
    split
    · refine ⟨[⟨.visit l.body.id none, store, {}⟩], rfl, fun m member ↦ ?_⟩
      cases List.mem_singleton.1 member
      have idle : l.body.Idle l.contract := by
        have assembled := L.assembled
        generalize l.body = n at assembled
        cases assembled
        exact .of_form rfl
      refine ⟨fun n within same ↦ ?_, fun eq n within same ↦ ?_, .inl slot, fun _ _ ↦ rfl⟩
      · rw [List.inj_on_of_nodup_map L.ids within (Node.mem_walk_self l.body) same]
        exact idle.not_asksVariable
      · obtain ⟨rfl, -⟩ := Event.visit.inj eq
        rw [List.inj_on_of_nodup_map L.ids within (Node.mem_walk_self l.body) same]
        exact idle
    · exact ⟨[], rfl, List.forall_mem_nil _⟩

/-- A run of a lowered body comes to the dispatch, with its state loaded. -/
theorem loads (records : Bool) (host : Host)
    (slot : store.get? l.contract.state.id = some (.int i)) {declared : List Variable}
    {load dispatch leave exit : Node}
    (shape : l.body.shape = .block declared [load, dispatch, leave, exit]) :
    ∃ σ, (L.voyage records store host i).At i i σ ∧
      (system (L.voyage records store host i).s).Reaches
      (start l.body none { persisted := store, host })
      ⟨.enter dispatch none, [⟨l.body, .statements [leave, exit]⟩], σ⟩ := by
  let V : Voyage := L.voyage records store host i
  have law : V.Lawful := L.lawful
  have first := L.started records host slot
  obtain ⟨root, isRoot, assembled⟩ :
      ∃ n, n = l.body ∧ IsAssembled l.contract L.expanded L.added.table n := ⟨_, rfl, L.assembled⟩
  rw [← isRoot] at first shape ⊢
  have within : root ∈ V.root.walk := isRoot ▸ Node.mem_walk_self l.body
  cases assembled with
  | mk i₀ i₁ i₂ i₃ i₄ i₅ i₆ i₇ =>
    cases shape
    have within₁ := Node.mem_children_walk List.mem_cons_self within
    have within₂ := Node.mem_children_walk List.mem_cons_self within₁
    have second := first.visit law within₁ (.of_form rfl) none
    have third := second.visit law within₂ (.of_form rfl) none
    obtain ⟨σ, set, fourth⟩ := third.setLocal i
    refine ⟨σ, fourth, (@reaches_child _ _ _ _ _ (.statements _) _ _ _ rfl).trans
      ((reaches_child rfl).trans ((reaches_load (second.lookup_state law)).trans ?_))⟩
    exact (reaches_assigned rfl set).trans (reaches_sibling rfl)

/-- A run of a lowered body with a state of its table comes to the expanded body, seeking the label
that the table leads to. -/
theorem arrives (records : Bool) (host : Host)
    (slot : store.get? l.contract.state.id = some (.int i))
    (inside : i ∈ L.added.table.flatMap Case.tests) :
    ∃ K, OuterTasks L.expanded l.body K ∧ Arrives (L.voyage records store host i)
      (start l.body none { persisted := store, host }) L.expanded L.added K := by
  let V : Voyage := L.voyage records store host i
  have law : V.Lawful := L.lawful
  have loads := @loads l L store i records host slot
  obtain ⟨case, member, selects⟩ := List.mem_flatMap.1 inside
  obtain ⟨label, among, q, leads⟩ := L.twin.leads i member
  obtain ⟨root, isRoot, assembled⟩ :
      ∃ n, n = l.body ∧ IsAssembled l.contract L.expanded L.added.table n := ⟨_, rfl, L.assembled⟩
  rw [← isRoot] at loads ⊢
  have within : root ∈ V.root.walk := isRoot ▸ Node.mem_walk_self l.body
  cases assembled with
  | mk i₀ i₁ i₂ i₃ i₄ i₅ i₆ i₇ =>
    let load : Node := ⟨i₁, .assign l.contract.localState ⟨i₂, .var l.contract.state⟩⟩
    let dispatch : Node := ⟨i₃, .switch ⟨i₄, .var l.contract.localState⟩ L.added.table
      (some ⟨i₅, .defaultOf .unit⟩)⟩
    let leave : Node := ⟨i₆, .ret (some L.expanded)⟩
    let exit : Node := ⟨i₇, .label l.contract.exit⟩
    let root : Node := ⟨i₀, .block [l.contract.localState] [load, dispatch, leave, exit]⟩
    have within₁ : load ∈ V.root.walk := Node.mem_children_walk List.mem_cons_self within
    have within₂ : dispatch ∈ V.root.walk :=
      Node.mem_children_walk (List.mem_cons_of_mem _ List.mem_cons_self) within
    have within₃ : leave ∈ V.root.walk := Node.mem_children_walk
      (List.mem_cons_of_mem _ (List.mem_cons_of_mem _ List.mem_cons_self)) within
    -- The label is looked for behind the dispatch, whose cases define none.
    have free : ∀ m ∈ [load, dispatch], V.s.labels m label.id = false := by
      have none : dispatch.labelsWithin = [] := by
        change Node.labelsWithin ⟨i₃, .switch _ L.added.table (some ⟨i₅, .defaultOf .unit⟩)⟩ = []
        simpa [Node.labelsWithin_mk, Shape.children, Shape.ownLabels] using L.twin.table_labels
      intro m inside
      rcases List.mem_pair.1 inside with rfl | rfl
      · rw [law.labels load within₁]
        rfl
      · rw [law.labels dispatch within₂, none]
        rfl
    have found : V.s.labels leave label.id = true := by
      have same : leave.labelsWithin = L.expanded.labelsWithin := by
        change Node.labelsWithin ⟨i₆, .ret (some L.expanded)⟩ = _
        simp [Node.labelsWithin_mk, Shape.children, Shape.ownLabels]
      rw [law.labels leave within₃, same]
      exact List.contains_iff_mem.2
        (L.twin.mem_labelsWithin (List.mem_map_of_mem (f := Label.id) among))
    obtain ⟨σ₁, loaded, reach₁⟩ := @loads _ load dispatch leave exit rfl
    obtain ⟨σ₂, dispatched, reach₂⟩ :=
      reaches_dispatch (K := [⟨root, .statements [leave, exit]⟩]) law within₂ L.distinct member
        selects leads loaded
    have last := dispatched.visit law within₃ (.of_form rfl) (some label.id)
    refine ⟨_, .mk i₀ i₆ _ load dispatch exit, case, member, selects, label, among, q, leads, _,
      last, reach₁.trans (reach₂.trans ?_)⟩
    exact (@reaches_target _ _ _ _ _ [load, dispatch] [exit] _ leave rfl free found).trans
      (reaches_child rfl)

theorem onboard : Onboard (L.voyage records store host i) L.prepared.settle L.expanded L.added where
  clear := ⟨L.twin, L.distinct, fun _ inside ↦ L.sole inside⟩
  within := L.assembled.within
  results _ inside := List.mem_map_of_mem inside

/-- A run of a lowered body with the state of a suspend point comes to the question for its
outcome, by its label. -/
theorem reaches_question (records : Bool) (host : Host)
    (slot : store.get? l.contract.state.id = some (.int i))
    (filled : ∀ id, l.keeps id → ∃ v, store.get? id = some v)
    (inside : i ∈ L.added.table.flatMap Case.tests) :
    ∃ acquire p operand n label question, n ∈ l.body.walk ∧
      IsPoint l.contract acquire p operand n ∧ Int64.ofNat p.index = i ∧ GoesOn p n label question ∧
      ∃ σ K, (L.voyage records store host i).At running running σ ∧
        (records = true → ∃ m ∈ σ.moments, m.event = .visit label.id (some p.label.id)) ∧
        (system (L.voyage records store host i).s).Reaches
          (start l.body none { persisted := store, host }) ⟨.enter question none, K, σ⟩ := by
  let V : Voyage := L.voyage records store host i
  have law : V.Lawful := L.lawful
  obtain ⟨K₀, -, arrived⟩ := L.arrives records host slot inside
  obtain ⟨at'⟩ : Nonempty (PointAt l.keeps store.get? l.contract L.prepared.settle L.expanded
    L.added i) := L.twin.track filled .root inside
  obtain ⟨settled, n, o, acquire, p, entry, inner, K, track, isPoint, isReturn, rfl⟩ := at'
  have here : Int64.ofNat p.index ∈ (inner ++ .ofPoint p entry).table.flatMap Case.tests := by
    simp [Added.ofPoint]
  obtain ⟨clear, within, results⟩ := track.onboard L.onboard
  obtain ⟨case, member, selects, label, among, q, leads, σ, there, reach⟩ :=
    track.arrives law L.onboard here arrived
  have own : (⟨[Int64.ofNat p.index], entry⟩ : Case Node) ∈ (inner ++ .ofPoint p entry).table := by
    simp [Added.ofPoint]
  obtain rfl := Table.case_unique clear.tests member own selects List.mem_cons_self
  obtain ⟨rfl, rfl⟩ := leads.unique (.back isReturn)
  have declared : ∀ v ∈ n.shape.declared, V.results v.id := by
    cases isPoint
    exact fun v member ↦ results v (List.mem_append_right _ member)
  obtain ⟨label, question, goesOn, σ', K', there', seen, reach'⟩ :=
    isPoint.arrives (K := K ++ K₀) law within declared
      (clear.sole p.label.id (List.mem_map_of_mem among)) there
  exact ⟨acquire, p, o, n, label, question, within, isPoint, rfl, goesOn, σ', K', there', seen,
    reach.trans reach'⟩

end Layout

end Suspension
