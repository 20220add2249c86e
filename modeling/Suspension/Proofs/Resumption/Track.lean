import Suspension.Proofs.Resumption.Seek

/-!
# Tracks

A resumed body rebuilds the stack that it had when it stopped to wait. A `Track` is such a stack:
the tasks from an expanded body down to a place in it, through layers that seeking can enter,
through the operands of suspend points and into the bodies of regions that suspend. A run that
dispatches on a state arrives at every place on a track to the suspend point of that state
(`Track.arrives`).
-/

namespace Suspension

open Steps Eval TransitionSystem

/-! ### Dispatches -/

section Dispatch

variable {V : Voyage} {outer inner : Int64} {K : List Steps.Task} {σ : Frame}

/-- Both copies of the state go back to running. -/
theorem IsUpdate.reaches (law : V.Lawful) {n : Node} (h : IsUpdate V.c running n)
    (within : n ∈ V.root.walk) (here : V.At outer inner σ) :
    ∃ σ', V.At running running σ' ∧
      (system V.s).Reaches ⟨.enter n none, K, σ⟩ ⟨.leave (.ok (.int running)), K, σ'⟩ := by
  cases h with
  | mk i j k =>
    have within' : (⟨j, .assign V.c.state ⟨k, .const (.int running)⟩⟩ : Node) ∈ V.root.walk :=
      Node.mem_children_walk List.mem_cons_self within
    have within'' : (⟨k, .const (.int running)⟩ : Node) ∈ V.root.walk :=
      Node.mem_children_walk List.mem_cons_self within'
    have first := here.visit law within (.of_form rfl) none
    have second := first.visit law within' (.of_form rfl) none
    have third := second.visit law within'' (.of_form rfl) none
    obtain ⟨σ₁, set, fourth⟩ := third.setState law
    obtain ⟨σ₂, set', last⟩ := fourth.setLocal running
    refine ⟨σ₂, last, (reaches_child rfl).trans ((reaches_child rfl).trans ?_)⟩
    exact (reaches_value rfl).trans ((reaches_assigned rfl set).trans (reaches_assigned rfl set'))

/-- A case leads where it leads. -/
theorem Leads.reaches (law : V.Lawful) {body : Node} {label : Label} {q : Int64}
    (h : Leads V.c V.state body label q) (within : body ∈ V.root.walk)
    (here : V.At V.state V.state σ) :
    ∃ σ', V.At q q σ' ∧ (system V.s).Reaches ⟨.enter body none, K, σ⟩
      ⟨.leave (.error (.jump label.id)), K, σ'⟩ := by
  cases h with
  | back isReturn =>
    cases isReturn with
    | @mk i j run update =>
      have within' : run ∈ V.root.walk := Node.mem_children_walk List.mem_cons_self within
      have within'' : (⟨j, .goto label⟩ : Node) ∈ V.root.walk :=
        Node.mem_children_walk (List.mem_cons_of_mem _ List.mem_cons_self) within
      have first := here.visit law within (.of_form rfl) none
      obtain ⟨σ₁, second, reach⟩ := update.reaches (K := ⟨⟨i, .block [] [run, ⟨j, .goto label⟩]⟩,
        .statements [⟨j, .goto label⟩]⟩ :: K) law within' first
      have third := second.visit law within'' (.of_form rfl) none
      refine ⟨_, third.note (e := .exit (.jump label.id)) ⟨_, rfl⟩ (by rintro _ _ ⟨⟩),
        (reaches_child rfl).trans (reach.trans ((reaches_sibling rfl).trans
          ((reaches_goto j label).trans (reaches_outside fun m member ↦ ?_))))⟩
      have child : m ∈ Node.children ⟨i, .block [] [run, ⟨j, .goto label⟩]⟩ := member
      rw [law.labels m (Node.mem_children_walk child within)]
      rcases List.mem_pair.1 member with rfl | rfl
      · rw [update.labelsWithin]
        rfl
      · rfl
  | into l entry =>
    have first := here.visit law within (.of_form rfl) none
    exact ⟨_, first.note (e := .exit (.jump label.id)) ⟨_, rfl⟩ (by rintro _ _ ⟨⟩),
      reaches_goto l label⟩

/-- A dispatch on a state leads where its case leads. -/
theorem reaches_dispatch (law : V.Lawful) {i j : NodeId} {table : Table} {otherwise : Option Node}
    (within : (⟨i, .switch ⟨j, .var V.c.localState⟩ table otherwise⟩ : Node) ∈ V.root.walk)
    (distinct : (table.flatMap Case.tests).Nodup) {case : Case Node} (member : case ∈ table)
    (selects : V.state ∈ case.tests) {label : Label} {q : Int64}
    (leads : Leads V.c V.state case.body label q) (here : V.At V.state V.state σ) :
    ∃ σ', V.At q q σ' ∧
      (system V.s).Reaches ⟨.enter ⟨i, .switch ⟨j, .var V.c.localState⟩ table otherwise⟩ none, K, σ⟩
        ⟨.leave (.error (.jump label.id)), K, σ'⟩ := by
  let n : Node := ⟨i, .switch ⟨j, .var V.c.localState⟩ table otherwise⟩
  have within' : (⟨j, .var V.c.localState⟩ : Node) ∈ V.root.walk :=
    Node.mem_children_walk List.mem_cons_self within
  have body : case.body ∈ V.root.walk := by
    refine Node.mem_children_walk (m := n) ?_ within
    exact List.mem_cons_of_mem _ (List.mem_append_left _ (List.mem_map_of_mem member))
  have first := here.visit law within (.of_form rfl) none
  have second := first.visit law within' (.of_form rfl) none
  obtain ⟨σ', last, reach⟩ := leads.reaches (K := ⟨n, .arm⟩ :: K) law body second
  have selected : armFor n (.int V.state) = .ok (some case.body) := by
    simp only [armFor, n, Node.shape, Evaluator.caseFor, Value.asInt?,
      Table.find_eq distinct member selects]
  have load : lookup (noted V.s (.visit i none) σ) V.c.localState.id = some (.int V.state) :=
    first.lookup_localState
  have arm : leaveTo V.s ⟨n, .test⟩ (.ok (.int V.state)) = descend n .arm case.body none := by
    funext σ
    simp only [leaveTo, selected, enterArm]
  exact ⟨σ', last, (reaches_child rfl).trans ((reaches_load load).trans
    ((reaches_sibling (congrFun arm _)).trans (reach.trans (reaches_over rfl))))⟩

end Dispatch

/-! ### Tracks -/

/-- The stage of the node that acquires an awaiter. -/
def acquireStage (acquire : Option String) : Stage :=
  match acquire with
  | some _ => .operands [] []
  | none => .operand

/-- The tasks of a suspend point that wait for its operand. -/
inductive OperandTasks (acquire : Option String) (o : Node) : Node → List Steps.Task → Prop
  | mk (i j k : NodeId) (declared : List Variable) (awaiter : Variable) (rest : List Node) :
    OperandTasks acquire o
      ⟨i, .block declared (⟨j, .assign awaiter ⟨k, Expand.acquireShape acquire o⟩⟩ :: rest)⟩
      [⟨⟨k, Expand.acquireShape acquire o⟩, acquireStage acquire⟩,
        ⟨⟨j, .assign awaiter ⟨k, Expand.acquireShape acquire o⟩⟩, .operand⟩,
        ⟨⟨i, .block declared (⟨j, .assign awaiter ⟨k, Expand.acquireShape acquire o⟩⟩ :: rest)⟩,
          .statements rest⟩]

/-- The tasks of a region that suspends that wait for its body. -/
inductive BodyTasks (body : Node) : Node → List Steps.Task → Prop
  | mk (i j k : NodeId) (enter dispatch : Node) (cs : List (Clause Node))
    (cleanup fault : Option Node) :
    BodyTasks body
      ⟨i, .block [] [enter, ⟨j, .region ⟨k, .block [] [dispatch, body]⟩ cs cleanup fault⟩]⟩
      [⟨⟨k, .block [] [dispatch, body]⟩, .statements []⟩,
        ⟨⟨j, .region ⟨k, .block [] [dispatch, body]⟩ cs cleanup fault⟩, .body⟩,
        ⟨⟨i, .block [] [enter, ⟨j, .region ⟨k, .block [] [dispatch, body]⟩ cs cleanup fault⟩]⟩,
          .statements []⟩]

theorem OperandTasks.within {acquire : Option String} {o e root : Node} {ts : List Steps.Task}
    (h : OperandTasks acquire o e ts) (within : e ∈ root.walk) : o ∈ root.walk := by
  cases h with
  | mk i j k declared awaiter rest =>
    have assign := Node.mem_children_walk List.mem_cons_self within
    have acquired : (⟨k, Expand.acquireShape acquire o⟩ : Node) ∈ root.walk :=
      Node.mem_children_walk List.mem_cons_self assign
    refine Node.mem_children_walk (m := ⟨k, Expand.acquireShape acquire o⟩) ?_ acquired
    rw [Node.children, Node.shape, Expand.children_acquireShape]
    exact List.mem_cons_self

/-- Seeking a label in the operand of a suspend point. -/
theorem OperandTasks.seek {V : Voyage} {acquire : Option String} {o e : Node}
    {ts K : List Steps.Task} {l : SymbolId} {outer inner : Int64} {σ : Frame} (law : V.Lawful)
    (h : OperandTasks acquire o e ts) (within : e ∈ V.root.walk)
    (declared : ∀ v ∈ e.shape.declared, V.results v.id)
    (once : e.labelsWithin.count l = 1) (inside : l ∈ o.labelsWithin)
    (here : V.At outer inner σ) :
    ∃ σ', V.At outer inner σ' ∧
      (system V.s).Reaches ⟨.enter e (some l), K, σ⟩ ⟨.enter o (some l), ts ++ K, σ'⟩ := by
  cases h with
  | mk i j k ds awaiter rest =>
    let acquired : Node := ⟨k, Expand.acquireShape acquire o⟩
    let assign : Node := ⟨j, .assign awaiter acquired⟩
    have within' : assign ∈ V.root.walk := Node.mem_children_walk List.mem_cons_self within
    have within'' : acquired ∈ V.root.walk := Node.mem_children_walk List.mem_cons_self within'
    -- Assignment and acquire operation hold the labels of the operand and no others.
    have acquires : acquired.labelsWithin = o.labelsWithin := labelsWithin_acquire k acquire o
    have assigns : assign.labelsWithin = o.labelsWithin := by
      rw [Node.labelsWithin_mk, ← acquires]
      exact List.append_nil _
    have found : V.s.labels assign l = true := by
      rw [law.labels assign within', assigns]
      exact List.contains_iff_mem.2 inside
    have once' : assign.labelsWithin.count l = 1 :=
      Nat.le_antisymm (Nat.le_trans (Node.count_labels_le List.mem_cons_self l) (Nat.le_of_eq once))
        (List.count_pos_iff.2 (assigns ▸ inside))
    have once'' : acquired.labelsWithin.count l = 1 := by
      rw [acquires, ← assigns, once']
    have idle : Node.Idle V.c ⟨i, .block ds (assign :: rest)⟩ := by
      refine ⟨by rintro _ _ _ ⟨⟩, fun departs ↦ ?_⟩
      rw [departs.labelsWithin] at once
      cases once
    have first := (here.visit law within idle (some l)).declare law declared
    have opens : Opens V.keeps V.origin.persisted.get? assign acquired .operand :=
      .operand (.assign _ _ _) nofun
    have opens' : Opens V.keeps V.origin.persisted.get? acquired o (acquireStage acquire) := by
      cases acquire with
      | none => exact .operand (.awaiter _ _ _) nofun
      | some name => exact @Opens.operands _ _ _ _ [] [] [] (.call name [o] [o] rfl) .nil
    obtain ⟨σ₁, second, reach⟩ := opens.seek law within' once' (acquires ▸ inside) first
    obtain ⟨σ₂, third, reach'⟩ := opens'.seek law within'' once'' inside second
    exact ⟨σ₂, third, (@reaches_sought _ _ _ _ _ _ [] _ _ rfl (List.forall_mem_nil _) found).trans
      (reach.trans reach')⟩

theorem BodyTasks.within {body e root : Node} {ts : List Steps.Task} (h : BodyTasks body e ts)
    (within : e ∈ root.walk) : body ∈ root.walk := by
  cases h with
  | mk i j k enter dispatch cs cleanup fault =>
    have region := Node.mem_children_walk (List.mem_cons_of_mem enter List.mem_cons_self) within
    have inner : (⟨k, .block [] [dispatch, body]⟩ : Node) ∈ root.walk :=
      Node.mem_children_walk List.mem_cons_self region
    exact Node.mem_children_walk (List.mem_cons_of_mem dispatch List.mem_cons_self) inner

/-- Entering a region leads to where its own dispatch leads. -/
theorem BodyTasks.seek {V : Voyage} {p body e : Node} {entry : Label} {X : Added}
    {cs : List (Clause Node)} {cleanup fault : Option Node} {ts K : List Steps.Task} {σ : Frame}
    (law : V.Lawful) (entered : IsEntered V.c entry X.table body cs cleanup fault e)
    (tasks : BodyTasks body e ts) (within : e ∈ V.root.walk) (twin : Twin V.keeps V.c p body X)
    (distinct : (X.table.flatMap Case.tests).Nodup) {case : Case Node} (member : case ∈ X.table)
    (selects : V.state ∈ case.tests) {label : Label} (among : label ∈ X.labels) {q : Int64}
    (leads : Leads V.c V.state case.body label q) (here : V.At V.state V.state σ) :
    ∃ σ', V.At q q σ' ∧ (system V.s).Reaches ⟨.enter e (some entry.id), K, σ⟩
      ⟨.enter body (some label.id), ts ++ K, σ'⟩ := by
  cases entered with
  | mk i i₁ i₂ i₃ i₄ i₅ =>
    cases tasks
    let enter : Node := ⟨i₁, .label entry⟩
    let dispatch : Node := ⟨i₄, .switch ⟨i₅, .var V.c.localState⟩ X.table none⟩
    let inner : Node := ⟨i₃, .block [] [dispatch, body]⟩
    let region : Node := ⟨i₂, .region inner cs cleanup fault⟩
    have within₁ : enter ∈ V.root.walk := Node.mem_children_walk List.mem_cons_self within
    have within₂ : region ∈ V.root.walk :=
      Node.mem_children_walk (List.mem_cons_of_mem _ List.mem_cons_self) within
    have within₃ : inner ∈ V.root.walk := Node.mem_children_walk List.mem_cons_self within₂
    have within₄ : dispatch ∈ V.root.walk := Node.mem_children_walk List.mem_cons_self within₃
    have within₅ : body ∈ V.root.walk :=
      Node.mem_children_walk (List.mem_cons_of_mem _ List.mem_cons_self) within₃
    have first := here.visit law within (.of_form rfl) (some entry.id)
    have second := first.visit law within₁ (.of_form rfl) (some entry.id)
    have third := second.visit law within₂ (.of_form rfl) none
    have fourth := third.visit law within₃ (.of_form rfl) none
    -- The entry leads to the dispatch of the region, and that to the label in its body.
    obtain ⟨σ', last, reach⟩ := reaches_dispatch law within₄ distinct member selects leads fourth
    have entryFound : V.s.labels enter entry.id = true := by
      rw [law.labels enter within₁]
      exact List.contains_iff_mem.2 List.mem_cons_self
    have free : V.s.labels dispatch label.id = false := by
      have none : dispatch.labelsWithin = [] := by
        change Node.labelsWithin ⟨i₄, .switch ⟨i₅, .var V.c.localState⟩ X.table none⟩ = []
        simpa [Node.labelsWithin_mk, Shape.children, Shape.ownLabels] using twin.table_labels
      rw [law.labels dispatch within₄, none]
      rfl
    have found : V.s.labels body label.id = true := by
      rw [law.labels body within₅]
      exact List.contains_iff_mem.2 (twin.mem_labelsWithin (List.mem_map_of_mem among))
    refine ⟨σ', last,
      (@reaches_sought _ _ _ _ _ _ [] _ _ rfl (List.forall_mem_nil _) entryFound).trans ?_⟩
    refine (reaches_value rfl).trans ((reaches_sibling rfl).trans ((reaches_child rfl).trans
      ((reaches_child rfl).trans (reach.trans ?_))))
    exact @reaches_target _ _ _ _ _ [dispatch] _ _ _ rfl
      (fun m member ↦ List.mem_singleton.1 member ▸ free) found

/-- The tasks from an expansion down to a place in it. -/
inductive Track (keeps : SymbolId → Prop) (slots : SymbolId → Option Value) (c : Contract)
    (p₀ e₀ : Node) (X₀ : Added) : Node → Node → Added → List Steps.Task → Prop
  | root : Track keeps slots c p₀ e₀ X₀ p₀ e₀ X₀ []
  | layer {i i' : NodeId} {x : Shape (Node × Node × Added)} {y : Node × Node × Added} {st : Stage}
    {K : List Steps.Task}
    (outer : Track keeps slots c p₀ e₀ X₀ ⟨i, x.map Prod.fst⟩ ⟨i', x.map (·.2.1)⟩
      (.join (x.children.map (·.2.2))) K)
    (twin : Twin keeps c y.1 y.2.1 y.2.2) (member : y ∈ x.children)
    (opens : Opens keeps slots ⟨i', x.map (·.2.1)⟩ y.2.1 st) :
    Track keeps slots c p₀ e₀ X₀ y.1 y.2.1 y.2.2 (⟨⟨i', x.map (·.2.1)⟩, st⟩ :: K)
  | operand {q p o e entry : Node} {acquire : Option String} {point : Point} {X : Added}
    {K ts : List Steps.Task}
    (outer : Track keeps slots c p₀ e₀ X₀ q e (X ++ .ofPoint point entry) K)
    (isPoint : IsPoint c acquire point o e) (twin : Twin keeps c p o X)
    (tasks : OperandTasks acquire o e ts) : Track keeps slots c p₀ e₀ X₀ p o X (ts ++ K)
  | body {q p body e : Node} {entry : Label} {l : NodeId} {cs : List (Clause Node)}
    {cleanup fault : Option Node} {X : Added} {K ts : List Steps.Task}
    (outer : Track keeps slots c p₀ e₀ X₀ q e (X.ofRegion entry ⟨l, .goto entry⟩) K)
    (entered : IsEntered c entry X.table body cs cleanup fault e) (twin : Twin keeps c p body X)
    (tasks : BodyTasks body e ts) : Track keeps slots c p₀ e₀ X₀ p body X (ts ++ K)

/-- A run arrives at a place, seeking a label that the table there leads to. -/
structure Arrives (V : Voyage) (start : Configuration) (e : Node) (X : Added)
    (K : List Steps.Task) : Prop where
  arrives : ∃ case ∈ X.table, V.state ∈ case.tests ∧ ∃ label ∈ X.labels, ∃ q,
    Leads V.c V.state case.body label q ∧ ∃ σ, V.At q q σ ∧
      (system V.s).Reaches start ⟨.enter e (some label.id), K, σ⟩

/-- The surroundings of a place on a track. -/
structure Onboard (V : Voyage) (p e : Node) (X : Added) : Prop where
  clear : Clear V.keeps V.c p e X
  within : e ∈ V.root.walk
  results : ∀ v ∈ X.results, V.results v.id

section Tracks

variable {keeps : SymbolId → Prop} {V : Voyage} {p₀ e₀ p e : Node} {X₀ X : Added}
  {K K₀ : List Steps.Task}
variable {start : Configuration}

theorem Track.onboard (h : Track V.keeps V.origin.persisted.get? V.c p₀ e₀ X₀ p e X K)
    (base : Onboard V p₀ e₀ X₀) : Onboard V p e X := by
  induction h with
  | root => exact base
  | layer outer twin member opens ih =>
    obtain ⟨clear, within, results⟩ := ih
    refine ⟨clear.child twin member, Node.mem_children_walk opens.child within, fun v inside ↦ ?_⟩
    exact results v (List.mem_flatMap.2 ⟨_, List.mem_map_of_mem member, inside⟩)
  | operand outer isPoint twin tasks ih =>
    obtain ⟨clear, within, results⟩ := ih
    exact ⟨clear.operand twin isPoint, tasks.within within,
      fun v inside ↦ results v (List.mem_append_left _ inside)⟩
  | body outer entered twin tasks ih =>
    obtain ⟨clear, within, results⟩ := ih
    exact ⟨clear.body twin entered, tasks.within within, results⟩

/-- What is arrived at holds of the part that has the state. -/
theorem Arrives.narrow {Y : Added} {q d : Node} (h : Arrives V start e X K)
    (distinct : (X.table.flatMap Case.tests).Nodup) (twin : Twin keeps V.c q d Y)
    (part : Y.table ⊆ X.table) (inside : V.state ∈ Y.table.flatMap Case.tests) :
    Arrives V start e Y K := by
  obtain ⟨case, member, selects, label, among, q, leads, rest⟩ := h
  obtain ⟨case', member', selects'⟩ := List.mem_flatMap.1 inside
  obtain rfl := Table.case_unique distinct member (part member') selects selects'
  obtain ⟨label', among', q', leads'⟩ := twin.leads V.state member'
  obtain ⟨rfl, rfl⟩ := leads.unique leads'
  exact ⟨case, member', selects, label, among', q, leads, rest⟩

/-- A run that dispatches on a state arrives wherever the suspend point of the state is. -/
theorem Track.arrives (law : V.Lawful)
    (h : Track V.keeps V.origin.persisted.get? V.c p₀ e₀ X₀ p e X K) (base : Onboard V p₀ e₀ X₀)
    (inside : V.state ∈ X.table.flatMap Case.tests) (arrived : Arrives V start e₀ X₀ K₀) :
    Arrives V start e X (K ++ K₀) := by
  induction h with
  | root => exact arrived
  | @layer i i' x y st K outer twin member opens ih =>
    obtain ⟨clear, within, results⟩ := outer.onboard base
    have among : y.2.2 ∈ x.children.map (·.2.2) := List.mem_map_of_mem member
    have part := Added.table_subset_join among
    -- By induction the search for the label came as far as this layer.
    obtain ⟨case, member', selects, label, labels, q, leads, σ, here, reach⟩ :=
      (ih (Table.tests_subset part inside)).narrow clear.tests twin part inside
    have added := List.mem_map_of_mem (f := Label.id) labels
    have once := clear.sole label.id
      (List.map_subset _ (Added.labels_subset_join among) added)
    obtain ⟨σ', there, reach'⟩ :=
      opens.seek (K := K ++ K₀) law within once (twin.mem_labelsWithin added) here
    exact ⟨case, member', selects, label, labels, q, leads, σ', there, reach.trans reach'⟩
  | @operand q p o e entry acquire point X K ts outer isPoint twin tasks ih =>
    obtain ⟨clear, within, results⟩ := outer.onboard base
    have part : X.table ⊆ (X ++ .ofPoint point entry).table := List.subset_append_left _ _
    obtain ⟨case, member', selects, label, labels, q, leads, σ, here, reach⟩ :=
      (ih (Table.tests_subset part inside)).narrow clear.tests twin part inside
    have added := List.mem_map_of_mem (f := Label.id) labels
    have once := clear.sole label.id (List.map_subset _ (List.subset_append_left _ _) added)
    have declared : ∀ v ∈ e.shape.declared, V.results v.id := by
      cases isPoint
      exact fun v member ↦ results v (List.mem_append_right _ member)
    obtain ⟨σ', there, reach'⟩ :=
      tasks.seek (K := K ++ K₀) law within declared once (twin.mem_labelsWithin added) here
    refine ⟨case, member', selects, label, labels, q, leads, σ', there, ?_⟩
    rw [List.append_assoc]
    exact reach.trans reach'
  | @body q p body e entry l cs cleanup fault X K ts outer entered twin tasks ih =>
    obtain ⟨clear, within, results⟩ := outer.onboard base
    have inside' : V.state ∈ (X.ofRegion entry ⟨l, .goto entry⟩).table.flatMap Case.tests := by
      change V.state ∈ X.table.flatMap Case.tests ++ []
      rw [List.append_nil]
      exact inside
    obtain ⟨case, member, selects, label, labels, q, leads, σ, here, reach⟩ := ih inside'
    cases List.mem_singleton.1 member
    obtain ⟨rfl, rfl⟩ := leads.unique (.into l entry)
    obtain ⟨case, member', selects'⟩ := List.mem_flatMap.1 inside
    obtain ⟨label', among, q, leads'⟩ := twin.leads V.state member'
    obtain ⟨σ', there, reach'⟩ := tasks.seek (K := K ++ K₀) law entered within twin
      (clear.body twin entered).tests member' selects' among leads' here
    refine ⟨case, member', selects', label', among, q, leads', σ', there, ?_⟩
    rw [List.append_assoc]
    exact reach.trans reach'

end Tracks

end Suspension
