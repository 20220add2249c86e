import Suspension.Proofs.Expansion.Routes
import Suspension.Proofs.Layout
import Suspension.Proofs.Preparation.Weight

/-!
# One state for each suspend point

States are numbered through in the order of the suspend points, and resuming finds them level by
level: the dispatch of a lowered body leads to a suspend point outside of all regions, or to a
region that has a dispatch of its own for the suspend points in it. What makes that work is said
here of lowered trees alone, with no mention of the pass that made them (`Lowered.OneStateEach`):

* each state is stored in one place, in order (`Node.states`);
* a region that suspends has a dispatch for the states that are stored in it, in the same order, and
  the dispatch around it has one case for all of them, which leads to the label in front of the
  region (`Node.regions`, `Node.Reenters`).

Both follow from what the expansion adds to a table, by induction over the expansion (`Twin.states`,
`Twin.levels`). How many suspend points there are is a weight, which no pass before changes.
-/

namespace Suspension

/-- The state that a layer stores, but for that of a running body. -/
def Shape.ownStates (c : Contract) : Shape Node → List Int64
  | .assign target value =>
    match value.shape with
    | .const (.int state) => if target.same c.state && state != running then [state] else []
    | _ => []
  | _ => []

namespace Node

/-- The states that are stored in a tree, in the order of its nodes. -/
def states (c : Contract) (n : Node) : List Int64 :=
  n.walk.flatMap fun m ↦ m.shape.ownStates c

/-- The cases of the dispatch on the state that a body starts with. -/
def dispatch? (c : Contract) (body : Node) : Option Table :=
  match body.shape with
  | .block _ (first :: _) =>
    match first.shape with
    | .switch value table _ =>
      match value.shape with
      | .var v => if v.same c.localState then some table else none
      | _ => none
    | _ => none
  | _ => none

/-- The protected regions of a tree, each with the cases of the innermost dispatch around it.
`outer` are the cases of the dispatch around the tree. -/
def regions (c : Contract) : Node → Table → List (Table × Node) :=
  fold fun n layer outer ↦
    match n.shape, layer with
    | .region body _ _ _, .region inside clauses cleanup fault =>
      (outer, n) :: inside ((body.dispatch? c).getD outer) ++
        (clauses.flatMap Clause.children ++ cleanup.toList ++ fault.toList).flatMap fun part ↦
          part outer
    | _, layer => layer.children.flatMap fun below ↦ below outer

/-- There are neither suspend points nor regions in a tree. -/
def Straight (n : Node) : Prop :=
  ∀ m ∈ n.walk, m.kind ≠ .await ∧ m.kind ≠ .region

/-- The states of a tree are its own and those of its children. -/
theorem states_mk (c : Contract) (i : NodeId) (sh : Shape Node) :
    states c ⟨i, sh⟩ = sh.ownStates c ++ sh.children.flatMap (states c) := by
  rw [states, walk_mk, List.flatMap_cons, List.flatMap_assoc]
  rfl

/-- A region is found with the table that it is entered by, and its body is searched with its own
table. -/
theorem regions_region (c : Contract) (i : NodeId) (body : Node) (clauses : List (Clause Node))
    (cleanup fault : Option Node) (outer : Table) :
    regions c ⟨i, .region body clauses cleanup fault⟩ outer =
      (outer, ⟨i, .region body clauses cleanup fault⟩) ::
        body.regions c ((body.dispatch? c).getD outer) ++
        (clauses.flatMap Clause.children ++ cleanup.toList ++ fault.toList).flatMap fun part ↦
          part.regions c outer := by
  have handlers := Shape.handlers_map (regions c) (.region body clauses cleanup fault)
  have all : ((Shape.region body clauses cleanup fault).map (regions c)).handlers.flatMap
      (fun part ↦ part outer) =
      (Shape.region body clauses cleanup fault).handlers.flatMap fun part ↦
        part.regions c outer := by
    rw [handlers, List.flatMap_map]
  refine Eq.trans ?_ (congrArg ((outer, _) :: body.regions c ((body.dispatch? c).getD outer) ++ ·)
    all)
  rw [regions, fold_eq]
  rfl

theorem regions_other (c : Contract) {i : NodeId} {sh : Shape Node} (other : sh.kind ≠ .region)
    (outer : Table) :
    regions c ⟨i, sh⟩ outer = sh.children.flatMap fun below ↦ below.regions c outer := by
  have below := Shape.children_map (regions c) sh
  have all : (sh.map (regions c)).children.flatMap (fun below ↦ below outer) =
      sh.children.flatMap fun below ↦ below.regions c outer := by
    rw [below, List.flatMap_map]
  rw [← all, regions, fold_eq]
  cases sh with
  | region => exact absurd rfl other
  | _ => rfl

/-- A tree is straight if neither it nor anything in it suspends or protects. -/
theorem straight_mk {i : NodeId} {sh : Shape Node} :
    Straight ⟨i, sh⟩ ↔
      (sh.kind ≠ .await ∧ sh.kind ≠ .region) ∧ ∀ n ∈ sh.children, n.Straight :=
  forall_walk_mk

/-- There are no regions in a straight tree. -/
theorem Straight.regions {n : Node} (h : n.Straight) (c : Contract) (outer : Table) :
    n.regions c outer = [] := by
  induction n using Node.induction with
  | step n ih =>
    obtain ⟨i, sh⟩ := n
    obtain ⟨⟨-, other⟩, below⟩ := straight_mk.1 h
    rw [regions_other c other]
    exact List.flatMap_eq_nil_iff.2 fun m child ↦ ih m child (below m child)

/-- There are no suspend points in a straight tree. -/
theorem Straight.awaits {n : Node} (h : n.Straight) : n.weight Kind.await.weight = 0 := by
  rw [← countKind_eq_weight]
  exact List.countP_eq_zero.2 fun m inside ↦ by simpa using (h m inside).1

/-- The regions of a tree are nodes of it. -/
theorem mem_walk_of_regions {c : Contract} {n m : Node} {outer inner : Table}
    (h : (inner, m) ∈ n.regions c outer) : m ∈ n.walk := by
  induction n using Node.induction generalizing outer with
  | step n ih =>
    obtain ⟨i, sh⟩ := n
    by_cases region : sh.kind = .region
    · cases sh with
      | region body clauses cleanup fault =>
        rw [regions_region, List.cons_append] at h
        rcases List.mem_cons.1 h with eq | h
        · cases eq
          exact mem_walk_self _
        · rcases List.mem_append.1 h with h | h
          · exact mem_walk_of_mem_children (ih body List.mem_cons_self h) List.mem_cons_self
          · obtain ⟨part, member, h⟩ := List.mem_flatMap.1 h
            have child : part ∈ (Shape.region body clauses cleanup fault).children :=
              Shape.mem_handlers member
            exact mem_walk_of_mem_children (ih part child h) child
      | _ => cases region
    · rw [regions_other c region] at h
      obtain ⟨part, child, h⟩ := List.mem_flatMap.1 h
      exact mem_walk_of_mem_children (ih part child h) child

/-- What is stored in a part of a tree is stored in the tree. -/
theorem states_subset {c : Contract} {m n : Node} (h : m ∈ n.walk) : m.states c ⊆ n.states c := by
  intro state inside
  obtain ⟨k, within, own⟩ := List.mem_flatMap.1 inside
  exact List.mem_flatMap.2 ⟨k, mem_walk_trans within h, own⟩

end Node

/-! ### Pieces -/

section Pieces

variable {c : Contract} {n : Node}

theorem IsUpdate.straight {value : Int64} (h : IsUpdate c value n) : n.Straight := by
  cases h
  simp [Node.straight_mk, Shape.children, Shape.kind]

/-- Updating the state sets a state, unless the body is running then. -/
theorem IsUpdate.states {value : Int64} (h : IsUpdate c value n) :
    n.states c = if value = running then [] else [value] := by
  cases h
  by_cases run : value = running <;>
    simp [Node.states_mk, Shape.children, Shape.ownStates, Node.shape, Variable.same, run]

theorem IsReturn.straight {label : Label} (h : IsReturn c label n) : n.Straight := by
  cases h with
  | mk i j update => simp [Node.straight_mk, Shape.children, Shape.kind, update.straight]

theorem IsReturn.states {label : Label} (h : IsReturn c label n) : n.states c = [] := by
  cases h with
  | mk i j update => simp [Node.states_mk, Shape.children, Shape.ownStates, update.states]

theorem Leads.straight {i j : Int64} {label : Label} (h : Leads c i n label j) : n.Straight := by
  cases h with
  | back isReturn => exact isReturn.straight
  | into => simp [Node.straight_mk, Shape.children, Shape.kind]

theorem Leads.states {i j : Int64} {label : Label} (h : Leads c i n label j) :
    n.states c = [] := by
  cases h with
  | back isReturn => exact isReturn.states
  | into => simp [Node.states_mk, Shape.children, Shape.ownStates]

theorem IsSuspension.straight {p : Point} (h : IsSuspension c p n) : n.Straight := by
  cases h with
  | mk i j k l update => simp [Node.straight_mk, Shape.children, Shape.kind, update.straight]

/-- A way out sets the state of its suspend point. -/
theorem IsSuspension.states {p : Point} (h : IsSuspension c p n)
    (waits : Int64.ofNat p.index ≠ running) : n.states c = [Int64.ofNat p.index] := by
  cases h with
  | mk i j k l update =>
    simp [Node.states_mk, Shape.children, Shape.ownStates, update.states, waits]

theorem IsOutcome.straight {p : Point} (h : IsOutcome p n) : n.Straight := by
  cases h <;> simp [Node.straight_mk, Shape.children, Shape.kind]

theorem IsOutcome.states {p : Point} (h : IsOutcome p n) : n.states c = [] := by
  cases h <;> simp [Node.states_mk, Shape.children, Shape.ownStates, Node.shape]

theorem Point.straight_value (p : Point) (i : NodeId) : Node.Straight ⟨i, p.valueShape⟩ := by
  rw [valueShape]
  cases p.result <;> simp [Node.straight_mk, Shape.children, Shape.kind]

theorem Point.states_value (p : Point) (i : NodeId) : Node.states c ⟨i, p.valueShape⟩ = [] := by
  rw [valueShape]
  cases p.result <;> simp [Node.states_mk, Shape.children, Shape.ownStates]

variable {acquire : Option String} {p : Point} {o : Node}

/-- A suspend point acquires its awaiter first. Nothing else in it is another suspend point or a
region, and one state is stored. -/
theorem IsPoint.opens (h : IsPoint c acquire p o n) : ∃ i i₁ i₂ vs rest,
    n = ⟨i, .block vs (⟨i₁, .assign p.awaiter ⟨i₂, Expand.acquireShape acquire o⟩⟩ :: rest)⟩ ∧
      (∀ m ∈ rest, m.Straight) ∧ (Int64.ofNat p.index ≠ running →
        rest.flatMap (Node.states c) = [Int64.ofNat p.index]) := by
  cases h with
  | mk i i₁ i₂ i₃ i₄ i₅ i₆ i₇ i₈ i₉ i₁₀ suspension outcomes update =>
    refine ⟨_, _, _, _, _, rfl, ?_, fun waits ↦ ?_⟩
    · have value := p.straight_value i₁₀
      generalize (⟨i₁₀, p.valueShape⟩ : Node) = v at value
      simp [Node.straight_mk, Shape.children, Shape.kind, suspension.straight, outcomes.straight,
        update.straight, value]
    · have value := p.states_value (c := c) i₁₀
      generalize (⟨i₁₀, p.valueShape⟩ : Node) = v at value
      simp [Node.states_mk, Shape.children, Shape.ownStates, value, Node.shape,
        suspension.states waits, outcomes.states, update.states]

/-- The operand stands in what a suspend point is taken apart to. -/
theorem IsPoint.within (h : IsPoint c acquire p o n) : o ∈ n.walk := by
  obtain ⟨i, i₁, i₂, vs, rest, rfl, -, -⟩ := h.opens
  refine Node.mem_walk_of_mem_children (Node.mem_walk_of_mem_children
    (Node.mem_walk_of_mem_children (Node.mem_walk_self o) ?_) List.mem_cons_self)
    List.mem_cons_self
  rw [Node.children, Node.shape, Expand.children_acquireShape]
  exact List.mem_cons_self

/-- What a suspend point is taken apart to suspends where its operand does. -/
theorem IsPoint.awaits (h : IsPoint c acquire p o n) :
    n.weight Kind.await.weight = o.weight Kind.await.weight := by
  obtain ⟨i, i₁, i₂, vs, rest, rfl, straight, -⟩ := h.opens
  have others : total (Node.weight Kind.await.weight) rest = 0 :=
    total_eq_zero fun m member ↦ (straight m member).awaits
  cases acquire <;>
    simp [Node.weight_mk, Kind.weight_form, Shape.kind, Shape.children, others,
      Expand.acquireShape]

/-- The regions of a suspend point are those of its operand. -/
theorem IsPoint.regions (h : IsPoint c acquire p o n) (outer : Table) :
    n.regions c outer = o.regions c outer := by
  obtain ⟨i, i₁, i₂, vs, rest, rfl, straight, -⟩ := h.opens
  have others : rest.flatMap (fun m ↦ m.regions c outer) = [] :=
    List.flatMap_eq_nil_iff.2 fun m member ↦ (straight m member).regions c outer
  have other : (Expand.acquireShape acquire o).kind ≠ .region := by cases acquire <;> nofun
  rw [Node.regions_other c (by rintro ⟨⟩), Shape.children, List.flatMap_cons, others,
    List.append_nil, Node.regions_other c (by rintro ⟨⟩), Shape.children, List.flatMap_singleton,
    Node.regions_other c other, Expand.children_acquireShape, List.flatMap_singleton]

/-- The states of a suspend point are those of its operand and its own. -/
theorem IsPoint.states (h : IsPoint c acquire p o n) (waits : Int64.ofNat p.index ≠ running) :
    n.states c = o.states c ++ [Int64.ofNat p.index] := by
  obtain ⟨i, i₁, i₂, vs, rest, rfl, -, states⟩ := h.opens
  cases acquire <;>
    simp [Node.states_mk, Shape.children, Shape.ownStates, Node.shape, states waits,
      Expand.acquireShape]

/-- A region that is entered contains its body and its dispatch. -/
theorem IsEntered.within {entry : Label} {table : Table} {body : Node}
    {clauses : List (Clause Node)} {cleanup fault : Option Node}
    (h : IsEntered c entry table body clauses cleanup fault n) : body ∈ n.walk ∧
      ∃ m ∈ n.walk, ∃ value, m.shape = .switch value table none := by
  cases h with
  | mk i i₁ i₂ i₃ i₄ i₅ =>
    have inside {m : Node}
        (member : m ∈ [⟨i₄, .switch ⟨i₅, .var c.localState⟩ table none⟩, body]) :
        m ∈ Node.walk ⟨i, .block [] [⟨i₁, .label entry⟩, ⟨i₂, .region ⟨i₃, .block []
          [⟨i₄, .switch ⟨i₅, .var c.localState⟩ table none⟩, body]⟩ clauses cleanup fault⟩]⟩ := by
      refine Node.mem_walk_of_mem_children ?_ (List.mem_cons_of_mem _ List.mem_cons_self)
      refine Node.mem_walk_of_mem_children ?_ List.mem_cons_self
      exact Node.mem_walk_of_mem_children (Node.mem_walk_self m) member
    exact ⟨inside (List.mem_cons_of_mem _ List.mem_cons_self), _, inside List.mem_cons_self, _, rfl⟩

/-- Guarding a part adds no suspend point. -/
theorem IsGuarded.awaits {part : Node} (h : IsGuarded c part n) :
    n.weight Kind.await.weight = part.weight Kind.await.weight := by
  cases h
  simp [Node.weight_mk, Shape.children, Kind.weight_form, Shape.kind]

theorem guarded_awaits {part part' : Option Node} (h : Option.Rel (IsGuarded c) part part') :
    total (Node.weight Kind.await.weight) part'.toList =
      total (Node.weight Kind.await.weight) part.toList := by
  cases h with
  | none => rfl
  | some guarded => simp [guarded.awaits]

/-- Guarding a part adds no state. -/
theorem IsGuarded.states {part : Node} (h : IsGuarded c part n) :
    n.states c = part.states c := by
  cases h
  simp [Node.states_mk, Shape.children, Shape.ownStates]

theorem guarded_states {part part' : Option Node} (h : Option.Rel (IsGuarded c) part part') :
    part'.toList.flatMap (Node.states c) = part.toList.flatMap (Node.states c) := by
  cases h with
  | none => rfl
  | some guarded => simp [guarded.states]

/-- No state is stored in the handlers of a region, if none is stored in what they stand for. -/
theorem handlers_states {cs : List (Clause (Node × Node))} {cleanup fault : Option (Node × Node)}
    {cleanup' fault' : Option Node}
    (guarded : Option.Rel (IsGuarded c) (cleanup.map Prod.snd) cleanup')
    (guarded' : Option.Rel (IsGuarded c) (fault.map Prod.snd) fault')
    (quiet : ∀ y ∈ cs.flatMap Clause.children ++ (cleanup.toList ++ fault.toList),
      y.2.states c = []) :
    ((cs.map (Clause.map Prod.snd)).flatMap Clause.children ++ cleanup'.toList ++
      fault'.toList).flatMap (Node.states c) = [] := by
  rw [List.flatMap_append, List.flatMap_append, guarded_states guarded, guarded_states guarded',
    Clause.flatMap_children, Option.toList_map, Option.toList_map, ← List.flatMap_append,
    ← List.flatMap_append, ← List.map_append, ← List.map_append, List.append_assoc]
  exact List.flatMap_eq_nil_iff.2 (List.forall_mem_map.2 quiet)

end Pieces

/-! ### Expansions -/

section Expansions

variable {keeps : SymbolId → Prop} {c : Contract} {p e : Node} {X : Added}

/-- No suspend point is left. -/
theorem Twin.awaits (h : Twin keeps c p e X) : e.weight Kind.await.weight = 0 := by
  induction h with
  | same x below kind closed undeclared kept ih =>
    rw [Node.weight_mk, Kind.weight_form, Shape.kind_map, if_neg kind, Shape.children_map,
      total_eq_zero (List.forall_mem_map.2 ih)]
  | point operand isPoint isReturn interest ih => rw [isPoint.awaits, ih]
  | unitPoint operand isPoint isReturn interest ih => rw [isPoint.awaits, ih]
  | @region _ _ _ _ body' body e X entry cs cleanup fault cleanup' fault' bodies suspends clauses
      parts guarded guarded' entered ih ihs ihs' =>
    have dispatch : total (Node.weight Kind.await.weight) (X.table.map Case.body) = 0 :=
      total_eq_zero (List.forall_mem_map.2 fun case member ↦ by
        obtain ⟨_, _, _, leads⟩ := bodies.leads 0 member
        exact leads.straight.awaits)
    have clauses : total (Node.weight Kind.await.weight)
        ((cs.map (Clause.map Prod.snd)).flatMap Clause.children) = 0 := by
      rw [Clause.flatMap_children]
      exact total_eq_zero (List.forall_mem_map.2 ihs)
    have parts := total_eq_zero (List.forall_mem_map (f := Prod.snd).2 ihs')
    rw [List.map_append, total_append, ← Option.toList_map, ← Option.toList_map,
      ← guarded_awaits guarded, ← guarded_awaits guarded'] at parts
    cases entered with
    | mk i i₁ i₂ i₃ i₄ i₅ =>
      simp [Node.weight_mk, Kind.weight_form, Shape.kind, Shape.children, dispatch, ih, clauses]
      omega

/-- What is said of each in a row is said of all that is added. -/
theorem Added.length_join {α : Type} {f : Added → List α} {ys : List (Node × Node × Added)}
    (h : ∀ y ∈ ys, (f y.2.2).length = y.1.weight Kind.await.weight) :
    ((ys.map (·.2.2)).flatMap f).length =
      total (Node.weight Kind.await.weight) (ys.map Prod.fst) := by
  induction ys with
  | nil => rfl
  | cons y ys ih =>
    rw [List.map_cons, List.flatMap_cons, List.length_append, List.map_cons, total_cons,
      h y List.mem_cons_self, ih fun z member ↦ h z (List.mem_cons_of_mem y member)]

/-- The settled tree of a region suspends only in the body. -/
theorem Twin.awaits_region {i j k : NodeId} {body : Node} {cs : List (Clause (Node × Node))}
    {cleanup fault : Option (Node × Node)}
    (clauses : ∀ y ∈ cs.flatMap Clause.children, y.1.weight Kind.await.weight = 0)
    (parts : ∀ y ∈ cleanup.toList ++ fault.toList, y.1.weight Kind.await.weight = 0) :
    Node.weight Kind.await.weight ⟨i, .block [] [⟨j, .region ⟨k, .block [] [body]⟩
      (cs.map (Clause.map Prod.fst)) (cleanup.map Prod.fst) (fault.map Prod.fst)⟩]⟩ =
        body.weight Kind.await.weight := by
  have clauses : total (Node.weight Kind.await.weight)
      ((cs.map (Clause.map Prod.fst)).flatMap Clause.children) = 0 := by
    rw [Clause.flatMap_children]
    exact total_eq_zero (List.forall_mem_map.2 clauses)
  have parts := total_eq_zero (List.forall_mem_map (f := Prod.fst).2 parts)
  rw [List.map_append, total_append] at parts
  simp [Node.weight_mk, Kind.weight_form, Shape.kind, Shape.children, clauses, Option.toList_map]
  omega

/-- Each suspend point of a tree got a variable for its awaiter. -/
theorem Twin.length_fields (h : Twin keeps c p e X) :
    X.fields.length = p.weight Kind.await.weight := by
  induction h with
  | same x below kind closed undeclared kept ih =>
    rw [Node.weight_mk, Kind.weight_form, Shape.kind_map, if_neg kind, Shape.children_map,
      Nat.zero_add]
    exact Added.length_join ih
  | point operand isPoint isReturn interest ih =>
    simp [Node.weight_mk, Kind.weight_form, Shape.kind, Shape.children, Added.ofPoint, ih]
    omega
  | unitPoint operand isPoint isReturn interest ih =>
    simp [Node.weight_mk, Kind.weight_form, Shape.kind, Shape.children, Added.ofPoint, ih]
    omega
  | region bodies suspends clauses parts guarded guarded' entered ih ihs ihs' =>
    rw [Twin.awaits_region (fun y member ↦ (ihs y member).symm) fun y member ↦ (ihs' y member).symm]
    exact ih

/-- Each suspend point of a tree got a state. -/
theorem Twin.length_tests (h : Twin keeps c p e X) :
    (X.table.flatMap Case.tests).length = p.weight Kind.await.weight := by
  induction h with
  | same x below kind closed undeclared kept ih =>
    rw [Node.weight_mk, Kind.weight_form, Shape.kind_map, if_neg kind, Shape.children_map,
      Nat.zero_add, Added.join, List.flatMap_assoc]
    exact Added.length_join (f := fun X ↦ X.table.flatMap Case.tests) ih
  | point operand isPoint isReturn interest ih =>
    simp [Node.weight_mk, Kind.weight_form, Shape.kind, Shape.children, Added.ofPoint, ih]
    omega
  | unitPoint operand isPoint isReturn interest ih =>
    simp [Node.weight_mk, Kind.weight_form, Shape.kind, Shape.children, Added.ofPoint, ih]
    omega
  | region bodies suspends clauses parts guarded guarded' entered ih ihs ihs' =>
    rw [Twin.awaits_region (fun y member ↦ (ihs y member).symm) fun y member ↦ (ihs' y member).symm,
      Added.ofRegion, List.flatMap_singleton]
    exact ih

/-- The parts of a settled region are nodes of it. -/
theorem Twin.region_parts {i j k : NodeId} {body : Node} {cs : List (Clause (Node × Node))}
    {cleanup fault : Option (Node × Node)} {m : Node}
    (part : m = body ∨ ∃ y ∈ cs.flatMap Clause.children ++ (cleanup.toList ++ fault.toList),
      y.1 = m) :
    m ∈ Node.walk ⟨i, .block [] [⟨j, .region ⟨k, .block [] [body]⟩
      (cs.map (Clause.map Prod.fst)) (cleanup.map Prod.fst) (fault.map Prod.fst)⟩]⟩ := by
  let inside : Node × Node := (⟨k, .block [] [body]⟩, ⟨k, .block [] [body]⟩)
  refine Node.mem_walk_of_mem_children ?_ List.mem_cons_self
  rcases part with rfl | ⟨y, member, rfl⟩
  · exact Node.mem_walk_of_mem_children
      (Node.mem_walk_of_mem_children (Node.mem_walk_self _) List.mem_cons_self) List.mem_cons_self
  · refine Node.mem_walk_of_mem_children (Node.mem_walk_self _) ?_
    refine Node.mem_children_map (f := Prod.fst) (x := .region inside cs cleanup fault) ?_
    rw [Shape.children, List.cons_append, List.cons_append, List.append_assoc]
    exact List.mem_cons_of_mem _ member

/-- A tree does not mention the state, and none of its suspend points takes that of a running
body. -/
structure Waits (c : Contract) (p : Node) (X : Added) : Prop where
  apart : c.state.id ∉ p.symbols
  waits : running ∉ X.table.flatMap Case.tests

namespace Waits

/-- What waits in a layer waits in its children. -/
theorem child {i : NodeId} {x : Shape (Node × Node × Added)}
    (h : Waits c ⟨i, x.map Prod.fst⟩ (.join (x.children.map (·.2.2)))) {y : Node × Node × Added}
    (member : y ∈ x.children) : Waits c y.1 y.2.2 where
  apart inside := by
    refine h.apart ?_
    rw [Node.symbols_mk, Shape.children_map]
    exact List.mem_append_right _ (List.mem_flatMap.2 ⟨_, List.mem_map_of_mem member, inside⟩)
  waits inside := by
    refine h.waits ?_
    rw [Added.join, List.flatMap_assoc]
    exact List.mem_flatMap.2 ⟨_, List.mem_map_of_mem member, inside⟩

/-- What waits at a suspend point waits in its operand. -/
theorem operand {p' entry : Node} {q : Point} (h : Waits c p (X ++ .ofPoint q entry))
    (part : p' ∈ p.walk) : Waits c p' X ∧ Int64.ofNat q.index ≠ running := by
  have waits := h.waits
  simp only [Added.append_table, Added.ofPoint, List.flatMap_append, List.flatMap_singleton,
    List.mem_append, List.mem_singleton, not_or] at waits
  exact ⟨⟨fun inside ↦ h.apart (Node.symbols_subset part inside), waits.1⟩, Ne.symm waits.2⟩

/-- What waits in a region waits in its body. -/
theorem body {p' enter : Node} {entry : Label} (h : Waits c p (X.ofRegion entry enter))
    (part : p' ∈ p.walk) : Waits c p' X where
  apart inside := h.apart (Node.symbols_subset part inside)
  waits inside := h.waits ((List.flatMap_singleton _ _).symm ▸ inside)

/-- Nothing waits in a handler. -/
theorem handler {p' : Node} (h : Waits c p X) (part : p' ∈ p.walk) : Waits c p' {} where
  apart inside := h.apart (Node.symbols_subset part inside)
  waits := List.not_mem_nil

end Waits

/-- The states that are stored in an expansion are those of its cases, in the same order. -/
theorem Twin.states (h : Twin keeps c p e X) (waits : Waits c p X) :
    e.states c = X.table.flatMap Case.tests := by
  induction h with
  | same x below kind closed undeclared kept ih =>
    -- An assignment in the source stores no state: the state is newer than the source.
    have own : (x.map (·.2.1)).ownStates c = [] := by
      cases x with
      | assign target y =>
        have other : target.same c.state = false := by
          refine beq_eq_false_iff_ne.2 fun same ↦ waits.apart ?_
          rw [Node.symbols_mk]
          exact List.mem_append_left _ (List.mem_singleton.2 same.symm)
        simp only [Shape.map, Shape.ownStates, other]
        split <;> rfl
      | _ => rfl
    rw [Node.states_mk, own, Shape.children_map, List.nil_append, Added.join, List.flatMap_assoc,
      List.flatMap_map, List.flatMap_map]
    exact List.flatMap_congr fun y child ↦ ih y child (waits.child child)
  | point operand isPoint isReturn interest ih =>
    obtain ⟨inner, later⟩ := waits.operand (Node.mem_walk_of_mem_children
      (Node.mem_walk_of_mem_children (Node.mem_walk_self _) List.mem_cons_self) List.mem_cons_self)
    rw [isPoint.states later, ih inner, Added.append_table, List.flatMap_append]
    rfl
  | unitPoint operand isPoint isReturn interest ih =>
    obtain ⟨inner, later⟩ := waits.operand (Node.mem_walk_of_mem_children
      (Node.mem_walk_of_mem_children (Node.mem_walk_of_mem_children (Node.mem_walk_self _)
        List.mem_cons_self) List.mem_cons_self) List.mem_cons_self)
    rw [isPoint.states later, ih inner, Added.append_table, List.flatMap_append]
    rfl
  | @region _ _ _ l body' body e X entry cs cleanup fault cleanup' fault' bodies suspends clauses
      parts guarded guarded' entered ih ihs ihs' =>
    have dispatch : (X.table.map Case.body).flatMap (Node.states c) = [] :=
      List.flatMap_eq_nil_iff.2 (List.forall_mem_map.2 fun case member ↦ by
        obtain ⟨_, _, _, leads⟩ := bodies.leads 0 member
        exact leads.states)
    have tests : (X.ofRegion entry (⟨l, .goto entry⟩ : Node)).table.flatMap Case.tests =
        X.table.flatMap Case.tests := List.flatMap_singleton _ _
    have inner := ih (waits.body (region_parts (.inl rfl)))
    have quiet : ∀ y ∈ cs.flatMap Clause.children ++ (cleanup.toList ++ fault.toList),
        y.2.states c = [] := by
      intro y member
      have waits := waits.handler (region_parts (.inr ⟨y, member, rfl⟩))
      rcases List.mem_append.1 member with clause | part
      · exact ihs y clause waits
      · exact ihs' y part waits
    have handlers := handlers_states guarded guarded' quiet
    cases entered with
    | mk i i₁ i₂ i₃ i₄ i₅ =>
      simp only [List.append_assoc, List.flatMap_append] at handlers
      simp only [Node.states_mk, Shape.children, Shape.ownStates, List.flatMap_cons,
        List.flatMap_append, List.flatMap_nil, List.nil_append, List.append_nil, handlers,
        Option.toList_none, List.cons_append, List.append_assoc, dispatch, inner, tests]

/-! ### Suspend points -/

/-- A dispatch in a tree has a case. -/
def Node.Dispatches (n : Node) (case : Case Node) : Prop :=
  ∃ m ∈ n.walk, ∃ value table otherwise,
    m.shape = .switch value table otherwise ∧ case ∈ table

/-- Suspend points stand in some trees, with the states of a table in their order. The cases that
lead back to them are in the table, or in dispatches in the trees. -/
structure Suspends (c : Contract) (es : List Node) (X : Added) (ps : List Point) : Prop where
  states : ps.map (fun q ↦ Int64.ofNat q.index) = X.table.flatMap Case.tests
  labels : (ps.map Point.label).Sublist X.labels
  stands : ∀ q ∈ ps, ∃ e ∈ es, ∃ acquire operand, ∃ m ∈ e.walk, IsPoint c acquire q operand m
  returns : ∀ q ∈ ps, ∃ entry, IsReturn c q.label entry ∧
    (⟨[Int64.ofNat q.index], entry⟩ ∈ X.table ∨
      ∃ e ∈ es, e.Dispatches ⟨[Int64.ofNat q.index], entry⟩)

namespace Suspends

variable {es es' : List Node} {X' : Added} {ps ps' : List Point}

/-- What suspends side by side suspends together. -/
theorem append (h : Suspends c es X ps) (h' : Suspends c es' X' ps') :
    Suspends c (es ++ es') (X ++ X') (ps ++ ps') where
  states := by
    rw [List.map_append, h.states, h'.states, Added.append_table, List.flatMap_append]
  labels := by
    rw [List.map_append, Added.append_labels]
    exact h.labels.append h'.labels
  stands q member := by
    rcases List.mem_append.1 member with member | member
    · obtain ⟨e, inside, stands⟩ := h.stands q member
      exact ⟨e, List.mem_append_left _ inside, stands⟩
    · obtain ⟨e, inside, stands⟩ := h'.stands q member
      exact ⟨e, List.mem_append_right _ inside, stands⟩
  returns q member := by
    rw [Added.append_table]
    rcases List.mem_append.1 member with member | member
    · obtain ⟨entry, isReturn, case | ⟨e, inside, case⟩⟩ := h.returns q member
      · exact ⟨entry, isReturn, .inl (List.mem_append_left _ case)⟩
      · exact ⟨entry, isReturn, .inr ⟨e, List.mem_append_left _ inside, case⟩⟩
    · obtain ⟨entry, isReturn, case | ⟨e, inside, case⟩⟩ := h'.returns q member
      · exact ⟨entry, isReturn, .inl (List.mem_append_right _ case)⟩
      · exact ⟨entry, isReturn, .inr ⟨e, List.mem_append_right _ inside, case⟩⟩

/-- What stands in some trees stands in a tree around them. -/
theorem around (h : Suspends c es X ps) (inside : ∀ m ∈ es, m ∈ e.walk) :
    Suspends c [e] X ps where
  states := h.states
  labels := h.labels
  stands q member := by
    obtain ⟨o, among, acquire, operand, m, within, isPoint⟩ := h.stands q member
    exact ⟨e, List.mem_cons_self, acquire, operand, m, Node.mem_walk_trans within (inside o among),
      isPoint⟩
  returns q member := by
    obtain ⟨entry, isReturn, case | ⟨o, among, m, within, case⟩⟩ := h.returns q member
    · exact ⟨entry, isReturn, .inl case⟩
    · exact ⟨entry, isReturn, .inr
        ⟨e, List.mem_cons_self, m, Node.mem_walk_trans within (inside o among), case⟩⟩

/-- Children that suspend suspend together. -/
theorem row {ys : List (Node × Node × Added)}
    (h : ∀ y ∈ ys, ∃ ps, Suspends c [y.2.1] y.2.2 ps) :
    ∃ ps, Suspends c (ys.map (·.2.1)) (.join (ys.map (·.2.2))) ps := by
  induction ys with
  | nil => exact ⟨[], rfl, .slnil, nofun, nofun⟩
  | cons y ys ih =>
    obtain ⟨ps, head⟩ := h y List.mem_cons_self
    obtain ⟨ps', tail⟩ := ih fun z member ↦ h z (List.mem_cons_of_mem y member)
    exact ⟨ps ++ ps', head.append tail⟩

/-- One more suspend point, around others. -/
theorem point {acquire : Option String} {q : Point} {o entry : Node} (h : Suspends c [o] X ps)
    (isPoint : IsPoint c acquire q o e) (isReturn : IsReturn c q.label entry) :
    Suspends c [e] (X ++ .ofPoint q entry) (ps ++ [q]) := by
  have last : Suspends c [e] (.ofPoint q entry) [q] :=
    ⟨rfl, .refl _, List.forall_mem_singleton.2 ⟨e, List.mem_cons_self, acquire, o, e,
      Node.mem_walk_self e, isPoint⟩, List.forall_mem_singleton.2
        ⟨entry, isReturn, .inl List.mem_cons_self⟩⟩
  refine (h.append last).around fun m member ↦ ?_
  rcases List.mem_pair.1 member with rfl | rfl
  · exact isPoint.within
  · exact Node.mem_walk_self _

end Suspends

/-- Every state of an expansion is that of a suspend point in it. -/
theorem Twin.suspends (h : Twin keeps c p e X) : ∃ ps, Suspends c [e] X ps := by
  induction h with
  | same x below kind closed undeclared kept ih =>
    obtain ⟨ps, row⟩ := Suspends.row ih
    refine ⟨ps, row.around (List.forall_mem_map.2 fun y child ↦ ?_)⟩
    exact Node.mem_walk_of_mem_children (Node.mem_walk_self _) (Node.mem_children_map child)
  | point operand isPoint isReturn interest ih =>
    obtain ⟨ps, inner⟩ := ih
    exact ⟨_, inner.point isPoint isReturn⟩
  | unitPoint operand isPoint isReturn interest ih =>
    obtain ⟨ps, inner⟩ := ih
    exact ⟨_, inner.point isPoint isReturn⟩
  | region bodies suspends clauses parts guarded guarded' entered ih ihs ihs' =>
    obtain ⟨ps, inner⟩ := ih
    obtain ⟨within, m, inside, value, shape⟩ := entered.within
    have whole := inner.around (List.forall_mem_singleton.2 within)
    refine ⟨ps, whole.states.trans (List.flatMap_singleton _ _).symm,
      whole.labels.trans (List.sublist_append_left _ _), whole.stands, fun q member ↦ ?_⟩
    obtain ⟨entry, isReturn, case | case⟩ := whole.returns q member
    · exact ⟨entry, isReturn, .inr ⟨_, List.mem_cons_self, m, inside, value, _, none, shape, case⟩⟩
    · exact ⟨entry, isReturn, .inr case⟩

/-! ### Regions -/

/-- A region is come back to from the dispatch around it, to go on from its own: for the same
states, which are those of the suspend points in it. -/
structure Node.Reenters (c : Contract) (root : Node) (outer : Table) (region body : Node) :
    Prop where
  /-- The states of its own dispatch, in order. -/
  inner : ∃ table, body.dispatch? c = some table ∧ table.flatMap Case.tests = body.states c
  /-- The case for them in the dispatch around it leads to the label in front of it. -/
  entered : ∃ before after i j k entry,
    outer = before ++ ⟨body.states c, ⟨i, .goto entry⟩⟩ :: after ∧
      ⟨j, .block [] [⟨k, .label entry⟩, region]⟩ ∈ root.walk ∧
      -- No other case is for one of them.
      ∀ case ∈ before ++ after, ∀ state ∈ case.tests, state ∉ body.states c

/-- A region that is reentered is reentered in every tree around it. -/
theorem Node.Reenters.around {root root' region body : Node} {outer : Table}
    (h : root.Reenters c outer region body) (inside : root ∈ root'.walk) :
    root'.Reenters c outer region body where
  inner := h.inner
  entered := by
    obtain ⟨before, after, i, j, k, entry, split, within, single⟩ := h.entered
    exact ⟨before, after, i, j, k, entry, split, Node.mem_walk_trans within inside, single⟩

/-- What every region that suspends has to have in a tree inside of a dispatch. -/
def Node.Levels (c : Contract) (root : Node) (outer : Table) : Prop :=
  ∀ table region, (table, region) ∈ root.regions c outer → ∀ body clauses cleanup fault,
    region.shape = .region body clauses cleanup fault → body.states c ≠ [] →
      root.Reenters c table region body ∧ body.states c <:+: outer.flatMap Case.tests

/-- Where no state is stored, no region suspends. -/
theorem Node.states_eq_nil_of_regions {root region body : Node} {outer table : Table}
    {clauses : List (Clause Node)} {cleanup fault : Option Node} (h : root.states c = [])
    (member : (table, region) ∈ root.regions c outer)
    (shape : region.shape = .region body clauses cleanup fault) : body.states c = [] := by
  have child : body ∈ region.children := by
    rw [children, shape]
    exact List.mem_cons_self
  have inside := mem_walk_of_mem_children (mem_walk_self body) child
  have none := states_subset (c := c) (mem_walk_trans inside (mem_walk_of_regions member))
  rwa [h, List.subset_nil] at none

/-- Regions of a part are regions of the whole. -/
theorem Node.Levels.around {root root' : Node} {outer : Table} (h : root.Levels c outer)
    (inside : root ∈ root'.walk)
    (regions : root'.regions c outer = root.regions c outer) : root'.Levels c outer := by
  intro table region member body clauses cleanup fault shape suspends
  rw [regions] at member
  obtain ⟨reenters, range⟩ := h table region member body clauses cleanup fault shape suspends
  exact ⟨reenters.around inside, range⟩

/-- The dispatch that an entered region starts with. -/
theorem IsEntered.dispatch {entry : Label} {table : Table} {body n : Node}
    {clauses : List (Clause Node)} {cleanup fault : Option Node}
    (h : IsEntered c entry table body clauses cleanup fault n) : ∃ i j k region inside,
      n = ⟨i, .block [] [⟨j, .label entry⟩, ⟨k, region⟩]⟩ ∧
        region = .region inside clauses cleanup fault ∧ inside.dispatch? c = some table ∧
        ((∀ case ∈ table, case.body.states c = []) → inside.states c = body.states c) ∧
        ((∀ case ∈ table, case.body.Straight) →
          inside.regions c table = body.regions c table) := by
  cases h with
  | mk i i₁ i₂ i₃ i₄ i₅ =>
    refine ⟨i, i₁, i₂, _, _, rfl, rfl, ?_, fun quiet ↦ ?_, fun straight ↦ ?_⟩
    · simp [Node.dispatch?, Node.shape, Variable.same]
    · have cases : (table.map Case.body).flatMap (Node.states c) = [] :=
        List.flatMap_eq_nil_iff.2 (List.forall_mem_map.2 quiet)
      simp [Node.states_mk, Shape.children, Shape.ownStates, cases]
    · have dispatch : Node.Straight ⟨i₄, .switch ⟨i₅, .var c.localState⟩ table none⟩ := by
        simpa [Node.straight_mk, Shape.children, Shape.kind] using straight
      rw [Node.regions_other c (by rintro ⟨⟩), Shape.children, List.flatMap_cons,
        List.flatMap_singleton, dispatch.regions, List.nil_append]

/-- Every region of an expansion that suspends is come back to from the dispatch around it. -/
theorem Twin.levels (h : Twin keeps c p e X) (waits : Waits c p X) {outer : Table}
    (within : X.table <:+: outer) (distinct : (outer.flatMap Case.tests).Nodup) :
    e.Levels c outer := by
  induction h generalizing outer with
  | @same i i' x below kind closed undeclared kept ih =>
    by_cases region : x.kind = .region
    -- A region that was kept does not suspend, so nothing in it stores a state.
    · have none : (Added.join (x.children.map (·.2.2))).table = [] :=
        List.flatMap_eq_nil_iff.2 (List.forall_mem_map.2 (closed (.inl region)))
      have twin : Twin keeps c ⟨i, _⟩ ⟨i', _⟩ _ := .same x below kind closed undeclared kept
      have states := twin.states waits
      rw [none] at states
      intro table m member body clauses cleanup fault shape suspends
      exact absurd (Node.states_eq_nil_of_regions states member shape) suspends
    · intro table m member body clauses cleanup fault shape suspends
      rw [Node.regions_other c (by rwa [Shape.kind_map]), Shape.children_map,
        List.flatMap_map] at member
      obtain ⟨y, child, member⟩ := List.mem_flatMap.1 member
      have part : y.2.2.table <:+: (Added.join (x.children.map (·.2.2))).table :=
        List.infix_of_mem_flatten (List.mem_map_of_mem (List.mem_map_of_mem child))
      obtain ⟨reenters, range⟩ := ih y child (waits.child child) (part.trans within) distinct
        table m member body clauses cleanup fault shape suspends
      exact ⟨reenters.around (Node.mem_walk_of_mem_children (Node.mem_walk_self _)
        (Node.mem_children_map child)), range⟩
  | point operand isPoint isReturn interest ih =>
    obtain ⟨inner, -⟩ := waits.operand (Node.mem_walk_of_mem_children
      (Node.mem_walk_of_mem_children (Node.mem_walk_self _) List.mem_cons_self) List.mem_cons_self)
    exact (ih inner ((List.prefix_append _ _).isInfix.trans within) distinct).around
      isPoint.within (isPoint.regions outer)
  | unitPoint operand isPoint isReturn interest ih =>
    obtain ⟨inner, -⟩ := waits.operand (Node.mem_walk_of_mem_children
      (Node.mem_walk_of_mem_children (Node.mem_walk_of_mem_children (Node.mem_walk_self _)
        List.mem_cons_self) List.mem_cons_self) List.mem_cons_self)
    exact (ih inner ((List.prefix_append _ _).isInfix.trans within) distinct).around
      isPoint.within (isPoint.regions outer)
  | @region _ _ _ l body' body e X entry cs cleanup fault cleanup' fault' bodies suspends clauses
      parts guarded guarded' entered ih ihs ihs' =>
    have inner := waits.body (region_parts (.inl rfl))
    obtain ⟨before, after, rfl⟩ := within
    have cases (case) (member : case ∈ X.table) :
        case.body.Straight ∧ case.body.states c = [] := by
      obtain ⟨_, _, _, leads⟩ := bodies.leads 0 member
      exact ⟨leads.straight, leads.states⟩
    have around := entered.within.1
    obtain ⟨i, j, k, m, inside, rfl, rfl, dispatch, states, regions⟩ := entered.dispatch
    have states := (states fun case member ↦ (cases case member).2).trans (bodies.states inner)
    have regions := regions fun case member ↦ (cases case member).1
    simp only [Added.ofRegion, List.flatMap_append, List.flatMap_singleton, List.nodup_append]
      at distinct
    have range : X.table.flatMap Case.tests <:+:
        (before ++ (X.ofRegion entry (⟨l, .goto entry⟩ : Node)).table ++ after).flatMap
          Case.tests := by
      simp only [Added.ofRegion, List.flatMap_append, List.flatMap_singleton]
      exact ⟨_, _, rfl⟩
    intro table region member body₁ clauses₁ cleanup₁ fault₁ shape interrupts
    rw [Node.regions_other c (by rintro ⟨⟩), Shape.children, List.flatMap_cons,
      Node.regions_other c (by rintro ⟨⟩), Shape.children, List.flatMap_nil, List.nil_append,
      List.flatMap_singleton, Node.regions_region, dispatch, Option.getD_some, regions,
      List.cons_append, List.mem_cons, List.mem_append] at member
    -- The region is the one that was made, or one in its body, or one in a handler.
    rcases member with eq | own | handler
    · cases eq
      cases shape
      refine ⟨⟨⟨_, dispatch, states.symm⟩, before, after, l, i, j, entry, ?_,
        Node.mem_walk_self _, fun case member state tested ↦ ?_⟩, states ▸ range⟩
      · rw [states, List.append_assoc]
        rfl
      · rw [states]
        intro again
        rcases List.mem_append.1 member with earlier | later
        · exact distinct.1.2.2 state (List.mem_flatMap.2 ⟨case, earlier, tested⟩) state again rfl
        · exact distinct.2.2 state (List.mem_append_right _ again) state
            (List.mem_flatMap.2 ⟨case, later, tested⟩) rfl
    · obtain ⟨reenters, part⟩ := ih inner List.infix_rfl distinct.1.2.1 table region own body₁
        clauses₁ cleanup₁ fault₁ shape interrupts
      exact ⟨reenters.around around, part.trans range⟩
    · obtain ⟨part, among, member⟩ := List.mem_flatMap.1 handler
      have quiet := List.flatMap_eq_nil_iff.1 (handlers_states guarded guarded' ?_) part among
      · exact absurd (Node.states_eq_nil_of_regions quiet member shape) interrupts
      · intro y member
        have waits := waits.handler (region_parts (.inr ⟨y, member, rfl⟩))
        rcases List.mem_append.1 member with clause | part
        · exact (clauses y clause).states waits
        · exact (parts y part).states waits

end Expansions

/-! ### Lowered bodies -/

/-- The suspend points of a lowered body: where they stand, and where it goes on after them. -/
structure Lowered.SuspendsAt (l : Lowered) (p : Point) : Prop where
  stands : ∃ acquire operand, ∃ n ∈ l.body.walk, IsPoint l.contract acquire p operand n
  /-- The label where it goes on is defined once. -/
  label : l.body.labelsWithin.count p.label.id = 1
  /-- A dispatch has a case for its state that leads there. -/
  case : ∃ entry, IsReturn l.contract p.label entry ∧
    l.body.Dispatches ⟨[Int64.ofNat p.index], entry⟩

/-- A lowered body has one state for each of so many suspend points, at every level: states are
numbered through, and a region that suspends is entered from the dispatch around it for a range of
them, which is the range that its own dispatch is for. -/
structure Lowered.OneStateEach (l : Lowered) (n : Nat) : Prop where
  /-- No suspend point is left as it was. -/
  expanded : l.body.countKind .await = 0
  stateCount : l.stateCount = n
  fields : l.fields.length = n
  tests : l.resume.flatMap Case.tests = (List.range n).map Int64.ofNat
  /-- Each state is stored in one place. -/
  states : l.body.states l.contract = (List.range n).map Int64.ofNat
  points : ∃ ps : List Point, ps.map (fun p ↦ Int64.ofNat p.index) =
    (List.range n).map Int64.ofNat ∧ (ps.map fun p ↦ p.label.id).Nodup ∧
      ∀ p ∈ ps, l.SuspendsAt p
  regions : ∀ table region, (table, region) ∈ l.body.regions l.contract l.resume →
    ∀ body clauses cleanup fault, region.shape = .region body clauses cleanup fault →
      body.states l.contract ≠ [] → l.body.Reenters l.contract table region body ∧
        ∃ first count, body.states l.contract = (List.range' first count).map Int64.ofNat

/-- Preparing weighs nothing, where neither plumbing nor labels are counted. -/
theorem prepare_weight {w : Shape Unit → Nat} (plain : Plain w) (labels : ∀ l, w (.label l) = 0)
    {body prepared : Node} {s s' : Supply} (h : runs (body.prepare {}) s prepared s') :
    prepared.weight w = body.weight w := by
  obtain ⟨spilled, s₁, spills, reduces⟩ := runs_prepare h
  obtain ⟨leaves, weighs⟩ := Node.reduce_weighs reduces
  have none : total (fun l ↦ w (.label l)) leaves = 0 := total_eq_zero fun l _ ↦ labels l
  rw [weighs.weight plain, Node.spill_weight plain spills, none, Nat.add_zero]

/-- Settling weighs nothing. -/
theorem Node.settle_weight {w : Shape Unit → Nat} (plain : Plain w) (n : Node) :
    n.settle.weight w = n.weight w := by
  induction n using Node.induction with
  | step n ih =>
    have layer : Node.weight w ⟨n.id, n.shape.map settle⟩ = n.weight w := by
      obtain ⟨i, sh⟩ := n
      have below : total (Node.weight w) (sh.children.map settle) =
          total (Node.weight w) sh.children := by
        rw [total_map]
        exact total_congr ih
      rw [weight_mk, weight_mk, Node.shape, Shape.form_map, Shape.children_map, below]
    rw [← layer, settle_eq]
    generalize n.shape.map settle = sh
    cases sh with
    | block declared ns => simp [plain.weight_mk, Shape.kind, Kind.isPlumbing, Shape.children]
    | await operand acquire result =>
      dsimp only
      split <;> simp [plain.weight_mk, Shape.kind, Kind.isPlumbing, Shape.children, Shape.form,
        Shape.map]
    | region body clauses cleanup fault =>
      dsimp only
      split <;> simp [plain.weight_mk, Shape.kind, Kind.isPlumbing, Shape.children]
    | _ => rfl

section Assembled

variable {c : Contract} {body root : Node} {table : Table}

/-- A body suspends where what it is assembled of does. -/
theorem IsAssembled.awaits (h : IsAssembled c body table root)
    (straight : ∀ case ∈ table, case.body.Straight) :
    root.weight Kind.await.weight = body.weight Kind.await.weight := by
  have cases : total (Node.weight Kind.await.weight) (table.map Case.body) = 0 :=
    total_eq_zero (List.forall_mem_map.2 fun case member ↦ (straight case member).awaits)
  cases h
  simp [Node.weight_mk, Kind.weight_form, Shape.kind, Shape.children, cases]

/-- The states of a body are those of what it is assembled of. -/
theorem IsAssembled.states (h : IsAssembled c body table root)
    (quiet : ∀ case ∈ table, case.body.states c = []) : root.states c = body.states c := by
  have cases : (table.map Case.body).flatMap (Node.states c) = [] :=
    List.flatMap_eq_nil_iff.2 (List.forall_mem_map.2 quiet)
  cases h
  simp [Node.states_mk, Shape.children, Shape.ownStates, Node.shape, cases]

/-- The regions of a body are those of what it is assembled of. -/
theorem IsAssembled.regions (h : IsAssembled c body table root)
    (straight : ∀ case ∈ table, case.body.Straight) (outer : Table) :
    root.regions c outer = body.regions c outer := by
  cases h with
  | mk i i₁ i₂ i₃ i₄ i₅ i₆ i₇ =>
    have load : Node.Straight ⟨i₁, .assign c.localState ⟨i₂, .var c.state⟩⟩ := by
      simp [Node.straight_mk, Shape.children, Shape.kind]
    have dispatch : Node.Straight
        ⟨i₃, .switch ⟨i₄, .var c.localState⟩ table (some ⟨i₅, .defaultOf .unit⟩)⟩ := by
      simp only [Node.straight_mk, Shape.kind, Shape.children, List.cons_append,
        List.forall_mem_cons, List.forall_mem_append, List.forall_mem_map, Option.toList_some]
      simpa using straight
    have exit : Node.Straight ⟨i₇, .label c.exit⟩ := by
      simp [Node.straight_mk, Shape.children, Shape.kind]
    rw [Node.regions_other c (by rintro ⟨⟩), Shape.children, List.flatMap_cons, List.flatMap_cons,
      List.flatMap_cons, List.flatMap_singleton, load.regions, dispatch.regions, exit.regions,
      Node.regions_other c (by rintro ⟨⟩), Shape.children, Option.toList_some,
      List.flatMap_singleton, List.nil_append, List.nil_append, List.append_nil]

/-- A body dispatches by every case of its table. -/
theorem IsAssembled.dispatches (h : IsAssembled c body table root) {case : Case Node}
    (member : case ∈ table) : root.Dispatches case := by
  cases h with
  | mk i i₁ i₂ i₃ i₄ i₅ i₆ i₇ =>
    have child : ⟨i₃, .switch ⟨i₄, .var c.localState⟩ table (some ⟨i₅, .defaultOf .unit⟩)⟩ ∈
        Node.children ⟨i, .block [c.localState]
          [⟨i₁, .assign c.localState ⟨i₂, .var c.state⟩⟩,
            ⟨i₃, .switch ⟨i₄, .var c.localState⟩ table (some ⟨i₅, .defaultOf .unit⟩)⟩,
            ⟨i₆, .ret (some body)⟩, ⟨i₇, .label c.exit⟩]⟩ :=
      List.mem_cons_of_mem _ List.mem_cons_self
    exact ⟨_, Node.mem_walk_of_mem_children (Node.mem_walk_self _) child, _, _, _, rfl, member⟩

end Assembled

/-- What stands together in a numbering is numbered through. -/
theorem exists_range'_of_infix {α : Type} {f : Nat → α} {as : List α} {n : Nat}
    (h : as <:+: (List.range n).map f) : ∃ first count, as = (List.range' first count).map f := by
  obtain ⟨before, after, split⟩ := h
  obtain ⟨front, back, eq, front', -⟩ := List.map_eq_append_iff.1 split.symm
  obtain ⟨first, middle, rfl, -, rfl⟩ := List.map_eq_append_iff.1 front'
  rw [List.range_eq_range', List.append_assoc, List.range'_eq_append_iff] at eq
  obtain ⟨k, -, -, rest⟩ := eq
  obtain ⟨m, -, rfl, -⟩ := List.range'_eq_append_iff.1 rest.symm
  exact ⟨_, m, rfl⟩

/-- **Exactly one state for each suspend point, at every level.** -/
theorem Node.LowersTo.one_state_each {body : Node} {supply : Supply} {l : Lowered}
    (lowers : body.LowersTo supply l) : l.OneStateEach (body.countKind .await) := by
  obtain ⟨L, s, s', -, -, prepares, -⟩ := lowers.layout
  have settled : L.prepared.settle.weight Kind.await.weight = body.countKind .await := by
    rw [Node.settle_weight (Kind.plain_weight rfl),
      prepare_weight (Kind.plain_weight rfl) (fun _ ↦ rfl) prepares, Node.countKind_eq_weight]
  have count : l.stateCount = body.countKind .await := by
    have length := L.twin.length_tests
    rwa [L.tests, List.length_map, List.length_range, settled] at length
  have tests := L.tests
  rw [count] at tests
  have name : l.contract.state.id ∈ l.contract.names := by simp [Contract.names]
  -- The tree does not name the state, and -1 is no state of the table.
  have waits : Waits l.contract L.prepared.settle L.added :=
    ⟨fun inside ↦ L.apart _ (List.mem_append_left _ name) (L.prepared.symbols_settle inside),
      L.running_not_mem⟩
  have leads (case) (member : case ∈ L.added.table) :
      case.body.Straight ∧ case.body.states l.contract = [] := by
    obtain ⟨_, _, _, leads⟩ := L.twin.leads 0 member
    exact ⟨leads.straight, leads.states⟩
  have straight (case) (member : case ∈ L.added.table) := (leads case member).1
  have states : l.body.states l.contract = L.added.table.flatMap Case.tests :=
    (L.assembled.states fun case member ↦ (leads case member).2).trans (L.twin.states waits)
  obtain ⟨ps, suspends⟩ := L.twin.suspends
  refine ⟨?_, count, ?_, L.resume ▸ tests, states.trans tests, ⟨ps, ?_, ?_, fun p member ↦ ?_⟩,
    ?_⟩
  · rw [countKind_eq_weight, L.assembled.awaits straight, L.twin.awaits]
  · rw [L.fields, L.twin.length_fields, settled]
  · exact suspends.states.trans tests
  · have labels : (L.added.labels.map Label.id).Nodup :=
      (List.nodup_append.1 (List.nodup_append.1 L.names).2.1).2.1
    have sublist := suspends.labels.map Label.id
    rw [List.map_map] at sublist
    exact labels.sublist sublist
  · have added : p.label.id ∈ L.added.labels.map Label.id :=
      List.mem_map_of_mem (suspends.labels.subset (List.mem_map_of_mem member))
    obtain ⟨e, among, acquire, operand, n, within, isPoint⟩ := suspends.stands p member
    obtain rfl := List.mem_singleton.1 among
    refine ⟨⟨acquire, operand, n, mem_walk_trans within L.assembled.within, isPoint⟩, ?_, ?_⟩
    · have other : l.contract.exit.id ≠ p.label.id := by
        have exit : l.contract.exit.id ∈ l.contract.names := by simp [Contract.names]
        exact (List.nodup_append.1 L.names).2.2 _ exit _ (List.mem_append_right _ added)
      rw [L.assembled.labels L.twin.table_labels, List.count_append, L.sole added,
        List.count_singleton, if_neg (by simpa using other)]
    · obtain ⟨entry, isReturn, case | ⟨e, among, n, within, case⟩⟩ := suspends.returns p member
      · exact ⟨entry, isReturn, L.assembled.dispatches case⟩
      · obtain rfl := List.mem_singleton.1 among
        exact ⟨entry, isReturn, n, mem_walk_trans within L.assembled.within, case⟩
  · intro table region member body clauses cleanup fault shape suspends
    rw [L.resume, L.assembled.regions straight] at member
    obtain ⟨reenters, before, after, range⟩ := L.twin.levels waits List.infix_rfl L.distinct
      table region member body clauses cleanup fault shape suspends
    rw [tests] at range
    exact ⟨reenters.around L.assembled.within, exists_range'_of_infix ⟨before, after, range⟩⟩

/-- A region with three suspend points, one of which is the operand of another. -/
theorem Node.LowersTo.three_states_each : ∃ l, Node.LowersTo
    ⟨7, .region ⟨5, .block []
      [⟨2, .await ⟨1, .await ⟨0, .call "yield" []⟩ none .any⟩ none .unit⟩,
        ⟨4, .await ⟨3, .call "yield" []⟩ none .int⟩]⟩ [] (some ⟨6, .call "trace" []⟩) none⟩
    { node := 8 } l ∧ l.OneStateEach 3 := by
  have lowers := @Node.exists_lowersTo
    ⟨7, .region ⟨5, .block []
      [⟨2, .await ⟨1, .await ⟨0, .call "yield" []⟩ none .any⟩ none .unit⟩,
        ⟨4, .await ⟨3, .call "yield" []⟩ none .int⟩]⟩ [] (some ⟨6, .call "trace" []⟩) none⟩
    { node := 8 } nofun (by decide +kernel)
  obtain ⟨l, lowers⟩ := lowers
  exact ⟨l, lowers, lowers.one_state_each⟩

end Suspension
