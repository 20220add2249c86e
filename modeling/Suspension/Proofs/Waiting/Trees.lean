import Suspension.Proofs.Binding.Scopes
import Suspension.Proofs.Resumption.Arrival
import Suspension.Proofs.Waiting.Frames
import Suspension.Proofs.Waiting.Preparation

/-!
# Places of a settled tree and of its expansion

A body that waits for its futures walks the settled tree, with no steps for its futures, while its
lowered form walks the expansion. A `Part` is a pair of nodes that correspond: a tree and its
expansion, or what stands between the block that encloses a region that suspends and the trees in
the region. `Layout.Fits` is what is known of a part at a place. Most parts have one form, with
parts in the places of the children (`Layout.Fits.layer`).
-/

namespace Suspension

open Steps

/-! ### Layers with their scopes -/

namespace Steps

variable {α : Type} {R : Scope → Node → Node → Prop} {f g : α → Node} {A : Scope}

/-- The operands of a layer, each where it stands. -/
theorem OperandsMatch.of_operands {all : List α}
    (h : ∀ {before y after}, all = before ++ y :: after → ∀ done : List Value,
      done.length = before.length →
        R (A.hold (before.map f) done ((y :: after).map f)) (f y) (g y))
    (before after : List α) (split : all = before ++ after) :
    OperandsMatch R A (before.map f) (after.map f) (after.map g) := by
  induction after generalizing before with
  | nil => exact .nil _
  | cons y after ih =>
    refine .cons (fun done length ↦ h split done (by simpa using length)) ?_
    have tail := ih (before ++ [y]) (by simpa using split)
    rwa [List.map_append] at tail

/-- Layers over the same children, each child with two images that are related where it stands, have
one form. -/
theorem Layer.of_scopes {x : Shape α}
    (plain : x.operands = [] → ∀ z ∈ x.scopes,
      R ⟨z.1.map Variable.id ++ A.bound, A.held⟩ (f z.2) (g z.2))
    (operands : ∀ {before y after}, x.operands = before ++ y :: after → ∀ done : List Value,
      done.length = before.length →
        R (A.hold (before.map f) done ((y :: after).map f)) (f y) (g y)) :
    Layer R A (x.map f) (x.map g) := by
  have all {xs : List α} {B : Scope} (h : ∀ y ∈ xs, R B (f y) (g y)) :
      List.Forall₂ (R B) (xs.map f) (xs.map g) := by
    rw [List.forall₂_map_left_iff, List.forall₂_map_right_iff, List.forall₂_same]
    exact h
  have option {o : Option α} {B : Scope} (h : ∀ y ∈ o.toList, R B (f y) (g y)) :
      Option.Rel (R B) (o.map f) (o.map g) := by
    cases o with
    | none => exact .none
    | some y => exact .some (h y List.mem_cons_self)
  -- A child that nothing is bound for stands where the layer stands.
  have child {y : α} (none : x.operands = []) (inside : (([] : List Variable), y) ∈ x.scopes) :
      R A (f y) (g y) := plain none _ inside
  cases x with
  | block declared xs =>
    exact .block (all fun y member ↦ plain rfl (declared, y) (List.mem_map_of_mem member))
  | await y acquire ty => exact .unary (.await _ _ acquire ty) (child rfl List.mem_cons_self)
  | awaiter question y => exact .unary (.awaiter _ _ question) (child rfl List.mem_cons_self)
  | region body cs cleanup fault =>
    have clause {vs : List Variable} {y : α} (inside : (vs, y) ∈ cs.flatMap fun c ↦
        c.children.map fun a ↦ (c.binder.toList, a)) :
        R ⟨vs.map Variable.id ++ A.bound, A.held⟩ (f y) (g y) :=
      plain rfl (vs, y) (List.mem_append_left _ (List.mem_cons_of_mem _ inside))
    have part {y : α} (inside : y ∈ cleanup.toList ++ fault.toList) : R A (f y) (g y) :=
      child rfl (List.mem_append_right _ (List.mem_map_of_mem inside))
    refine .region (child rfl (List.mem_append_left _ List.mem_cons_self)) ?_
      (option fun y member ↦ part (List.mem_append_left _ member))
      (option fun y member ↦ part (List.mem_append_right _ member))
    rw [List.forall₂_map_left_iff, List.forall₂_map_right_iff, List.forall₂_same]
    intro c member
    have parts (y) (inside : y ∈ c.children) : R (A.bind c.binder) (f y) (g y) :=
      clause (List.mem_flatMap.2 ⟨c, member, List.mem_map_of_mem inside⟩)
    exact ⟨rfl, option fun y inside ↦ parts y (List.mem_append_left _ inside),
      parts _ (List.mem_append_right _ List.mem_cons_self)⟩
  | loop body b c => exact .loop (child rfl List.mem_cons_self)
  | label => exact .leaf trivial
  | goto => exact .leaf trivial
  | switch value cs otherwise =>
    refine .switch (child rfl List.mem_cons_self) ?_ (option fun y member ↦ child rfl
      (List.mem_map_of_mem (List.mem_cons_of_mem _ (List.mem_append_right _ member))))
    rw [List.forall₂_map_left_iff, List.forall₂_map_right_iff, List.forall₂_same]
    exact fun c member ↦ ⟨rfl, child rfl (List.mem_map_of_mem
      (List.mem_cons_of_mem _ (List.mem_append_left _ (List.mem_map_of_mem member))))⟩
  | branch test yes no =>
    exact .branch (child rfl List.mem_cons_self)
      (child rfl (List.mem_cons_of_mem _ List.mem_cons_self))
      (option fun y member ↦ child rfl (List.mem_map_of_mem
        (List.mem_cons_of_mem _ (List.mem_cons_of_mem _ member))))
  | lock guard body =>
    exact .lock (child rfl List.mem_cons_self)
      (child rfl (List.mem_cons_of_mem _ List.mem_cons_self))
  | ret value =>
    cases value with
    | none => exact .leaf trivial
    | some y => exact .unary (.ret _ _) (child rfl List.mem_cons_self)
  | raise value =>
    cases value with
    | none => exact .leaf trivial
    | some y => exact .unary (.raise _ _) (child rfl List.mem_cons_self)
  | assign target y => exact .unary (.assign _ _ target) (child rfl List.mem_cons_self)
  | binary op l r =>
    exact .operands (.binary op _ _ _ _) (.of_operands operands [] [l, r] rfl)
  | unary op y => exact .unary (.unary _ _ op) (child rfl List.mem_cons_self)
  | call callee args =>
    exact .operands (.call callee _ _ (by simp)) (.of_operands operands [] args rfl)
  | var => exact .leaf trivial
  | const => exact .leaf trivial
  | defaultOf => exact .leaf trivial

end Steps

/-! ### Settled trees -/

namespace Node

/-- A block around a tree suspends where the tree does. -/
theorem containsAwait_block (i : NodeId) (declared : List Variable) (n : Node) :
    containsAwait ⟨i, .block declared [n]⟩ = n.containsAwait := by
  rw [containsAwait_mk, Shape.children, List.any_cons, List.any_nil, Bool.or_false]
  rfl

theorem containsAwait_region {i : NodeId} {body : Node} {cs : List (Clause Node)}
    {cleanup fault : Option Node} (h : body.containsAwait = true) :
    containsAwait ⟨i, .region body cs cleanup fault⟩ = true := by
  rw [containsAwait_mk, Shape.children, List.cons_append, List.cons_append, List.any_cons, h,
    Bool.true_or, Bool.or_true]

end Node

/-- What suspends somewhere contains a suspend point. -/
theorem Twin.containsAwait {keeps : SymbolId → Prop} {c : Contract} {p e : Node} {X : Added}
    (h : Twin keeps c p e X) (suspends : X.table ≠ []) : p.containsAwait = true := by
  induction h with
  | same x below kind closed undeclared kept ih =>
    obtain ⟨case, inside⟩ := List.exists_mem_of_ne_nil _ suspends
    obtain ⟨Y, member, found⟩ := List.mem_flatMap.1 inside
    obtain ⟨y, child, rfl⟩ := List.mem_map.1 member
    rw [Node.containsAwait_mk, Shape.children_map, List.any_map, Bool.or_eq_true]
    exact .inr (List.any_eq_true.2 ⟨y, child, ih y child (List.ne_nil_of_mem found)⟩)
  | point => rw [Node.containsAwait_mk]; rfl
  | unitPoint =>
    rw [Node.containsAwait_mk, Shape.children, List.any_cons, Node.containsAwait_mk]
    rfl
  | region bodies inner clauses parts guarded guarded' entered ih =>
    rw [Node.containsAwait_block]
    refine Node.containsAwait_region ?_
    rw [Node.containsAwait_block]
    exact ih inner

namespace Node

theorem containsAwait_settle (n : Node) : n.settle.containsAwait = n.containsAwait := by
  induction n using Node.induction with
  | step n ih =>
    have layer : (⟨n.id, n.shape.map settle⟩ : Node).containsAwait = n.containsAwait := by
      rw [containsAwait_mk, Shape.kind_map, Shape.children_map, List.any_map, containsAwait_eq]
      refine congrArg _ (Bool.eq_iff_iff.2 ?_)
      simp only [List.any_eq_true]
      exact exists_congr fun c ↦ and_congr_right fun child ↦ by rw [Function.comp_apply, ih c child]
    rw [settle_eq, ← layer]
    generalize n.shape.map settle = sh
    cases sh with
    | block declared ns => rfl
    | await operand acquire result =>
      dsimp only
      split
      · rw [containsAwait_mk, Shape.children, List.any_cons, containsAwait_mk, containsAwait_mk]
        rfl
      · rw [containsAwait_mk, containsAwait_mk]
        rfl
    | region body clauses cleanup fault =>
      dsimp only
      split
      · rw [containsAwait_block, containsAwait_mk, containsAwait_mk, Shape.children,
          List.cons_append, List.cons_append, List.any_cons, containsAwait_block]
        rfl
      · rfl
    | _ => rfl

/-- A settled tree consists of the layers of the tree and of some that settling puts around. -/
theorem mem_settle {m n : Node} (h : m ∈ n.settle.walk) :
    m.kind ∈ [Kind.block, .await, .region, .defaultOf] ∨
      ∃ k ∈ n.walk, m.shape = k.shape.map settle := by
  induction n using Node.induction generalizing m with
  | step n ih =>
    -- The layers that are put around are of four kinds.
    let Q (m : Node) : Prop := m.kind ∈ [Kind.block, .await, .region, .defaultOf] ∨
      ∃ k ∈ n.walk, m.shape = k.shape.map settle
    have block {i : NodeId} {declared : List Variable} {ns : List Node} :
        Q ⟨i, .block declared ns⟩ := .inl (List.mem_of_elem_eq_true rfl)
    have await {i : NodeId} {o : Node} {acquire : Option String} {ty : Ty} :
        Q ⟨i, .await o acquire ty⟩ := .inl (List.mem_of_elem_eq_true rfl)
    have unit {i : NodeId} : ∀ m ∈ walk ⟨i, .defaultOf .unit⟩, Q m :=
      forall_walk_mk.2 ⟨.inl (List.mem_of_elem_eq_true rfl), nofun⟩
    have below : ∀ c ∈ (n.shape.map settle).children, ∀ m ∈ c.walk, Q m := by
      rw [Shape.children_map, List.forall_mem_map]
      exact fun c child m inside ↦ (ih c child inside).imp_right fun ⟨k, within, same⟩ ↦
        ⟨k, mem_walk_of_mem_children within child, same⟩
    have whole : ∀ i, Q ⟨i, n.shape.map settle⟩ := fun i ↦ .inr ⟨n, n.mem_walk_self, rfl⟩
    suffices all : ∀ m ∈ n.settle.walk, Q m from all m h
    rw [settle_eq]
    generalize n.shape.map settle = sh at below whole
    cases sh with
    | block declared ns => exact forall_walk_mk.2 ⟨block, below⟩
    | await operand acquire result =>
      have inner : ∀ m ∈ walk ⟨n.id, .await ⟨n.id, .block [] [operand]⟩ acquire result⟩, Q m := by
        refine forall_walk_mk.2 ⟨await, fun c member ↦ ?_⟩
        obtain rfl := List.mem_singleton.1 member
        exact forall_walk_mk.2 ⟨block, below⟩
      dsimp only
      split
      · refine forall_walk_mk.2 ⟨block, List.forall_mem_cons.2 ⟨inner, fun c member ↦ ?_⟩⟩
        obtain rfl := List.mem_singleton.1 member
        exact unit
      · exact inner
    | region body clauses cleanup fault =>
      rw [Shape.children, List.cons_append, List.cons_append, List.forall_mem_cons] at below
      dsimp only
      split
      · refine forall_walk_mk.2 ⟨block, fun c member ↦ ?_⟩
        obtain rfl := List.mem_singleton.1 member
        refine forall_walk_mk.2 ⟨.inl (List.mem_of_elem_eq_true rfl), ?_⟩
        rw [Shape.children, List.cons_append, List.cons_append, List.forall_mem_cons]
        refine ⟨forall_walk_mk.2 ⟨block, fun c member ↦ ?_⟩, below.2⟩
        obtain rfl := List.mem_singleton.1 member
        exact below.1
      · refine forall_walk_mk.2 ⟨whole n.id, ?_⟩
        rw [Shape.children, List.cons_append, List.cons_append, List.forall_mem_cons]
        exact below
    | _ => exact forall_walk_mk.2 ⟨whole n.id, below⟩

/-- Operands in front of one that suspends are kept in the settled tree, and not used meanwhile. -/
theorem settle_operands {keeps : SymbolId → Prop} {m n : Node} (ready : ∀ m ∈ n.walk, m.Ready keeps)
    (h : m ∈ n.settle.walk) {before after : List Node} {o : Node}
    (split : m.shape.operands = before ++ o :: after)
    (suspends : (o :: after).any containsAwait = true) :
    ∀ b ∈ before, b.Kept keeps ∧ ∀ v, b.shape = .var v → v.id ∉ o.symbols := by
  rcases mem_settle h with made | ⟨k, within, same⟩
  · -- What settling puts around has no operands in a row.
    have none : m.shape.operands = [] := by
      rw [kind] at made
      cases shape : m.shape with
      | binary => rw [shape] at made; simp [Shape.kind] at made
      | call => rw [shape] at made; simp [Shape.kind] at made
      | _ => rfl
    rw [none] at split
    simp at split
  · have rebuilt : Node.Ready keeps ⟨m.id, k.shape.map settle⟩ := by
      have source := ready k within
      obtain ⟨i, sh⟩ := k
      have layer : Node.Ready keeps ⟨i, sh.map fun c ↦ c⟩ := by
        rwa [show (sh.map fun c ↦ c) = sh from sh.map_id]
      refine layer.rebuilt (fun c _ ↦ containsAwait_settle c) (fun c _ kept ↦ ?_)
        fun c _ d _ id _ inside ↦ symbols_settle d inside
      obtain ⟨j, sh⟩ := c
      rw [settle_eq]
      cases sh <;> first | rfl | cases kept
    rw [same] at split
    exact rebuilt.operands split suspends

end Node

/-! ### Parts -/

/-- What is added is among what is added to the surroundings. -/
structure Added.Within (X Y : Added) : Prop where
  fields : X.fields ⊆ Y.fields
  results : X.results ⊆ Y.results
  labels : X.labels ⊆ Y.labels

namespace Added.Within

variable {X Y Z : Added}

theorem refl (X : Added) : X.Within X :=
  ⟨fun _ h ↦ h, fun _ h ↦ h, fun _ h ↦ h⟩

theorem trans (h : X.Within Y) (h' : Y.Within Z) : X.Within Z :=
  ⟨fun _ inside ↦ h'.fields (h.fields inside), fun _ inside ↦ h'.results (h.results inside),
    fun _ inside ↦ h'.labels (h.labels inside)⟩

theorem nothing (X : Added) : Within {} X :=
  ⟨List.nil_subset _, List.nil_subset _, List.nil_subset _⟩

theorem join {Xs : List Added} (h : X ∈ Xs) : X.Within (.join Xs) :=
  ⟨fun _ inside ↦ List.mem_flatMap.2 ⟨X, h, inside⟩, fun _ inside ↦ List.mem_flatMap.2
    ⟨X, h, inside⟩, fun _ inside ↦ List.mem_flatMap.2 ⟨X, h, inside⟩⟩

theorem append (X Y : Added) : X.Within (X ++ Y) :=
  ⟨List.subset_append_left _ _, List.subset_append_left _ _, List.subset_append_left _ _⟩

theorem ofRegion (X : Added) (entry : Label) (enter : Node) : X.Within (X.ofRegion entry enter) :=
  ⟨fun _ h ↦ h, fun _ h ↦ h, List.subset_append_left _ _⟩

theorem names (h : X.Within Y) : X.names ⊆ Y.names := by
  intro id inside
  simp only [Added.names, List.mem_append, List.mem_map] at inside ⊢
  rcases inside with (⟨v, inside, rfl⟩ | ⟨v, inside, rfl⟩) | ⟨v, inside, rfl⟩
  · exact .inl (.inl ⟨v, h.fields inside, rfl⟩)
  · exact .inl (.inr ⟨v, h.results inside, rfl⟩)
  · exact .inr ⟨v, h.labels inside, rfl⟩

end Added.Within

/-- A protected region that suspends, settled and expanded. -/
structure Enclosed where
  /-- The numbers of the nodes around the settled body. -/
  (i j k : NodeId)
  /-- The numbers of the nodes around the expanded body, and of the jump to them. -/
  (i' i₁ i₂ i₃ i₄ i₅ l : NodeId)
  entry : Label
  body : Node
  body' : Node
  added : Added
  clauses : List (Clause (Node × Node))
  /-- A part that runs at the end, its expansion, and that under its condition. -/
  cleanup : Option (Node × Node × Node)
  fault : Option (Node × Node × Node)

namespace Enclosed

variable (D : Enclosed) (c : Contract)

/-- The body of the settled region. -/
def inside : Node := ⟨D.k, .block [] [D.body]⟩

def region : Node :=
  ⟨D.j, .region D.inside (D.clauses.map (Clause.map Prod.fst)) (D.cleanup.map Prod.fst)
    (D.fault.map Prod.fst)⟩

def whole : Node := ⟨D.i, .block [] [D.region]⟩

/-- The dispatch that the body of the expanded region starts with. -/
def dispatch : Node := ⟨D.i₄, .switch ⟨D.i₅, .var c.localState⟩ D.added.table none⟩

def inside' : Node := ⟨D.i₃, .block [] [D.dispatch c, D.body']⟩

def region' : Node :=
  ⟨D.i₂, .region (D.inside' c) (D.clauses.map (Clause.map Prod.snd)) (D.cleanup.map (·.2.2))
    (D.fault.map (·.2.2))⟩

def whole' : Node := ⟨D.i', .block [] [⟨D.i₁, .label D.entry⟩, D.region' c]⟩

/-- What the region adds to its surroundings. -/
def total : Added := D.added.ofRegion D.entry ⟨D.l, .goto D.entry⟩

/-- The parts of the region are expanded, and those that run at its end are guarded. -/
structure Expands (keeps : SymbolId → Prop) : Prop where
  bodies : Twin keeps c D.body D.body' D.added
  suspends : D.added.table ≠ []
  clauses : ∀ y ∈ D.clauses.flatMap Clause.children, Twin keeps c y.1 y.2 {}
  parts : ∀ y ∈ D.cleanup.toList ++ D.fault.toList,
    Twin keeps c y.1 y.2.1 {} ∧ IsGuarded c y.2.1 y.2.2

theorem entered : IsEntered c D.entry D.added.table D.body' (D.clauses.map (Clause.map Prod.snd))
    (D.cleanup.map (·.2.2)) (D.fault.map (·.2.2)) (D.whole' c) :=
  .mk _ _ _ _ _ _

variable {D c} in
/-- The region as a whole is expanded. -/
theorem Expands.twin {keeps : SymbolId → Prop} (h : D.Expands c keeps) :
    Twin keeps c D.whole (D.whole' c) D.total := by
  have guards {o : Option (Node × Node × Node)} (h : ∀ y ∈ o.toList, IsGuarded c y.2.1 y.2.2) :
      Option.Rel (IsGuarded c) ((o.map fun y ↦ (y.1, y.2.1)).map Prod.snd) (o.map (·.2.2)) := by
    cases o with
    | none => exact .none
    | some y => exact .some (h y List.mem_cons_self)
  have firsts (o : Option (Node × Node × Node)) :
      o.map Prod.fst = (o.map fun y ↦ (y.1, y.2.1)).map Prod.fst := by
    rw [Option.map_map]
    rfl
  rw [whole, region, firsts D.cleanup, firsts D.fault]
  refine .region h.bodies h.suspends h.clauses (fun y member ↦ ?_)
    (guards fun y member ↦ (h.parts y (List.mem_append_left _ member)).2)
    (guards fun y member ↦ (h.parts y (List.mem_append_right _ member)).2) (D.entered c)
  rw [Option.toList_map, Option.toList_map, ← List.map_append] at member
  obtain ⟨z, inside, rfl⟩ := List.mem_map.1 member
  exact (h.parts z inside).1

/-- A part with its guard. -/
theorem exists_guard {part : Option (Node × Node)} {part' : Option Node}
    (h : Option.Rel (IsGuarded c) (part.map Prod.snd) part') :
    ∃ y : Option (Node × Node × Node), part.map Prod.fst = y.map Prod.fst ∧ part' = y.map (·.2.2) ∧
      ∀ z ∈ y.toList, (z.1, z.2.1) ∈ part.toList ∧ IsGuarded c z.2.1 z.2.2 := by
  cases part with
  | none =>
    cases h
    exact ⟨none, rfl, rfl, nofun⟩
  | some y =>
    cases h with
    | @some _ g guarded =>
      refine ⟨some (y.1, y.2, g), rfl, rfl, fun z member ↦ ?_⟩
      obtain rfl := List.mem_singleton.1 member
      exact ⟨List.mem_cons_self, guarded⟩

end Enclosed

/-- A pair of nodes that correspond. -/
inductive Part
  /-- A tree and its expansion, with what the expansion adds. -/
  | twin (p e : Node) (X : Added)
  /-- A region that suspends, inside of the blocks around. -/
  | region (D : Enclosed)
  /-- The body of a region that suspends, with the dispatch in front of it in the expansion. -/
  | body (D : Enclosed)
  /-- A part that runs at the end of a region, and the same under its condition. -/
  | guarded (p part g : Node)

namespace Part

/-- The node of the settled tree. -/
def settled : Part → Node
  | twin p _ _ => p
  | region D => D.region
  | body D => D.inside
  | guarded p _ _ => p

/-- The node of the tree that waits for its futures, which take no steps. -/
def first (k : Part) : Node :=
  k.settled.prompt

/-- The node of the expansion. -/
def second (c : Contract) : Part → Node
  | twin _ e _ => e
  | region D => D.region' c
  | body D => D.inside' c
  | guarded _ _ g => g

/-- What the expansion adds to its surroundings. -/
def added : Part → Added
  | twin _ _ X => X
  | region D => D.total
  | body D => D.added
  | guarded _ _ _ => {}

/-- The nodes correspond. -/
def Stands (keeps : SymbolId → Prop) (c : Contract) : Part → Prop
  | twin p e X => Twin keeps c p e X
  | region D => D.Expands c keeps
  | body D => D.Expands c keeps
  | guarded p part g => Twin keeps c p part {} ∧ IsGuarded c part g

/-- A tree beside its expansion. -/
def ofTwin (y : Node × Node × Added) : Part :=
  twin y.1 y.2.1 y.2.2

/-- What a layer of trees and their expansions has to keep. -/
structure Twins (keeps : SymbolId → Prop) (c : Contract) (x : Shape (Node × Node × Added)) :
    Prop where
  below : ∀ y ∈ x.children, Twin keeps c y.1 y.2.1 y.2.2
  kind : x.kind ≠ .await
  closed : x.kind = .region ∨ x.kind = .lock → ∀ y ∈ x.children, y.2.2.table = []
  undeclared : x.declared ≠ [] → ∀ y ∈ x.children, y.2.2.table = []
  kept : ∀ {before y after}, x.operands = before ++ y :: after → y.2.2.table ≠ [] →
    ∀ z ∈ before, z.1.Kept keeps

/-- The nodes have one form, with parts in the places of their children. -/
inductive Layered (keeps : SymbolId → Prop) (c : Contract) : Part → Shape Part → Prop
  | twin {i i' : NodeId} {x : Shape (Node × Node × Added)} (twins : Twins keeps c x) :
    Layered keeps c
      (twin ⟨i, x.map Prod.fst⟩ ⟨i', x.map (·.2.1)⟩ (.join (x.children.map (·.2.2))))
      (x.map ofTwin)
  | region {D : Enclosed} (expands : D.Expands c keeps) : Layered keeps c (region D)
      (.region (body D) (D.clauses.map (Clause.map fun y ↦ .twin y.1 y.2 {}))
        (D.cleanup.map fun y ↦ .guarded y.1 y.2.1 y.2.2)
        (D.fault.map fun y ↦ .guarded y.1 y.2.1 y.2.2))

namespace Layered

variable {keeps : SymbolId → Prop} {c : Contract} {k : Part} {x : Shape Part}

theorem settled (h : Layered keeps c k x) : k.settled.shape = x.map Part.settled := by
  cases h with
  | twin =>
    rw [Shape.map_map]
    rfl
  | region =>
    show Shape.region _ _ _ _ = Shape.region _ _ _ _
    rw [List.map_map, Option.map_map, Option.map_map]
    congr 1
    exact List.map_congr_left fun a _ ↦ by simp [Clause.map, Part.settled, Function.comp_def]

theorem second (h : Layered keeps c k x) : (k.second c).shape = x.map (Part.second c) := by
  cases h with
  | twin =>
    rw [Shape.map_map]
    rfl
  | region =>
    show Shape.region _ _ _ _ = Shape.region _ _ _ _
    rw [List.map_map, Option.map_map, Option.map_map]
    congr 1
    exact List.map_congr_left fun a _ ↦ by simp [Clause.map, Part.second, Function.comp_def]

/-- No suspend point has the form of its expansion. -/
theorem notAwait (h : Layered keeps c k x) : x.kind ≠ .await := by
  cases h with
  | twin twins =>
    rw [Shape.kind_map]
    exact twins.kind
  | region => nofun

/-- The nodes that wait have the form too, unless they are calls. -/
theorem first (h : Layered keeps c k x) (plain : x.kind ≠ .call) :
    k.first.shape = x.map Part.first := by
  rw [Part.first, Node.prompt_eq]
  show ((k.settled.shape.map Node.prompt).prompt) = _
  rw [h.settled, Shape.map_map]
  cases x with
  | call => exact absurd rfl plain
  | _ => rfl

/-- Nothing is bound for a child that suspends, and what it adds the layer adds. -/
theorem kid (h : Layered keeps c k x) {z : List Variable × Part} (inside : z ∈ x.scopes) :
    z.2.Stands keeps c ∧ (z.2.added.table ≠ [] → k.added.table ≠ [] ∧ z.1 = []) ∧
      z.2.added.Within k.added := by
  cases h with
  | @twin i i' x twins =>
    rw [Shape.scopes_map] at inside
    obtain ⟨⟨vs, y⟩, member, rfl⟩ := List.mem_map.1 inside
    have child : y ∈ x.children := by
      rw [← x.map_snd_scopes]
      exact List.mem_map_of_mem member
    refine ⟨twins.below y child, fun suspends ↦ ⟨?_, ?_⟩,
      .join (List.mem_map_of_mem (f := (·.2.2)) child)⟩
    · have subset := Added.table_subset_join (List.mem_map_of_mem (f := (·.2.2)) child)
      exact fun none ↦ suspends (List.subset_nil.1 (none ▸ subset))
    -- Only blocks and regions bind, and neither does so for a child that suspends.
    · by_contra binds
      refine suspends ?_
      cases x with
      | block declared ns =>
        obtain ⟨_, _, same⟩ := List.mem_map.1 member
        cases same
        exact twins.undeclared binds y child
      | region => exact twins.closed (.inl rfl) y child
      | _ =>
        obtain ⟨_, _, same⟩ := List.mem_map.1 member
        cases same
        exact absurd rfl binds
  | @region D expands =>
    rcases List.mem_append.1 inside with inside | inside
    · rcases List.mem_cons.1 inside with rfl | inside
      · exact ⟨expands, fun _ ↦ ⟨nofun, rfl⟩, .ofRegion _ _ _⟩
      · obtain ⟨_, member, inside⟩ := List.mem_flatMap.1 inside
        obtain ⟨a, among, rfl⟩ := List.mem_map.1 member
        obtain ⟨w, part, rfl⟩ := List.mem_map.1 inside
        have children : (Clause.map (fun y ↦ Part.twin y.1 y.2 {}) a).children =
            a.children.map fun y ↦ Part.twin y.1 y.2 {} := by
          simp [Clause.map, Clause.children, Option.toList_map]
        rw [children] at part
        obtain ⟨y, child, rfl⟩ := List.mem_map.1 part
        exact ⟨expands.clauses y (List.mem_flatMap.2 ⟨a, among, child⟩), fun some ↦ absurd rfl some,
          .nothing _⟩
    · obtain ⟨w, part, rfl⟩ := List.mem_map.1 inside
      rw [Option.toList_map, Option.toList_map, ← List.map_append] at part
      obtain ⟨y, child, rfl⟩ := List.mem_map.1 part
      exact ⟨expands.parts y child, fun some ↦ absurd rfl some, .nothing _⟩

end Layered

/-- Of a region that suspends, nothing but the body suspends. -/
theorem suspends_region {D : Enclosed} {z : Part} (child : z ∈ (Shape.region (body D)
      (D.clauses.map (Clause.map fun y ↦ .twin y.1 y.2 {}))
      (D.cleanup.map fun y ↦ .guarded y.1 y.2.1 y.2.2)
      (D.fault.map fun y ↦ .guarded y.1 y.2.1 y.2.2)).children) (suspends : z.added.table ≠ []) :
    z = body D := by
  rw [Shape.children, List.cons_append, List.cons_append, List.mem_cons] at child
  refine child.resolve_right fun other ↦ suspends ?_
  rw [List.append_assoc, Option.toList_map, Option.toList_map, ← List.map_append,
    Clause.flatMap_children] at other
  rcases List.mem_append.1 other with clause | part
  · obtain ⟨y, -, rfl⟩ := List.mem_map.1 clause
    rfl
  · obtain ⟨y, -, rfl⟩ := List.mem_map.1 part
    rfl

end Part

/-! ### Places -/

/-- Variables that outlive the runs: those that were hoisted, and parameters. -/
def Lowered.outlasts (l : Lowered) (params : List SymbolId) (id : SymbolId) : Prop :=
  l.keeps id ∨ id ∈ params

namespace Layout

variable {l : Lowered} (L : Layout l) (params : List SymbolId)

/-- Symbols that only the lowered body has. -/
def New (id : SymbolId) : Prop :=
  id ∈ l.contract.names ++ L.added.names

/-- The settled tree asks no future itself, uses variables where they are declared, and declares
none of those that outlive the runs. -/
structure Fair : Prop where
  plain : ∀ m ∈ L.prepared.settle.walk, m.kind ≠ .awaiter
  inScope : L.prepared.settle.Scoped (l.outlasts params)
  declares : ∀ id ∈ L.prepared.settle.declared, ¬ l.outlasts params id
  old : ∀ id ∈ params, ¬ L.New id

/-- A place of the settled tree. Variables are used where they are bound, and those that may not
change do not occur. -/
structure Place (A : Scope) (p : Node) : Prop where
  within : p ∈ L.prepared.settle.walk
  inScope : p.Scoped fun id ↦ id ∈ A.bound ∨ l.outlasts params id
  held : ∀ q ∈ A.held, q.1 ∉ p.symbols

/-- A part at a place. Nothing is bound around what suspends. -/
structure Fits (A : Scope) (k : Part) : Prop where
  place : L.Place params A k.settled
  within : k.second l.contract ∈ l.body.walk
  stands : k.Stands l.keeps l.contract
  bare : k.added.table ≠ [] → A.bound = []
  adds : k.added.Within L.added

variable {L params} {A : Scope}

theorem not_new_of_symbols {p : Node} (within : p ∈ L.prepared.settle.walk) {id : SymbolId}
    (inside : id ∈ p.symbols) : ¬ L.New id := by
  refine fun new ↦ L.apart id new (L.prepared.symbols_settle ?_)
  obtain ⟨m, below, own⟩ := List.mem_flatMap.1 inside
  exact List.mem_flatMap.2 ⟨m, Node.mem_walk_trans below within, own⟩

variable (L) in
/-- Both copies of the state and the variables that hold awaiters are new. -/
theorem new_of_slot {id : SymbolId}
    (h : id ∈ l.contract.state.id :: l.contract.localState.id :: l.fields.map Variable.id) :
    L.New id := by
  rw [L.fields] at h
  simp only [List.mem_cons] at h
  simp only [New, Contract.names, Added.names, List.mem_append, List.mem_cons]
  tauto

namespace Place

variable {p : Node}

/-- A child stands where it stands. -/
theorem child (h : L.Place params A p) {z : List Variable × Node} (inside : z ∈ p.shape.scopes) :
    L.Place params ⟨z.1.map Variable.id ++ A.bound, A.held⟩ z.2 := by
  have among : z.2 ∈ p.children := by
    rw [Node.children, ← Shape.map_snd_scopes]
    exact List.mem_map_of_mem inside
  obtain ⟨i, sh⟩ := p
  refine ⟨Node.mem_children_walk among h.within, ?_, fun q held found ↦ ?_⟩
  · refine ((Node.scoped_mk.1 h.inScope).2 z.1 z.2 inside).mono fun id bound ↦ ?_
    rw [List.mem_append]
    tauto
  · refine h.held q held ?_
    rw [Node.symbols_mk]
    exact List.mem_append_right _ (List.mem_flatMap.2 ⟨z.2, among, found⟩)

/-- The reads of operands are reads of their variables. -/
theorem mem_readsOf {before : List Node} {done : List Value} {q : SymbolId × Value}
    (h : q ∈ Scope.readsOf before done) : ∃ b ∈ before, ∃ v, b.shape = .var v ∧ q.1 = v.id := by
  obtain ⟨⟨b, value⟩, member, read⟩ := List.mem_filterMap.1 h
  dsimp only at read
  split at read
  · rename_i v shape
    cases read
    exact ⟨b, (List.of_mem_zip member).1, v, shape, rfl⟩
  · cases read

/-- An operand stands behind those before it. -/
theorem operand (h : L.Place params A p) {before after : List Node} {o : Node}
    (split : p.shape.operands = before ++ o :: after) (done : List Value) :
    L.Place params
      (A.hold (before.map Node.prompt) done ((o :: after).map Node.prompt)) o := by
  have among : o ∈ p.shape.children := Shape.mem_operands (split ▸ by simp)
  have plain : ([], o) ∈ p.shape.scopes := by
    cases shape : p.shape <;> rw [shape] at split among <;>
      first
      | exact List.mem_map_of_mem among
      | simp [Shape.operands] at split
  have inside := h.child plain
  rw [Scope.hold]
  split
  · rename_i suspends
    refine ⟨inside.within, inside.inScope, fun q held ↦ ?_⟩
    rcases List.mem_append.1 held with read | held
    · obtain ⟨b', among', v, shape, same⟩ := mem_readsOf read
      obtain ⟨b, member, rfl⟩ := List.mem_map.1 among'
      have source : b.shape = .var v := by
        obtain ⟨i, sh⟩ := b
        cases sh <;> first | exact shape | cases shape
      have later : (o :: after).any Node.containsAwait = true := by
        rw [List.any_map] at suspends
        simpa [Function.comp_def, Node.containsAwait_prompt] using suspends
      rw [same]
      exact (Node.settle_operands L.ready h.within split later b member).2 v source
    · exact inside.held q held
  · exact inside

/-- A node is impartial at its place, if it has nothing to do with futures. -/
theorem impartial (h : L.Place params A p) (fair : L.Fair params) (notAwait : p.kind ≠ .await)
    (notCall : p.kind ≠ .call) : Impartial (l.outlasts params) L.New A p.prompt := by
  obtain ⟨i, sh⟩ := p
  have shape : (Node.prompt ⟨i, sh⟩).shape = sh.map Node.prompt := by
    rw [Node.prompt_mk]
    cases sh <;> first | rfl | exact absurd rfl notCall
  have kind : (Node.prompt ⟨i, sh⟩).kind = sh.kind := Node.kind_prompt _
  have own {id : SymbolId} (inside : id ∈ sh.ownSymbols) : id ∈ Node.symbols ⟨i, sh⟩ := by
    rw [Node.symbols_mk]
    exact List.mem_append_left _ inside
  have declares : (sh.map Node.prompt).declared = sh.declared := sh.declared_map _
  have blocks : sh.declared.map Variable.id ⊆ sh.ownSymbols := by
    cases sh <;> first | exact List.Subset.refl _ | exact List.nil_subset _
  refine ⟨?_, ?_, ?_, ?_, ?_, ?_, ?_, ?_⟩
  · rw [shape, Shape.uses_map]
    refine fun v used ↦ ⟨not_new_of_symbols h.within (own ?_),
      (Node.scoped_mk.1 h.inScope).1 v used⟩
    cases sh <;> first | exact List.mem_map_of_mem used | cases used
  · rw [shape, declares, Shape.binders_map]
    refine fun v binds ↦ not_new_of_symbols h.within (own ?_)
    rcases List.mem_append.1 binds with block | clause
    · exact blocks (List.mem_map_of_mem block)
    · cases sh <;> first | exact List.mem_map_of_mem clause | cases clause
  · rw [shape, declares]
    exact fun v block ↦ fair.declares v.id
      (List.mem_flatMap.2 ⟨⟨i, sh⟩, h.within, List.mem_map_of_mem block⟩)
  · rw [shape, Shape.ownSymbols_map]
    rintro id inside - q held rfl
    exact h.held q held (own inside)
  · rw [shape, Shape.ownTargets_map]
    refine fun id target ↦ not_new_of_symbols h.within (own ?_)
    cases sh <;> first | exact target | cases target
  · rwa [kind]
  · rw [kind]
    exact fair.plain ⟨i, sh⟩ h.within
  · rwa [kind]

end Place

namespace Fits

variable {k : Part} {x : Shape Part}

/-- What a part adds is new. -/
theorem new (h : L.Fits params A k) : ∀ id ∈ k.added.names, L.New id :=
  fun _ added ↦ List.mem_append_right _ (h.adds.names added)

/-- Parts in the places of children fit there, behind whatever is held. -/
theorem kid (h : L.Fits params A k) (layered : k.Layered l.keeps l.contract x) {B : Scope}
    {z : List Variable × Part} (inside : z ∈ x.scopes)
    (bound : B.bound = z.1.map Variable.id ++ A.bound) (place : L.Place params B z.2.settled) :
    L.Fits params B z.2 := by
  obtain ⟨stands, suspends, adds⟩ := layered.kid inside
  refine ⟨place, ?_, stands, fun some ↦ ?_, adds.trans h.adds⟩
  · refine Node.mem_children_walk ?_ h.within
    rw [Node.children, layered.second, Shape.children_map, ← x.map_snd_scopes, List.map_map]
    exact List.mem_map_of_mem inside
  · obtain ⟨around, none⟩ := suspends some
    rw [bound, none, h.bare around]
    rfl

/-- A child of a layer fits where it stands. -/
theorem child (h : L.Fits params A k) (layered : k.Layered l.keeps l.contract x)
    {z : List Variable × Part} (inside : z ∈ x.scopes) :
    L.Fits params ⟨z.1.map Variable.id ++ A.bound, A.held⟩ z.2 := by
  refine h.kid layered inside rfl (h.place.child (z := (z.1, z.2.settled)) ?_)
  rw [layered.settled, Shape.scopes_map]
  exact List.mem_map_of_mem inside

/-- An operand fits behind those before it. -/
theorem operand (h : L.Fits params A k) (layered : k.Layered l.keeps l.contract x)
    {before after : List Part} {y : Part} (split : x.operands = before ++ y :: after)
    (done : List Value) :
    L.Fits params (A.hold (before.map Part.first) done ((y :: after).map Part.first)) y := by
  have among : y ∈ x.children := Shape.mem_operands (split ▸ by simp)
  have plain : ([], y) ∈ x.scopes := by
    cases x <;>
      first
      | exact List.mem_map_of_mem among
      | simp [Shape.operands] at split
  have operands : k.settled.shape.operands =
      before.map Part.settled ++ y.settled :: after.map Part.settled := by
    rw [layered.settled, Shape.operands_map, split, List.map_append, List.map_cons]
  have place := h.place.operand operands done
  rw [List.map_map, ← List.map_cons, List.map_map] at place
  refine h.kid layered plain ?_ place
  rw [Scope.hold]
  split <;> rfl

/-- Parts find labels in the same places, but for those that were added. -/
theorem labels (h : L.Fits params A k) {label : SymbolId} (old : ¬ L.New label) :
    k.first.labelsWithin.contains label =
      (LabelIndex.build l.body).contains (k.second l.contract) label := by
  have law : (L.voyage false {} {} 0).Lawful := L.lawful
  have index := law.labels _ h.within label
  refine Eq.trans ?_ index.symm
  have twins {p e : Node} {X : Added} (twin : Twin l.keeps l.contract p e X)
      (new : ∀ id ∈ X.names, L.New id) : label ∈ p.labelsWithin ↔ label ∈ e.labelsWithin := by
    have none : (X.labels.map Label.id).count label = 0 :=
      List.count_eq_zero.2 fun added ↦ old (new _ (List.mem_append_right _ added))
    rw [← List.count_pos_iff, ← List.count_pos_iff, twin.count_labels, none, Nat.add_zero]
  rw [Part.first, Node.labelsWithin_prompt, Bool.eq_iff_iff, List.contains_iff_mem,
    List.contains_iff_mem]
  have new := h.new
  have stands := h.stands
  cases k with
  | twin p e X => exact twins stands new
  | region D =>
    have whole := twins stands.twin new
    have entry : label ≠ D.entry.id := by
      rintro rfl
      refine old (new _ (List.mem_append_right _ (List.mem_map_of_mem ?_)))
      exact List.mem_append_right _ List.mem_cons_self
    simpa [Part.settled, Part.second, Enclosed.whole, Enclosed.whole', Node.labelsWithin_mk,
      Shape.children, Shape.ownLabels, entry] using whole
  | body D =>
    have table := stands.bodies.table_labels
    rw [List.flatMap_map] at table
    have bodies := twins stands.bodies new
    simpa [Part.settled, Part.second, Enclosed.inside, Enclosed.inside', Enclosed.dispatch,
      Node.labelsWithin_mk, Shape.children, Shape.ownLabels, List.flatMap_map, table] using bodies
  | guarded p part g =>
    obtain ⟨twin, guarded⟩ := stands
    rw [Part.second, guarded.labelsWithin]
    exact twins twin (List.forall_mem_nil _)

/-- The operands of corresponding nodes are stable together. -/
theorem stable {p e : Node} {X : Added} (h : Twin l.keeps l.contract p e X) :
    p.prompt.isStable = e.isStable := by
  cases h with
  | same x => cases x <;> rfl
  | point _ isPoint => cases isPoint; rfl
  | unitPoint _ isPoint => cases isPoint; rfl
  | region _ _ _ _ _ _ entered => cases entered; rfl

/-- Parts that stand in the places of children. -/
def Kids (L : Layout l) (params : List SymbolId) (x : Shape Part) (A : Scope)
    (n n' : Node) : Prop :=
  ∃ k ∈ x.children, n = k.first ∧ n' = k.second l.contract ∧ L.Fits params A k

/-- Nodes of one form have parts of one form in the places of their children. -/
theorem layer (h : L.Fits params A k) (layered : k.Layered l.keeps l.contract x)
    (plain : x.kind ≠ .call) :
    Layer (Kids L params x) A k.first.shape (k.second l.contract).shape := by
  rw [layered.first plain, layered.second]
  refine .of_scopes (fun none z inside ↦ ?_) fun {before y after} split done _ ↦ ?_
  · have among : z.2 ∈ x.children := by
      rw [← x.map_snd_scopes]
      exact List.mem_map_of_mem inside
    exact ⟨z.2, among, rfl, rfl, h.child layered inside⟩
  · exact ⟨y, Shape.mem_operands (split ▸ by simp), rfl, rfl, h.operand layered split done⟩

/-- Nodes of one form go hand in hand. -/
theorem lawful {s s' : Setting} (mute : s.records = false) (mute' : s'.records = false)
    (found : ∀ n label, s.labels n label = n.labelsWithin.contains label)
    (indexed : s'.labels = LabelIndex.build l.body)
    (layered : k.Layered l.keeps l.contract x) (plain : x.kind ≠ .call) :
    (Abreast.lockstep (l.outlasts params) L.New l s s' k.first (Kids L params x)).Lawful := by
  refine Abreast.lawful mute mute' (fun _ ↦ L.new_of_slot) ?_ ?_
  · rintro B n n' ⟨z, -, rfl, rfl, fits⟩ label old
    rw [found, indexed]
    exact fits.labels old
  · rintro B sh' os os' n n' same ⟨z, inside, rfl, rfl, -⟩
    rw [layered.first plain] at same
    cases layered with
    | twin twins =>
      rw [Shape.children_map] at inside
      obtain ⟨y, child, rfl⟩ := List.mem_map.1 inside
      exact stable (twins.below y child)
    | region => cases same

end Fits

/-- The settled tree fits beside the expansion, with nothing in force. -/
theorem fits (fair : L.Fair params) :
    L.Fits params {} (.twin L.prepared.settle L.expanded L.added) where
  place := ⟨Node.mem_walk_self _, fair.inScope.mono fun _ ↦ .inr, nofun⟩
  within := L.assembled.within
  stands := L.twin
  bare _ := rfl
  adds := .refl _

end Layout

end Suspension
