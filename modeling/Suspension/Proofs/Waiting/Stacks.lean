import Suspension.Proofs.Waiting.Driving
import Suspension.Proofs.Waiting.Trees
import Suspension.Proofs.Waiting.Upkeep

/-!
# Stacks of corresponding places

The tasks above a place of the settled tree and above the same place of its expansion
(`Layout.Stacks`). A run that was left at a suspend point builds its stack anew. It comes to the
same stack, for what stands above a place that suspends is a track, provided that operands that were
read from variables are read as the same (`Layout.Stacks.tracked`).
-/

namespace Suspension

open Steps

namespace Node

/-- The nodes beneath a node of a tree stand together in the tree. -/
theorem walk_sublist {m n : Node} (h : m ∈ n.walk) : m.walk.Sublist n.walk := by
  induction n using Node.induction with
  | step n ih =>
    rw [walk_eq] at h
    rcases List.mem_cons.1 h with rfl | below
    · exact List.Sublist.refl _
    · obtain ⟨c, child, within⟩ := List.mem_flatMap.1 below
      rw [walk_eq n]
      refine ((ih c child within).trans ?_).cons _
      rw [List.flatMap_def]
      exact List.sublist_flatten_of_mem (List.mem_map_of_mem child)

theorem ids_of_nodes (ns : List Node) : (ns.map Node.id).Sublist (ns.flatMap Node.ids) := by
  induction ns with
  | nil => exact List.Sublist.refl _
  | cons n ns ih =>
    rw [List.map_cons, List.flatMap_cons, n.ids_eq]
    exact (ih.trans (List.sublist_append_right _ _)).cons_cons _

end Node

namespace Steps

theorem SameUnary.self {sh sh' : Shape Node} {o o' : Node} (h : SameUnary sh sh' o o') :
    SameUnary sh' sh' o' o' := by
  cases h <;> constructor

theorem SameOperands.self {sh sh' : Shape Node} {os os' : List Node}
    (h : SameOperands sh sh' os os') :
    SameOperands sh' sh' os' os' := by
  cases h <;> constructor
  rfl

theorem SameOperands.operands {sh sh' : Shape Node} {os os' : List Node}
    (h : SameOperands sh sh' os os') : sh.operands = os ∧ sh'.operands = os' := by
  cases h <;> exact ⟨rfl, rfl⟩

/-- What has parts that run at its end is a region. -/
theorem region_of_parts {n c : Node} (h : (partsOf n).1 = some c ∨ (partsOf n).2 = some c) :
    n.kind = .region := by
  obtain ⟨i, shape⟩ := n
  cases shape with
  | region => rfl
  | _ => simp [partsOf, Node.shape] at h

/-- What has clauses is a region. -/
theorem kind_of_clauses {n : Node} {clause : Clause Node} (h : clause ∈ clausesOf n) :
    n.kind = .region := by
  obtain ⟨i, shape⟩ := n
  cases shape with
  | region => rfl
  | _ => simp [clausesOf, Node.shape] at h

/-- Where operands wait for one that is not stable, nothing is sought in those that come
after it. -/
theorem unsought_of_unstable {c : Node} {rest rest' : List (Node × Option SymbolId)}
    (ready : Ready ((c, none) :: rest)) (unstable : c.isStable = false)
    (seeks : rest.map Prod.snd = rest'.map Prod.snd) :
    rest' = (rest'.map Prod.fst).map fun o ↦ (o, none) := by
  rw [List.map_map]
  refine (List.map_id rest').symm.trans (List.map_congr_left fun p member ↦ ?_)
  have sought : p.2 ∈ rest.map Prod.snd := seeks ▸ List.mem_map_of_mem member
  obtain ⟨q, inside, same⟩ := List.mem_map.1 sought
  have free := (List.pairwise_cons.1 ready).1 q inside
  obtain ⟨o, seek⟩ := p
  cases seek with
  | none => rfl
  | some label =>
    rw [free (by rw [same]; rfl)] at unstable
    cases unstable

end Steps

/-- How a body is run that waits for its futures. -/
def waiting : Setting where
  labels n label := n.labelsWithin.contains label
  waits := true

/-- How the runs of a lowered body are made. -/
def Lowered.setting (l : Lowered) : Setting where
  labels := LabelIndex.build l.body

/-- The arguments of a call that makes futures, from some place on: the number of steps that a
future takes, the second argument, is taken to zero if it is a constant. -/
inductive Arguments (callee : String) : Nat → List Part → List Node → Prop
  | nil (m : Nat) : Arguments callee m [] []
  | same {m : Nat} (k : Part) {ks : List Part} {ns : List Node}
      (rest : Arguments callee (m + 1) ks ns) :
    Arguments callee m (k :: ks) (k.first :: ns)
  | steps {k : Part} {ks : List Part} {ns : List Node} {i : NodeId} {a : Int64}
    (takes : takesSteps callee = true) (constant : k.settled = ⟨i, .const (.int a)⟩)
    (rest : Arguments callee 2 ks ns) : Arguments callee 1 (k :: ks) (⟨i, .const (.int 0)⟩ :: ns)

namespace Layout

variable {l : Lowered} (L : Layout l) (params : List SymbolId)

/-- The tree that waits for its futures, which take no steps. -/
def prompt : Node := L.prepared.settle.prompt

/-- The tasks of a node that waits for the future of its operand. -/
inductive WaitTasks (acquire : Option String) (o : Node) (result : Option Variable) :
    Node → List Steps.Task → Prop
  | value (i j : NodeId) (ty : Ty) (interest : result ≠ none) : WaitTasks acquire o result
      ⟨i, .await ⟨j, .block [] [o]⟩ acquire ty⟩
      [⟨⟨j, .block [] [o]⟩, .statements []⟩, ⟨⟨i, .await ⟨j, .block [] [o]⟩ acquire ty⟩, .operand⟩]
  | unit (i j k u : NodeId) (ty : Ty) (interest : result = none) : WaitTasks acquire o result
      ⟨i, .block [] [⟨j, .await ⟨k, .block [] [o]⟩ acquire ty⟩, ⟨u, .defaultOf .unit⟩]⟩
      [⟨⟨k, .block [] [o]⟩, .statements []⟩, ⟨⟨j, .await ⟨k, .block [] [o]⟩ acquire ty⟩, .operand⟩,
        ⟨⟨i, .block [] [⟨j, .await ⟨k, .block [] [o]⟩ acquire ty⟩, ⟨u, .defaultOf .unit⟩]⟩,
          .statements [⟨u, .defaultOf .unit⟩]⟩]

/-- The tasks that wait for corresponding nodes. -/
inductive Stacks : Scope → Part → List Steps.Task → List Steps.Task → Prop
  | root (i j : NodeId) {K' : List Steps.Task} (outer : OuterTasks L.expanded l.body K') :
    Stacks {} (.twin L.prepared.settle L.expanded L.added)
      [⟨⟨j, .ret (some L.prompt)⟩, .operand⟩,
        ⟨⟨i, .block [] [⟨j, .ret (some L.prompt)⟩]⟩, .statements []⟩] K'
  | layer {A B : Scope} {k z : Part} {x : Shape Part} {st st' : Stage} {K K' : List Steps.Task}
    (fits : L.Fits params A k) (layered : k.Layered l.keeps l.contract x) (plain : x.kind ≠ .call)
    (child : z ∈ x.children)
    (stages : StageMatch (fun label ↦ ¬ L.New label) (fun _ _ ↦ False) A k.first
      (k.second l.contract) st st' B z.first (z.second l.contract))
    (outer : Stacks A k K K') :
    Stacks B z (⟨k.first, st⟩ :: K) (⟨k.second l.contract, st'⟩ :: K')
  | call {A : Scope} {k y : Part} {callee : String} {before after : List Part}
    {done done' : List Value} {rest rest' : List (Node × Option SymbolId)} {K K' : List Steps.Task}
    (fits : L.Fits params A k)
    (layered : k.Layered l.keeps l.contract (.call callee (before ++ y :: after)))
    (given : Given callee done done')
    (known : List.Forall₂ Known (before.map Part.first) done')
    (left : Arguments callee (before.length + 1) after (rest.map Prod.fst))
    (left' : rest'.map Prod.fst = after.map (Part.second l.contract))
    (seeks : rest.map Prod.snd = rest'.map Prod.snd)
    (sought : ∀ label, some label ∈ rest'.map Prod.snd → ¬ L.New label)
    (ready : Ready ((y.second l.contract, none) :: rest')) (outer : Stacks A k K K') :
    Stacks (A.hold (before.map Part.first) done' ((y :: after).map Part.first)) y
      (⟨k.first, .operands done rest⟩ :: K) (⟨k.second l.contract, .operands done' rest'⟩ :: K')
  | point {A : Scope} {p p' e o entry : Node} {acquire : Option String} {X : Added} {q : Point}
    {ts ts' K K' : List Steps.Task}
    (fits : L.Fits params A (.twin p e (X ++ .ofPoint q entry)))
    (inside : L.Fits params A (.twin p' o X))
    (tasks : WaitTasks acquire p'.prompt q.result p.prompt ts)
    (isPoint : IsPoint l.contract acquire q o e) (isReturn : IsReturn l.contract q.label entry)
    (tasks' : OperandTasks acquire o e ts')
    (outer : Stacks A (.twin p e (X ++ .ofPoint q entry)) K K') :
    Stacks A (.twin p' o X) (ts ++ K) (ts' ++ K')
  | block {A : Scope} {D : Enclosed} {K K' : List Steps.Task}
    (fits : L.Fits params A (.twin D.whole (D.whole' l.contract) D.total))
    (inside : L.Fits params A (.region D))
    (outer : Stacks A (.twin D.whole (D.whole' l.contract) D.total) K K') :
    Stacks A (.region D) (⟨D.whole.prompt, .statements []⟩ :: K)
      (⟨D.whole' l.contract, .statements []⟩ :: K')
  | inside {A : Scope} {D : Enclosed} {K K' : List Steps.Task} (fits : L.Fits params A (.body D))
    (outer : Stacks A (.body D) K K') :
    Stacks A (.twin D.body D.body' D.added) (⟨D.inside.prompt, .statements []⟩ :: K)
      (⟨D.inside' l.contract, .statements []⟩ :: K')
  | guarded {A : Scope} {p part g : Node} {K K' : List Steps.Task}
    (fits : L.Fits params A (.guarded p part g)) (outer : Stacks A (.guarded p part g) K K') :
    Stacks A (.twin p part {}) K (⟨g, .arm⟩ :: K')

variable {L params} {A : Scope} {k : Part} {K K' : List Steps.Task}

/-- The tasks above the expansion that leads to a place are a track. -/
structure Tracks (L : Layout l) (slots : SymbolId → Option Value) (p e : Node) (X : Added)
    (K' : List Steps.Task) : Prop where
  tracks : ∃ K₁ K₀, K' = K₁ ++ K₀ ∧ OuterTasks L.expanded l.body K₀ ∧
    Track l.keeps slots l.contract L.prepared.settle L.expanded L.added p e X K₁

/-- The tasks above a place that suspends are a track, those of its region included. -/
def Tracked (L : Layout l) (slots : SymbolId → Option Value) (K' : List Steps.Task) : Part → Prop
  | .twin p e X => Tracks L slots p e X K'
  | .region D => ∃ K₁, K' = ⟨D.whole' l.contract, .statements []⟩ :: K₁ ∧
    Tracks L slots D.whole (D.whole' l.contract) D.total K₁
  | .body D => ∃ K₁, K' = ⟨D.region' l.contract, .body⟩ :: ⟨D.whole' l.contract, .statements []⟩ ::
    K₁ ∧ Tracks L slots D.whole (D.whole' l.contract) D.total K₁
  | .guarded _ _ _ => True

/-- Children of a node of a lowered body are apart. -/
theorem children_nodup (L : Layout l) {n : Node} (within : n ∈ l.body.walk) : n.children.Nodup := by
  have ids : n.ids.Nodup := L.ids.sublist ((Node.walk_sublist within).map Node.id)
  rw [Node.ids_eq] at ids
  exact ((List.nodup_cons.1 ids).2.sublist (Node.ids_of_nodes n.children)).of_map

/-- What suspends is not stable. -/
theorem unstable_of_suspends {keeps : SymbolId → Prop} {c : Contract} {p e : Node} {X : Added}
    (h : Twin keeps c p e X) (suspends : X.table ≠ []) : e.isStable = false := by
  cases h with
  | same x =>
    cases x <;> first | rfl | exact absurd rfl suspends
  | point _ isPoint => cases isPoint; rfl
  | unitPoint _ isPoint => cases isPoint; rfl
  | region _ _ _ _ _ _ entered => cases entered; rfl

/-- Operands that are kept are read again as what they were. -/
theorem reread {slots : SymbolId → Option Value} {ys : List (Node × Node × Added)}
    {done : List Value} (twins : ∀ y ∈ ys, Twin l.keeps l.contract y.1 y.2.1 y.2.2)
    (kept : ∀ y ∈ ys, y.1.Kept l.keeps)
    (known : List.Forall₂ Known (ys.map fun y ↦ y.1.prompt) done)
    (held : ∀ q ∈ Scope.readsOf (ys.map fun y ↦ y.1.prompt) done, l.keeps q.1 →
      slots q.1 = some q.2) :
    List.Forall₂ (Reread l.keeps slots) (ys.map (·.2.1)) done := by
  induction ys generalizing done with
  | nil => cases known; exact .nil
  | cons y ys ih =>
    cases known with
    | @cons _ v _ done head tail =>
      have later := ih (fun z member ↦ twins z (List.mem_cons_of_mem _ member))
        (fun z member ↦ kept z (List.mem_cons_of_mem _ member)) tail fun q member ↦ by
          refine held q ?_
          rw [Scope.readsOf, List.map_cons, List.zip_cons_cons, List.filterMap_cons]
          split
          · exact member
          · exact List.mem_cons_of_mem _ member
      refine .cons ?_ later
      have keep := kept y List.mem_cons_self
      have shape := (twins y List.mem_cons_self).shape_of_kept keep
      obtain ⟨⟨i, sh⟩, ⟨i', sh'⟩, X⟩ := y
      obtain rfl : sh' = sh := shape
      cases sh' with
      | const => exact head
      | defaultOf => exact head
      | var w => exact ⟨keep, held (w.id, v) List.mem_cons_self keep⟩
      | _ => cases keep

section Tracking

variable {slots : SymbolId → Option Value}

/-- The operands in front of one that suspends are read again. -/
theorem opens_operands {ys : List (Node × Node × Added)} {y : Node × Node × Added}
    {before after : List (Node × Node × Added)} {A : Scope} {done : List Value}
    (split : ys = before ++ y :: after) (twins : ∀ z ∈ ys, Twin l.keeps l.contract z.1 z.2.1 z.2.2)
    (kept : ∀ z ∈ before, z.1.Kept l.keeps) (suspends : y.2.2.table ≠ [])
    (known : List.Forall₂ Known (before.map fun z ↦ z.1.prompt) done)
    (agrees : ∀ q ∈ (A.hold (before.map fun z ↦ z.1.prompt) done
      ((y :: after).map fun z ↦ z.1.prompt)).held, l.keeps q.1 → slots q.1 = some q.2) :
    List.Forall₂ (Reread l.keeps slots) (before.map (·.2.1)) done := by
  have inside (z) (member : z ∈ before) : z ∈ ys := by simp [split, member]
  have here : y ∈ ys := by simp [split]
  have awaits : ((y :: after).map fun z ↦ z.1.prompt).any Node.containsAwait = true := by
    rw [List.map_cons, List.any_cons, Node.containsAwait_prompt,
      (twins y here).containsAwait suspends, Bool.true_or]
  rw [Scope.hold, if_pos awaits] at agrees
  exact reread (fun z member ↦ twins z (inside z member)) kept known
    fun q member ↦ agrees q (List.mem_append_left _ member)

/-- A stage of a layer that suspends is one that seeking enters. -/
theorem opens_of_stages {i' : NodeId} {x : Shape (Node × Node × Added)} {y : Node × Node × Added}
    {i : NodeId} {A B : Scope} {st st' : Stage} (twins : Part.Twins l.keeps l.contract x)
    (plain : x.kind ≠ .call) (distinct : (x.children.map (·.2.1)).Nodup) (member : y ∈ x.children)
    (suspends : y.2.2.table ≠ [])
    (stages : StageMatch (fun label ↦ ¬ L.New label) (fun _ _ ↦ False) A
      (Node.prompt ⟨i, x.map Prod.fst⟩) ⟨i', x.map (·.2.1)⟩ st st' B y.1.prompt y.2.1)
    (agrees : ∀ q ∈ B.held, l.keeps q.1 → slots q.1 = some q.2) :
    Opens l.keeps slots ⟨i', x.map (·.2.1)⟩ y.2.1 st' := by
  have open' : x.kind ≠ .region ∧ x.kind ≠ .lock :=
    ⟨fun region ↦ suspends (twins.closed (.inl region) y member),
      fun lock ↦ suspends (twins.closed (.inr lock) y member)⟩
  -- Regions and locks that suspend are no layers, which leaves the stages of the other forms.
  have kind : ∀ k, Node.kind ⟨i', x.map (·.2.1)⟩ = k → x.kind = k := fun k eq ↦ by
    rw [← eq, Node.kind, Node.shape, Shape.kind_map]
  have notRegion (region : Node.kind ⟨i', x.map (·.2.1)⟩ = .region) : False :=
    open'.1 (kind .region region)
  generalize eq : y.1.prompt = c at stages
  generalize eq' : y.2.1 = c' at stages ⊢
  cases stages with
  | @statements declared before before' rest rest' c c' shape shape' length =>
    have undeclared : declared = [] := by
      have same := congrArg Shape.declared shape'
      rw [Node.shape, Shape.declared_map] at same
      by_contra some
      exact suspends (twins.undeclared (same ▸ some) y member)
    exact .statements (undeclared ▸ shape')
  | round shape shape' => exact .round shape'
  | operand same =>
    exact .operand same.self fun await ↦ twins.kind (kind .await await)
  | @operands before before' after after' c c' done rest rest' same length known left left' seeks
      sought ready =>
    subst eq eq'
    obtain ⟨all, all'⟩ := same.operands
    rw [Node.prompt_mk, Shape.map_map] at all
    have first : (x.map (Node.prompt ∘ Prod.fst)).prompt = x.map (Node.prompt ∘ Prod.fst) := by
      cases x <;> first | rfl | exact absurd rfl plain
    rw [first, Node.shape, Shape.operands_map] at all
    rw [Node.shape, Shape.operands_map] at all'
    obtain ⟨ys, zs, split, rfl, tail⟩ := List.map_eq_append_iff.1 all'
    obtain ⟨z, zs, rfl, same', rfl⟩ := List.map_eq_cons_iff.1 tail
    have inside : z ∈ x.children := Shape.mem_operands (split ▸ by simp)
    obtain rfl : z = y := List.inj_on_of_nodup_map distinct inside member same'
    rw [split, List.map_append, List.map_cons] at all
    obtain ⟨rfl, later⟩ := List.append_inj all (by simpa using length.symm)
    obtain ⟨-, rfl⟩ := List.cons.inj later
    have unstable : (z.1.prompt).isStable = false := by
      rw [Fits.stable (twins.below z member)]
      exact unstable_of_suspends (twins.below z member) suspends
    rw [unsought_of_unstable ready unstable seeks, left']
    exact .operands same.self (opens_operands rfl (fun w inside ↦ twins.below w (Shape.mem_operands
      (split ▸ inside))) (fun w inside ↦ twins.kept split suspends w inside) suspends known agrees)
  | test test test' => exact .test test'
  | arm arm arm' =>
    obtain ⟨before, after, split⟩ := List.append_of_mem arm'
    exact .arm (fun lock ↦ open'.2 (kind .lock lock)) split
  | guard shape shape' => exact absurd (kind .lock (by rw [Node.kind, shape']; rfl)) open'.2
  | body shape shape' => exact (notRegion (by rw [Node.kind, shape']; rfl)).elim
  | @filter _ _ _ _ _ clause' _ _ _ _ clauses' =>
    have among : clause' ∈ clausesOf ⟨i', x.map (·.2.1)⟩ := by rw [clauses']; simp
    exact (notRegion (kind_of_clauses among)).elim
  | handler among among' => exact (notRegion (kind_of_clauses among')).elim
  | fault outcomes part part' => exact (notRegion (region_of_parts (.inr part'))).elim
  | cleanup outcomes part part' => exact (notRegion (region_of_parts (.inl part'))).elim

variable (L) in
/-- A region waits for its body in one stage only. -/
theorem stage_of_body {D : Enclosed} {A B : Scope} {n m : Node} {st st' : Stage}
    (within : D.region' l.contract ∈ l.body.walk)
    (stages : StageMatch (fun label ↦ ¬ L.New label) (fun _ _ ↦ False) A n
    (D.region' l.contract) st st'
      B m (D.inside' l.contract)) : st' = .body := by
  have apart := L.children_nodup within
  rw [Node.children, Enclosed.region', Node.shape, Shape.children, List.cons_append,
    List.cons_append, List.nodup_cons] at apart
  obtain ⟨apart, -⟩ := apart
  generalize D.inside' l.contract = c at stages apart
  cases stages with
  | statements shape shape' => cases shape'
  | round shape shape' => cases shape'
  | operand same =>
    generalize n.shape = sh at same
    cases same
  | operands same =>
    generalize n.shape = sh at same
    cases same
  | test test test' => cases test'
  | arm arm arm' => cases arm'
  | guard shape shape' => cases shape'
  | body => rfl
  | @filter _ _ _ _ _ clause' _ _ _ _ clauses' _ _ filter' =>
    refine absurd ?_ apart
    have among : clause' ∈ clausesOf (D.region' l.contract) := by rw [clauses']; simp
    exact List.mem_append_left _ (List.mem_append_left _ (List.mem_flatMap.2 ⟨clause', among,
      List.mem_append_left _ (Option.mem_toList.2 filter')⟩))
  | handler among among' =>
    refine absurd ?_ apart
    exact List.mem_append_left _ (List.mem_append_left _ (List.mem_flatMap.2 ⟨_, among',
      List.mem_append_right _ List.mem_cons_self⟩))
  | fault outcomes part part' =>
    exact absurd (List.mem_append_right _ (Option.mem_toList.2 part')) apart
  | cleanup outcomes part part' =>
    exact absurd (List.mem_append_left _ (List.mem_append_right _ (Option.mem_toList.2 part')))
      apart

/-- A layer above a child that suspends is entered by seeking. -/
theorem tracked_layer {z : Part} {x : Shape Part} {A B : Scope} {st st' : Stage}
    (fits : L.Fits params A k) (layered : k.Layered l.keeps l.contract x) (plain : x.kind ≠ .call)
    (child : z ∈ x.children)
    (stages : StageMatch (fun label ↦ ¬ L.New label) (fun _ _ ↦ False) A k.first
      (k.second l.contract) st st' B z.first (z.second l.contract))
    (suspends : z.added.table ≠ []) (agrees : ∀ q ∈ B.held, l.keeps q.1 → slots q.1 = some q.2)
    (tracked : k.added.table ≠ [] → Tracked L slots K' k) :
    Tracked L slots (⟨k.second l.contract, st'⟩ :: K') z := by
  obtain ⟨vs, inside⟩ : ∃ vs, (vs, z) ∈ x.scopes := by
    rw [← x.map_snd_scopes] at child
    obtain ⟨w, member, rfl⟩ := List.mem_map.1 child
    exact ⟨w.1, member⟩
  obtain ⟨-, around, -⟩ := layered.kid inside
  replace tracked := tracked (around suspends).1
  cases layered with
  | @twin i i' x twins =>
    rw [Shape.children_map] at child
    obtain ⟨y, member, rfl⟩ := List.mem_map.1 child
    obtain ⟨K₁, K₀, rfl, bottom, track⟩ := tracked
    have distinct := L.children_nodup fits.within
    rw [Part.second, Node.children, Node.shape, Shape.children_map] at distinct
    rw [Shape.kind_map] at plain
    exact ⟨_ :: K₁, K₀, rfl, bottom, track.layer (twins.below y member) member
      (opens_of_stages twins plain distinct member suspends stages agrees)⟩
  | @region D expands =>
    -- Of a region, only the body suspends.
    obtain rfl := Part.suspends_region child suspends
    obtain ⟨K₁, rfl, tracks⟩ := tracked
    rw [stage_of_body L fits.within stages]
    exact ⟨K₁, rfl, tracks⟩

/-- A call above an argument that suspends reads the arguments in front again. -/
theorem tracked_call {y : Part} {callee : String} {before after : List Part} {A : Scope}
    {done : List Value} {rest : List (Node × Option SymbolId)}
    (layered : k.Layered l.keeps l.contract (.call callee (before ++ y :: after)))
    (known : List.Forall₂ Known (before.map Part.first) done)
    (left : rest.map Prod.fst = after.map (Part.second l.contract))
    (ready : Ready ((y.second l.contract, none) :: rest)) (suspends : y.added.table ≠ [])
    (agrees : ∀ q ∈ (A.hold (before.map Part.first) done ((y :: after).map Part.first)).held,
      l.keeps q.1 → slots q.1 = some q.2)
    (tracked : k.added.table ≠ [] → Tracked L slots K' k) :
    Tracked L slots (⟨k.second l.contract, .operands done rest⟩ :: K') y := by
  generalize eq : Shape.call callee (before ++ y :: after) = x at layered
  cases layered with
  | region => cases eq
  -- A layer with the form of a call is one that the expansion kept.
  | @twin i i' x twins =>
    obtain ⟨ys, rfl, args⟩ :
        ∃ ys, x = .call callee ys ∧ before ++ y :: after = ys.map Part.ofTwin := by
      cases x with
      | call callee' ys =>
        obtain ⟨rfl, args⟩ := Shape.call.inj eq
        exact ⟨ys, rfl, args⟩
      | _ => cases eq
    obtain ⟨bs, zs, rfl, rfl, tail⟩ := List.map_eq_append_iff.1 args.symm
    obtain ⟨z, zs, rfl, rfl, rfl⟩ := List.map_eq_cons_iff.1 tail
    have member : z ∈ bs ++ z :: zs := by simp
    have twin := twins.below z member
    have around : (Added.join ((bs ++ z :: zs).map (·.2.2))).table ≠ [] := fun none ↦ suspends
      (List.subset_nil.1 (none ▸ Added.table_subset_join
        (List.mem_map_of_mem (f := (·.2.2)) member)))
    obtain ⟨K₁, K₀, rfl, bottom, track⟩ := tracked around
    refine ⟨_ :: K₁, K₀, rfl, bottom, track.layer twin member ?_⟩
    have unstable := unstable_of_suspends twin suspends
    have calm : rest = (zs.map (·.2.1)).map fun o ↦ (o, none) := by
      rw [unsought_of_unstable ready unstable rfl, left]
      exact congrArg _ List.map_map
    rw [List.map_map] at known
    simp only [← List.map_cons, List.map_map] at agrees
    have again := opens_operands rfl twins.below (twins.kept rfl suspends) suspends known agrees
    have operands : SameOperands (.call callee ((bs ++ z :: zs).map (·.2.1)))
        (.call callee ((bs ++ z :: zs).map (·.2.1))) (bs.map (·.2.1) ++ z.2.1 :: zs.map (·.2.1))
        (bs.map (·.2.1) ++ z.2.1 :: zs.map (·.2.1)) := by
      rw [List.map_append, List.map_cons]
      exact .call callee _ _ rfl
    rw [calm]
    exact .operands operands again

/-- What stands above a place that suspends is a track. -/
theorem Stacks.tracked (h : L.Stacks params A k K K') (suspends : k.added.table ≠ [])
    (agrees : ∀ q ∈ A.held, l.keeps q.1 → slots q.1 = some q.2) : Tracked L slots K' k := by
  induction h with
  | root i j outer => exact ⟨[], _, rfl, outer, .root⟩
  | layer fits layered plain child stages outer ih =>
    exact tracked_layer fits layered plain child stages suspends agrees fun around ↦
      ih around fun q member ↦ agrees q (stages.within.2 member)
  | @call A k y callee before after done done' rest rest' K K' fits layered given known left left'
      seeks sought ready outer ih =>
    exact tracked_call layered known left' ready suspends agrees fun around ↦
      ih around fun q member ↦ agrees q ((A.within_hold _ _ _).2 member)
  | @point A p p' e o entry acquire X q ts ts' K K' fits inside tasks isPoint isReturn tasks' outer
      ih =>
    obtain ⟨K₁, K₀, rfl, bottom, track⟩ := ih (by simp [Part.added, Added.ofPoint]) agrees
    exact ⟨ts' ++ K₁, K₀, (List.append_assoc _ _ _).symm, bottom,
      track.operand isPoint inside.stands tasks'⟩
  | block fits inside outer ih => exact ⟨_, rfl, ih (List.cons_ne_nil _ _) agrees⟩
  | @inside A D K K' fits outer ih =>
    obtain ⟨K₁, rfl, K₂, K₀, rfl, bottom, track⟩ := ih suspends agrees
    exact ⟨_ :: _ :: _ :: K₂, K₀, rfl, bottom,
      track.body (D.entered _) fits.stands.bodies (.mk _ _ _ _ _ _ _ _)⟩
  | guarded => exact absurd rfl suspends

end Tracking

end Layout

end Suspension
