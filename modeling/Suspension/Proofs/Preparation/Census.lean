import Mathlib.Data.List.Nodup
import Suspension.Proofs.Expansion.Books
import Suspension.Proofs.Preparation.Legal

/-!
# What the preparation of a body keeps

Before its suspend points are expanded, a body is rebuilt twice: operands are stored, handlers are
moved. `Node.Scoped` says that variables are used where they are bound, and `Node.Fit` what a node
looks like when its suspend points can be come back to but for those in handlers. `Census` is what
both passes keep, with fresh symbols as all that comes in.
-/

namespace Suspension

/-- The symbols that are taken between two supplies. -/
def Supply.fresh (s s' : Supply) : List SymbolId :=
  (span s.symbol s'.symbol).map UInt64.ofNat

theorem Kind.beq_eq_decide (k k' : Kind) : (k == k') = decide (k = k') := rfl

namespace Shape

variable {α β : Type}

/-- The variables that clauses of a layer bind. -/
def binders : Shape α → List Variable
  | .region _ clauses _ _ => clauses.filterMap Clause.binder
  | _ => []

/-- The variables that a layer reads or assigns. -/
def uses : Shape α → List Variable
  | .assign target _ => [target]
  | .var source => [source]
  | _ => []

/-- The operations that a layer names: the one that it calls, or that acquires an awaiter. -/
def ownCalls : Shape α → List String
  | .call callee _ => [callee]
  | .await _ acquire _ => acquire.toList
  | _ => []

/-- The labels that a layer jumps to. -/
def ownTargets : Shape α → List SymbolId
  | .goto target => [target.id]
  | _ => []

/-- The children of a layer with what the layer binds for them. -/
def scopes : Shape α → List (List Variable × α)
  | .block declared statements => statements.map fun a ↦ (declared, a)
  | .region body clauses cleanup fault =>
    ([], body) :: clauses.flatMap (fun c ↦ c.children.map fun a ↦ (c.binder.toList, a)) ++
      (cleanup.toList ++ fault.toList).map fun a ↦ ([], a)
  | sh => sh.children.map fun a ↦ ([], a)

theorem map_snd_scopes (sh : Shape α) : sh.scopes.map Prod.snd = sh.children := by
  cases sh <;>
    simp [scopes, children, Function.comp_def, List.map_flatMap]

theorem scopes_map (f : α → β) (sh : Shape α) :
    (sh.map f).scopes = sh.scopes.map fun (vs, a) ↦ (vs, f a) := by
  cases sh <;>
    simp [scopes, children, map, Function.comp_def, List.map_flatMap, List.flatMap_map,
      Clause.map, Clause.children, Case.map, Option.toList_map]

@[simp] theorem binders_map (f : α → β) (sh : Shape α) : (sh.map f).binders = sh.binders := by
  cases sh <;> simp [binders, map, List.filterMap_map, Function.comp_def, Clause.map]

@[simp] theorem uses_map (f : α → β) (sh : Shape α) : (sh.map f).uses = sh.uses := by
  cases sh <;> rfl

@[simp] theorem ownSymbols_map (f : α → β) (sh : Shape α) :
    (sh.map f).ownSymbols = sh.ownSymbols := by
  cases sh <;> simp [ownSymbols, map, List.filterMap_map, Function.comp_def, Clause.map]

@[simp] theorem ownTargets_map (f : α → β) (sh : Shape α) :
    (sh.map f).ownTargets = sh.ownTargets := by
  cases sh <;> rfl

@[simp] theorem ownCalls_map (f : α → β) (sh : Shape α) : (sh.map f).ownCalls = sh.ownCalls := by
  cases sh <;> rfl

end Shape

namespace Node

/-- The operations that a tree names. -/
def calls (n : Node) : List String :=
  n.walk.flatMap fun m ↦ m.shape.ownCalls

/-- The variables that blocks of a tree declare. -/
def declared (n : Node) : List SymbolId :=
  n.walk.flatMap fun m ↦ m.shape.declared.map Variable.id

/-- The variables that clauses of a tree bind. -/
def binders (n : Node) : List SymbolId :=
  n.walk.flatMap fun m ↦ m.shape.binders.map Variable.id

/-- The labels that gotos in a tree jump to. -/
def targets (n : Node) : List SymbolId :=
  n.walk.flatMap fun m ↦ m.shape.ownTargets

theorem walk_mk (i : NodeId) (sh : Shape Node) :
    walk ⟨i, sh⟩ = ⟨i, sh⟩ :: sh.children.flatMap walk :=
  walk_eq ⟨i, sh⟩

theorem symbols_mk (i : NodeId) (sh : Shape Node) :
    symbols ⟨i, sh⟩ = sh.ownSymbols ++ sh.children.flatMap symbols := by
  rw [symbols, walk_mk, List.flatMap_cons, List.flatMap_assoc]
  rfl

theorem declared_mk (i : NodeId) (sh : Shape Node) :
    declared ⟨i, sh⟩ = sh.declared.map Variable.id ++ sh.children.flatMap declared := by
  rw [declared, walk_mk, List.flatMap_cons, List.flatMap_assoc]
  rfl

theorem binders_mk (i : NodeId) (sh : Shape Node) :
    binders ⟨i, sh⟩ = sh.binders.map Variable.id ++ sh.children.flatMap binders := by
  rw [binders, walk_mk, List.flatMap_cons, List.flatMap_assoc]
  rfl

theorem calls_mk (i : NodeId) (sh : Shape Node) :
    calls ⟨i, sh⟩ = sh.ownCalls ++ sh.children.flatMap calls := by
  rw [calls, walk_mk, List.flatMap_cons, List.flatMap_assoc]
  rfl

theorem targets_mk (i : NodeId) (sh : Shape Node) :
    targets ⟨i, sh⟩ = sh.ownTargets ++ sh.children.flatMap targets := by
  rw [targets, walk_mk, List.flatMap_cons, List.flatMap_assoc]
  rfl

/-- A tree mentions what its parts mention. -/
theorem symbols_subset {m n : Node} (h : m ∈ n.walk) : m.symbols ⊆ n.symbols := by
  intro id inside
  obtain ⟨k, within, own⟩ := List.mem_flatMap.1 inside
  exact List.mem_flatMap.2 ⟨k, mem_walk_trans within h, own⟩

/-- Jumps lead to symbols of a tree. -/
theorem targets_symbols (n : Node) : n.targets ⊆ n.symbols := by
  intro id inside
  obtain ⟨m, within, own⟩ := List.mem_flatMap.1 inside
  refine List.mem_flatMap.2 ⟨m, within, ?_⟩
  obtain ⟨i, sh⟩ := m
  cases sh with
  | goto target => exact own
  | _ => cases own

/-- A tree calls what its parts call. -/
theorem calls_subset {m n : Node} (h : m ∈ n.walk) : m.calls ⊆ n.calls := by
  intro name inside
  obtain ⟨k, within, own⟩ := List.mem_flatMap.1 inside
  exact List.mem_flatMap.2 ⟨k, mem_walk_trans within h, own⟩

theorem containsAwait_mk (i : NodeId) (sh : Shape Node) :
    containsAwait ⟨i, sh⟩ = (sh.kind == .await || sh.children.any containsAwait) :=
  containsAwait_eq ⟨i, sh⟩

theorem hoistable_mk (i : NodeId) (sh : Shape Node) :
    hoistable ⟨i, sh⟩ = sh.children.flatMap hoistable ++
      if containsAwait ⟨i, sh⟩ then sh.declared else [] :=
  hoistable_eq ⟨i, sh⟩

theorem mem_children_map {α : Type} {f : α → Node} {i : NodeId} {x : Shape α} {y : α}
    (h : y ∈ x.children) : f y ∈ children ⟨i, x.map f⟩ := by
  rw [children, shape, Shape.children_map]
  exact List.mem_map_of_mem h

/-- Something holds of every node of a tree. -/
theorem forall_walk_mk {Q : Node → Prop} {i : NodeId} {sh : Shape Node} :
    (∀ m ∈ walk ⟨i, sh⟩, Q m) ↔ Q ⟨i, sh⟩ ∧ ∀ c ∈ sh.children, ∀ m ∈ c.walk, Q m := by
  simp only [walk_mk, List.forall_mem_cons, List.mem_flatMap, forall_exists_index, and_imp]
  exact and_congr_right fun _ ↦ ⟨fun h c child m member ↦ h m c child member,
    fun h m c child member ↦ h c child m member⟩

/-- Every variable of a tree is used where it is bound, by the tree or around it. -/
inductive Scoped : (SymbolId → Prop) → Node → Prop
  | mk {bound : SymbolId → Prop} {i : NodeId} {sh : Shape Node} (uses : ∀ v ∈ sh.uses, bound v.id)
    (below : ∀ vs c, (vs, c) ∈ sh.scopes →
      Scoped (fun id ↦ id ∈ vs.map Variable.id ∨ bound id) c) : Scoped bound ⟨i, sh⟩

theorem scoped_mk {bound : SymbolId → Prop} {i : NodeId} {sh : Shape Node} :
    Scoped bound ⟨i, sh⟩ ↔ (∀ v ∈ sh.uses, bound v.id) ∧
      ∀ vs c, (vs, c) ∈ sh.scopes → Scoped (fun id ↦ id ∈ vs.map Variable.id ∨ bound id) c :=
  ⟨fun | .mk uses below => ⟨uses, below⟩, fun ⟨uses, below⟩ ↦ .mk uses below⟩

/-- More may be bound around a tree. -/
theorem Scoped.mono {bound bound' : SymbolId → Prop} {n : Node} (h : n.Scoped bound)
    (le : ∀ id, bound id → bound' id) : n.Scoped bound' := by
  induction h generalizing bound' with
  | mk uses below ih =>
    exact .mk (fun v member ↦ le _ (uses v member)) fun vs c member ↦
      ih vs c member fun id inside ↦ inside.imp_right (le id)

/-- A node whose suspend points can be come back to, if handlers are moved out of the way: operands
in front of one that suspends are kept, and those that are variables do not change until then. -/
structure Fit (keeps : SymbolId → Prop) (n : Node) : Prop extends n.Legal where
  operands : ∀ {before o after}, n.shape.operands = before ++ o :: after →
    (o :: after).any containsAwait = true →
      ∀ b ∈ before, b.Kept keeps ∧ ∀ v, b.shape = .var v → v.id ∉ o.symbols

/-- Where there are neither operands nor clauses nor a lock, there is nothing to say. -/
theorem Fit.of_plain {keeps : SymbolId → Prop} {n : Node} (operands : n.shape.operands = [])
    (region : n.kind ≠ .region) (lock : n.kind ≠ .lock) : n.Fit keeps := by
  obtain ⟨i, sh⟩ := n
  refine ⟨⟨?_, ?_⟩, fun split ↦ ?_⟩
  · rintro body clauses cleanup fault rfl
    exact absurd rfl region
  · rintro guard body rfl
    exact absurd rfl lock
  · rw [operands] at split
    simp at split

/-- The variables that blocks of a tree declare, and those that its clauses bind if they count. -/
def names (all : Bool) (n : Node) : List SymbolId :=
  n.declared ++ if all then n.binders else []

end Node

/-- A fit node with nothing that suspends in the handlers of a region. -/
structure Node.Ready (keeps : SymbolId → Prop) (n : Node) : Prop extends n.Fit keeps where
  region : ∀ {body clauses cleanup fault}, n.shape = .region body clauses cleanup fault →
    ∀ part ∈ clauses.flatMap Clause.children ++ cleanup.toList ++ fault.toList,
      part.containsAwait = false

/-- The suspend points beneath can be come back to. -/
theorem Node.Ready.resumable {keeps : SymbolId → Prop} {n : Node} (h : n.Ready keeps) :
    n.Resumable keeps where
  region := h.region
  lock := h.lock
  operands split awaits b member :=
    (h.operands split (by rw [List.any_cons, awaits, Bool.true_or]) b member).1

theorem Node.Ready.of_plain {keeps : SymbolId → Prop} {n : Node} (operands : n.shape.operands = [])
    (region : n.kind ≠ .region) (lock : n.kind ≠ .lock) : n.Ready keeps where
  toFit := .of_plain operands region lock
  region := by
    rintro body clauses cleanup fault eq
    rw [Node.kind, eq] at region
    exact absurd rfl region

section Rebuilt

variable {α : Type} {x : Shape α} {f g : α → Node} {i i' : NodeId} {keeps : SymbolId → Prop}

/-- Rebuilding the children keeps a layer legal. -/
theorem Node.Legal.rebuilt (h : Node.Legal ⟨i, x.map f⟩)
    (awaits : ∀ y ∈ x.children, (g y).containsAwait = (f y).containsAwait) :
    Node.Legal ⟨i', x.map g⟩ where
  filters {body clauses cleanup fault} shape clause member filter found := by
    cases x with
    | region y cs cl fl =>
      cases shape
      obtain ⟨c, inside, rfl⟩ := List.mem_map.1 member
      obtain ⟨y', some, rfl⟩ := Option.map_eq_some_iff.1 found
      rw [awaits y' (by
        refine List.mem_append_left _ (List.mem_append_left _ (List.mem_cons_of_mem _ ?_))
        refine List.mem_flatMap.2 ⟨c, inside, List.mem_append_left _ ?_⟩
        exact Option.mem_toList.2 some)]
      refine h.filters rfl (c.map f) (List.mem_map_of_mem inside) (f y') ?_
      rw [Clause.map, some]
      rfl
    | _ => cases shape
  lock {guard body} shape := by
    cases x with
    | lock y z =>
      cases shape
      rw [awaits y List.mem_cons_self, awaits z (List.mem_cons_of_mem _ List.mem_cons_self)]
      exact h.lock rfl
    | _ => cases shape

theorem Node.Kept.of_shape {m n : Node} (h : m.Kept keeps) (same : n.shape = m.shape) :
    n.Kept keeps := by
  rw [Kept, same]
  exact h

theorem Node.mem_symbols_of_var {n : Node} {v : Variable} (h : n.shape = .var v) :
    v.id ∈ n.symbols := by
  obtain ⟨j, sh⟩ := n
  obtain rfl : sh = .var v := h
  rw [symbols_mk]
  exact List.mem_append_left _ List.mem_cons_self

/-- Rebuilding the children keeps a layer fit, if operands that are kept stay as they are and
symbols come in only that are not in them. -/
theorem Node.Fit.rebuilt (h : Node.Fit keeps ⟨i, x.map f⟩)
    (awaits : ∀ y ∈ x.children, (g y).containsAwait = (f y).containsAwait)
    (kept : ∀ y ∈ x.children, (f y).Kept keeps → (g y).shape = (f y).shape)
    (apart : ∀ y ∈ x.children, ∀ z ∈ x.children, ∀ id ∈ (f y).symbols, id ∈ (g z).symbols →
      id ∈ (f z).symbols) : Node.Fit keeps ⟨i', x.map g⟩ where
  toLegal := h.toLegal.rebuilt awaits
  operands {before o after} split suspends b member := by
    rw [Node.shape, Shape.operands_map] at split
    obtain ⟨before, rest, split', rfl, eq⟩ := List.map_eq_append_iff.1 split
    obtain ⟨z, after, rfl, rfl, rfl⟩ := List.map_eq_cons_iff.1 eq
    obtain ⟨y, inside, rfl⟩ := List.mem_map.1 member
    have among {w : α} (here : w ∈ before ++ z :: after) : w ∈ x.children :=
      Shape.mem_operands (split' ▸ here)
    have operands : (Node.shape ⟨i, x.map f⟩).operands = before.map f ++ f z :: after.map f := by
      rw [Node.shape, Shape.operands_map, split', List.map_append, List.map_cons]
    have suspends' : (f z :: after.map f).any Node.containsAwait = true := by
      rw [← List.map_cons] at suspends ⊢
      obtain ⟨_, member, found⟩ := List.any_eq_true.1 suspends
      obtain ⟨w, here, rfl⟩ := List.mem_map.1 member
      rw [awaits w (among (List.mem_append_right _ here))] at found
      exact List.any_eq_true.2 ⟨f w, List.mem_map_of_mem here, found⟩
    obtain ⟨keep, free⟩ := h.operands operands suspends' (f y) (List.mem_map_of_mem inside)
    have yInside := among (List.mem_append_left _ inside)
    have same := kept y yInside keep
    refine ⟨keep.of_shape same, fun v shape found ↦ ?_⟩
    rw [same] at shape
    exact free v shape (apart y yInside z (among (by simp)) v.id (mem_symbols_of_var shape) found)

/-- Rebuilding the children keeps a layer ready. -/
theorem Node.Ready.rebuilt (h : Node.Ready keeps ⟨i, x.map f⟩)
    (awaits : ∀ y ∈ x.children, (g y).containsAwait = (f y).containsAwait)
    (kept : ∀ y ∈ x.children, (f y).Kept keeps → (g y).shape = (f y).shape)
    (apart : ∀ y ∈ x.children, ∀ z ∈ x.children, ∀ id ∈ (f y).symbols, id ∈ (g z).symbols →
      id ∈ (f z).symbols) : Node.Ready keeps ⟨i', x.map g⟩ where
  toFit := h.toFit.rebuilt awaits kept apart
  region {body clauses cleanup fault} shape part member := by
    cases x with
    | region y cs cl fl =>
      cases shape
      rw [Clause.flatMap_children, Option.toList_map, Option.toList_map, ← List.map_append,
        ← List.map_append] at member
      obtain ⟨z, inside, rfl⟩ := List.mem_map.1 member
      rw [awaits z (List.mem_cons_of_mem _ inside)]
      refine h.region rfl _ ?_
      rw [Clause.flatMap_children, Option.toList_map, Option.toList_map, ← List.map_append,
        ← List.map_append]
      exact List.mem_map_of_mem inside
    | _ => cases shape

end Rebuilt

/-! ### Runs of a pass -/

section Runs

variable {all : Bool}

/-- What a pass that rebuilds a tree keeps of it. -/
structure Census (all : Bool) (n : Node) (s : Supply) (n' : Node) (s' : Supply) : Prop where
  symbol_le : s.symbol ≤ s'.symbol
  awaits : n'.containsAwait = n.containsAwait
  symbols : ∀ id ∈ n'.symbols, id ∈ n.symbols ∨ id ∈ s.fresh s'
  calls : n'.calls ⊆ n.calls
  names : ∀ id, (n'.names all).count id ≤ (n.names true).count id + (s.fresh s').count id
  scopes : ∀ {bound}, n.Scoped bound → n'.Scoped bound

/-- What a step of a pass keeps of a layer whose children are rebuilt already. -/
structure Reshapes (all : Bool) (sh : Shape Node) (s : Supply) (n' : Node)
    (s' : Supply) : Prop where
  symbol_le : s.symbol ≤ s'.symbol
  awaits : n'.containsAwait = (sh.kind == .await || sh.children.any Node.containsAwait)
  symbols : ∀ id ∈ n'.symbols,
    (id ∈ sh.ownSymbols ∨ id ∈ sh.children.flatMap Node.symbols) ∨ id ∈ s.fresh s'
  calls : n'.calls ⊆ sh.ownCalls ++ sh.children.flatMap Node.calls
  names : ∀ id, (n'.names all).count id ≤ ((sh.declared ++ sh.binders).map Variable.id).count id +
    (sh.children.flatMap (Node.names all)).count id + (s.fresh s').count id
  scopes : ∀ {bound i}, Node.Scoped bound ⟨i, sh⟩ → n'.Scoped bound

theorem Supply.fresh_append {s s₁ s' : Supply} (le : s.symbol ≤ s₁.symbol)
    (le' : s₁.symbol ≤ s'.symbol) : s.fresh s₁ ++ s₁.fresh s' = s.fresh s' := by
  rw [fresh, fresh, fresh, ← List.map_append, span_append le le']

theorem Supply.fresh_of_eq {s s' : Supply} (h : s'.symbol = s.symbol) : s.fresh s' = [] := by
  rw [fresh, h, span_self, List.map_nil]

/-- The largest number of a symbol is not passed. -/
def Supply.Whole (s : Supply) : Prop :=
  s.symbol ≤ UInt64.size

theorem Supply.toNat_ofNat {s s' : Supply} (whole : s'.Whole) {k : Nat}
    (h : k ∈ span s.symbol s'.symbol) :
    (UInt64.ofNat k).toNat = k ∧ s.symbol ≤ k ∧ k < s'.symbol := by
  rw [span, List.mem_range'_1] at h
  have bound : k < UInt64.size := by
    rw [Whole] at whole
    exact Nat.lt_of_lt_of_le (by omega) whole
  exact ⟨UInt64.toNat_ofNat_of_lt' bound, by omega⟩

theorem Supply.mem_fresh {s s' : Supply} (whole : s'.Whole) {id : SymbolId}
    (h : id ∈ s.fresh s') : s.symbol ≤ id.toNat ∧ id.toNat < s'.symbol := by
  obtain ⟨k, inside, rfl⟩ := List.mem_map.1 h
  obtain ⟨eq, bounds⟩ := toNat_ofNat whole inside
  rw [eq]
  exact bounds

theorem Supply.fresh_nodup {s s' : Supply} (whole : s'.Whole) : (s.fresh s').Nodup := by
  refine List.Nodup.map_on (fun k inside m inside' eq ↦ ?_) List.nodup_range'
  rw [← (toNat_ofNat whole inside).1, eq, (toNat_ofNat whole inside').1]

/-- The symbols of a tree were taken before a supply. -/
def Node.Older (n : Node) (s : Supply) : Prop :=
  ∀ id ∈ n.symbols, id.toNat < s.symbol

-- Only the symbols of the tree are looked at, not all numbers that a symbol may have.
instance (n : Node) (s : Supply) : Decidable (n.Older s) :=
  List.decidableBAll (fun id : SymbolId ↦ id.toNat < s.symbol) n.symbols

theorem Node.Older.le {n : Node} {s s' : Supply} (h : n.Older s) (le : s.symbol ≤ s'.symbol) :
    n.Older s' :=
  fun id inside ↦ Nat.lt_of_lt_of_le (h id inside) le

theorem Census.older {n n' : Node} {s s' : Supply} (h : Census all n s n' s') (old : n.Older s)
    (whole : s'.Whole) : n'.Older s' := by
  intro id inside
  rcases h.symbols id inside with before | new
  · exact Nat.lt_of_lt_of_le (old id before) h.symbol_le
  · exact (Supply.mem_fresh whole new).2

theorem Node.Older.child {n c : Node} {s : Supply} (h : n.Older s) (child : c ∈ n.children) :
    c.Older s := by
  obtain ⟨i, sh⟩ := n
  intro id inside
  refine h id ?_
  rw [Node.symbols_mk]
  exact List.mem_append_right _ (List.mem_flatMap.2 ⟨c, child, inside⟩)

theorem Node.names_mk (i : NodeId) (sh : Shape Node) (id : SymbolId) :
    (names all ⟨i, sh⟩).count id = (sh.declared.map Variable.id).count id +
      (if all then (sh.binders.map Variable.id).count id else 0) +
      (sh.children.flatMap (names all)).count id := by
  have sum (ns : List Node) : (ns.flatMap (names all)).count id =
      (ns.flatMap Node.declared).count id +
        if all then (ns.flatMap Node.binders).count id else 0 := by
    induction ns with
    | nil => cases all <;> rfl
    | cons n ns ih =>
      simp only [List.flatMap_cons, List.count_append, ih]
      cases all <;> simp [names]
      omega
  rw [sum, names, declared_mk]
  cases all
  · simp
  · simp [binders_mk]
    omega

/-- A layer that is rebuilt as it is. -/
theorem Reshapes.node (sh : Shape Node) (i : NodeId) {s s' : Supply} (h : s'.symbol = s.symbol) :
    Reshapes all sh s ⟨i, sh⟩ s' where
  symbol_le := Nat.le_of_eq h.symm
  awaits := Node.containsAwait_mk i sh
  symbols id inside := by
    rw [Node.symbols_mk, List.mem_append] at inside
    exact .inl inside
  calls := by
    rw [Node.calls_mk]
    exact List.Subset.refl _
  names id := by
    rw [Node.names_mk, List.map_append, List.count_append]
    cases all
    · simp
      omega
    · simp
  scopes h := by
    rw [Node.scoped_mk] at h ⊢
    exact h

/-- Rows of trees that were rebuilt. -/
structure Census.Row (all : Bool) (xs : List (Node × Node × Unit)) (s s' : Supply) : Prop where
  symbol_le : s.symbol ≤ s'.symbol
  awaits : (xs.map (·.2.1)).any Node.containsAwait = (xs.map Prod.fst).any Node.containsAwait
  symbols : ∀ id ∈ (xs.map (·.2.1)).flatMap Node.symbols,
    id ∈ (xs.map Prod.fst).flatMap Node.symbols ∨ id ∈ s.fresh s'
  calls : (xs.map (·.2.1)).flatMap Node.calls ⊆ (xs.map Prod.fst).flatMap Node.calls
  names : ∀ id, ((xs.map (·.2.1)).flatMap (Node.names all)).count id ≤
    ((xs.map Prod.fst).flatMap (Node.names true)).count id + (s.fresh s').count id
  scopes : ∀ x ∈ xs, ∀ {bound}, x.1.Scoped bound → x.2.1.Scoped bound

theorem Census.row {xs : List (Node × Node × Unit)} {s s' : Supply}
    (h : Threads (fun n s n' s' _ ↦ Census all n s n' s') xs s s') : Census.Row all xs s s' := by
  induction h with
  | nil s => exact ⟨Nat.le_refl _, rfl, nofun, List.Subset.refl _, fun _ ↦ Nat.zero_le _, nofun⟩
  | cons head tail ih =>
    have fresh := Supply.fresh_append head.symbol_le ih.symbol_le
    refine ⟨Nat.le_trans head.symbol_le ih.symbol_le, ?_, fun id inside ↦ ?_, ?_, fun id ↦ ?_, ?_⟩
    · rw [List.map_cons, List.map_cons, List.any_cons, List.any_cons, ih.awaits, head.awaits]
    · rw [List.map_cons, List.flatMap_cons, List.mem_append] at inside
      rw [List.map_cons, List.flatMap_cons, ← fresh]
      rcases inside with inside | inside
      · rcases head.symbols id inside with old | new
        · exact .inl (List.mem_append_left _ old)
        · exact .inr (List.mem_append_left _ new)
      · rcases ih.symbols id inside with old | new
        · exact .inl (List.mem_append_right _ old)
        · exact .inr (List.mem_append_right _ new)
    · simp only [List.map_cons, List.flatMap_cons]
      exact List.append_subset.2 ⟨List.subset_append_of_subset_left _ head.calls,
        List.subset_append_of_subset_right _ ih.calls⟩
    · have := head.names id
      have := ih.names id
      rw [List.map_cons, List.map_cons, List.flatMap_cons, List.flatMap_cons, ← fresh]
      simp only [List.count_append] at *
      omega
    · rintro x (_ | ⟨_, member⟩) bound within
      · exact head.scopes within
      · exact ih.scopes x member within

/-- A tree whose children were rebuilt, and its layer after them. -/
theorem Census.layer {x : Shape (Node × Node × Unit)} {i : NodeId} {s s₁ s' : Supply} {n' : Node}
    (children : Census.Row all x.children s s₁)
    (step : Reshapes all (x.map (·.2.1)) s₁ n' s') :
    Census all ⟨i, x.map Prod.fst⟩ s n' s' where
  symbol_le := Nat.le_trans children.symbol_le step.symbol_le
  awaits := by
    rw [step.awaits, Node.containsAwait_mk, Shape.kind_map, Shape.kind_map, Shape.children_map,
      Shape.children_map, children.awaits]
  symbols id inside := by
    rw [← Supply.fresh_append children.symbol_le step.symbol_le, Node.symbols_mk,
      Shape.ownSymbols_map, Shape.children_map]
    rcases step.symbols id inside with (own | below) | new
    · rw [Shape.ownSymbols_map] at own
      exact .inl (List.mem_append_left _ own)
    · rw [Shape.children_map] at below
      rcases children.symbols id below with old | new
      · exact .inl (List.mem_append_right _ old)
      · exact .inr (List.mem_append_left _ new)
    · exact .inr (List.mem_append_right _ new)
  calls := by
    have step := step.calls
    rw [Shape.ownCalls_map, Shape.children_map] at step
    rw [Node.calls_mk, Shape.ownCalls_map, Shape.children_map]
    exact List.Subset.trans step (List.append_subset.2 ⟨List.subset_append_left _ _,
      List.subset_append_of_subset_right _ children.calls⟩)
  names id := by
    have := step.names id
    have := children.names id
    rw [← Supply.fresh_append children.symbol_le step.symbol_le]
    rw [Node.names_mk]
    simp only [Shape.declared_map, Shape.binders_map, Shape.children_map, List.map_append,
      List.count_append, if_true] at *
    omega
  scopes {bound} h := by
    rw [Node.scoped_mk, Shape.uses_map, Shape.scopes_map] at h
    refine @step.scopes bound i (.mk ?_ ?_)
    · rw [Shape.uses_map]
      exact h.1
    · intro vs c member
      rw [Shape.scopes_map] at member
      obtain ⟨⟨vs, y⟩, inside, eq⟩ := List.mem_map.1 member
      cases eq
      have child : y ∈ x.children := by
        rw [← x.map_snd_scopes]
        exact List.mem_map_of_mem (f := Prod.snd) inside
      exact children.scopes y child
        (h.2 vs y.1 (List.mem_map_of_mem (f := fun (vs, a) ↦ (vs, a.1)) inside))

end Runs

end Suspension
