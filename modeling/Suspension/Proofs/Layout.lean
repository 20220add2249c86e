import Suspension.Proofs.Expansion.Correct
import Suspension.Proofs.Expansion.Routes
import Suspension.Proofs.Preparation.Reduction
import Suspension.Proofs.Preparation.Spilling

/-!
# The layout of lowered bodies

A lowered body is a dispatch, an expansion, and a label to leave by (`IsAssembled`). What the passes
say of their own parts of it comes together in a `Layout`: the tree that was prepared and its
expansion, the table between them, and that all numbers in it are apart. Everything that is said of
lowered bodies starts from here (`Node.LowersTo.layout`).
-/

namespace Suspension

open Build

/-- An expanded body behind its dispatch. -/
inductive IsAssembled (c : Contract) (body : Node) (table : Table) : Node → Prop
  | mk (i i₁ i₂ i₃ i₄ i₅ i₆ i₇ : NodeId) :
    IsAssembled c body table
      ⟨i, .block [c.localState]
        [⟨i₁, .assign c.localState ⟨i₂, .var c.state⟩⟩,
          ⟨i₃, .switch ⟨i₄, .var c.localState⟩ table (some ⟨i₅, .defaultOf .unit⟩)⟩,
          ⟨i₆, .ret (some body)⟩, ⟨i₇, .label c.exit⟩]⟩

theorem IsAssembled.within {c : Contract} {body root : Node} {table : Table}
    (h : IsAssembled c body table root) : body ∈ root.walk := by
  cases h with
  | mk i i₁ i₂ i₃ i₄ i₅ i₆ i₇ =>
    refine Node.mem_children_walk (m := ⟨i₆, .ret (some body)⟩) List.mem_cons_self ?_
    exact Node.mem_children_walk
      (List.mem_cons_of_mem _ (List.mem_cons_of_mem _ List.mem_cons_self)) (Node.mem_walk_self _)

theorem IsAssembled.labels {c : Contract} {body root : Node} {table : Table}
    (h : IsAssembled c body table root)
    (none : (table.map Case.body).flatMap Node.labelsWithin = []) :
    root.labelsWithin = body.labelsWithin ++ [c.exit.id] := by
  cases h
  simp [Node.labelsWithin_mk, Shape.children, Shape.ownLabels, none]

/-- A body is lowered with the default options and a fresh contract. Its symbols are older than the
supply, and no number of a symbol is taken twice. -/
def Node.LowersTo (body : Node) (supply : Supply) (l : Lowered) : Prop :=
  body.Older supply ∧ ∃ s', s'.Whole ∧
    body.lower {} (Contract.fresh onCompleted supply).1 (Contract.fresh onCompleted supply).2 =
      .ok (l, s')

/-- A result in which there is a value is that value. -/
theorem ok_of_toOption {ε α : Type} {x : Except ε α} {a : α} (h : x.toOption = some a) :
    x = .ok a := by
  cases x with
  | error e => cases h
  | ok b =>
    cases h
    rfl

/-- Whether a body is lowered, and to what, can be computed. -/
theorem Node.exists_lowersTo_with {body : Node} {supply : Supply} (old : body.Older supply)
    (p : Lowered → Bool) (h : ((body.lower {} (Contract.fresh onCompleted supply).1
      (Contract.fresh onCompleted supply).2).toOption.any fun r ↦
        decide (r.2.symbol ≤ UInt64.size) && p r.1) = true) :
    ∃ l, body.LowersTo supply l ∧ p l = true := by
  obtain ⟨⟨l, s'⟩, made, fits⟩ := (Option.any_eq_true _ _).1 h
  obtain ⟨small, holds⟩ := Bool.and_eq_true_iff.1 fits
  have whole : s'.symbol ≤ UInt64.size := of_decide_eq_true small
  exact ⟨l, ⟨old, s', whole, ok_of_toOption made⟩, holds⟩

/-- Whether a body is lowered can be computed. -/
theorem Node.exists_lowersTo {body : Node} {supply : Supply} (old : body.Older supply)
    (h : ((body.lower {} (Contract.fresh onCompleted supply).1
      (Contract.fresh onCompleted supply).2).toOption.any fun r ↦
        decide (r.2.symbol ≤ UInt64.size)) = true) : ∃ l, body.LowersTo supply l := by
  obtain ⟨l, lowers, -⟩ := exists_lowersTo_with old (fun _ ↦ true) (by simpa using h)
  exact ⟨l, lowers⟩

/-- Variables whose numbers are among those of hoisted ones. -/
def Lowered.keeps (l : Lowered) (id : SymbolId) : Prop :=
  id ∈ l.hoisted.map Variable.id

/-- The symbols of a contract. -/
def Contract.names (c : Contract) : List SymbolId :=
  [c.state.id, c.localState.id, c.exit.id]

/-- What a lowered body consists of. -/
structure Layout (l : Lowered) where
  /-- The tree whose suspend points were expanded. -/
  prepared : Node
  /-- Its expansion. -/
  expanded : Node
  added : Added
  ready : ∀ m ∈ prepared.walk, m.Ready l.keeps
  twin : Twin l.keeps l.contract prepared.settle expanded added
  assembled : IsAssembled l.contract expanded added.table l.body
  notify : l.contract.notify = onCompleted
  localState : l.contract.localState.ty = .int
  hoisted : l.hoisted = prepared.hoistable
  fields : l.fields = added.fields
  resume : l.resume = added.table
  tests : added.table.flatMap Case.tests = (List.range l.stateCount).map Int64.ofNat
  /-- There are enough states to tell suspend points apart. -/
  count : 2 * l.stateCount < UInt64.size
  ids : l.body.ids.Nodup
  names : (l.contract.names ++ added.names).Nodup
  apart : ∀ id ∈ l.contract.names ++ added.names, id ∉ prepared.symbols

theorem runs_fresh {notify : String} {s s' : Supply} {c : Contract}
    (h : runs (Contract.fresh notify) s c s') :
    c.notify = notify ∧ c.localState.ty = .int ∧ s'.symbol = s.symbol + 3 ∧
      c.names = s.fresh s' := by
  cases h
  refine ⟨rfl, rfl, rfl, ?_⟩
  have three : span s.symbol (s.symbol + 3) = [s.symbol, s.symbol + 1, s.symbol + 2] := by
    rw [span, Nat.add_sub_cancel_left]
    rfl
  rw [Supply.fresh]
  exact (congrArg (List.map UInt64.ofNat) three).symm

/-- What is assembled, and the numbers of its nodes. -/
theorem runs_assemble {c : Contract} {body : Node} {table : Table} {s s' : Supply} {n : Node}
    (h : runs (assemble c body table) s n s') :
    IsAssembled c body table n ∧ s'.symbol = s.symbol ∧ s.node ≤ s'.node ∧
      n.ids.Perm (body.ids ++ (table.flatMap fun entry ↦ entry.body.ids) ++
        span s.node s'.node) := by
  cases h
  refine ⟨.mk _ _ _ _ _ _ _ _, rfl, Nat.le_add_right s.node 8, List.perm_iff_count.2 fun j ↦ ?_⟩
  have eight : span s.node (s.node + 8) = [s.node, s.node + 1, s.node + 1 + 1,
      s.node + 1 + 1 + 1, s.node + 1 + 1 + 1 + 1, s.node + 1 + 1 + 1 + 1 + 1,
      s.node + 1 + 1 + 1 + 1 + 1 + 1, s.node + 1 + 1 + 1 + 1 + 1 + 1 + 1] := by
    rw [span, Nat.add_sub_cancel_left]
    rfl
  change _ = List.count j (_ ++ span s.node (s.node + 8))
  simp only [eight, Node.ids_mk, Shape.children, Option.toList_some, List.flatMap_cons,
    List.flatMap_nil, List.flatMap_append, List.flatMap_map, List.append_nil, List.count_append,
    List.count_cons, List.count_nil, List.cons_append]
  omega

/-- The body that is expanded was spilled, and its handlers were moved. -/
theorem runs_prepare {body prepared : Node} {s s' : Supply}
    (h : runs (body.prepare {}) s prepared s') :
    ∃ spilled s₁, runs body.spill s spilled s₁ ∧ runs spilled.reduceHandlers s₁ prepared s' := by
  simpa only [Node.prepare, if_true, runs_bind] using h

/-- The steps of lowering. -/
theorem runs_lower {options : LoweringOptions} {c : Contract} {body : Node} {s s' : Supply}
    {l : Lowered} (h : body.lower options c s = .ok (l, s')) :
    body.check options.reduceHandlers = .ok () ∧ ∃ prepared s₁ expanded r,
      runs (body.prepare options) s prepared s₁ ∧
      runs (prepared.expand c) { supply := s₁ } expanded r ∧
      runs (assemble c expanded r.resumption.root) r.supply l.body s' ∧ l.contract = c ∧
      l.hoisted = r.scopes.hoisted ∧ l.fields = r.fields ∧ l.resume = r.resumption.root ∧
      l.stateCount = r.resumption.next := by
  have bind {α β : Type} {x : Except Rejection α} {f : α → Except Rejection β} {b : β}
      (h : x >>= f = .ok b) : ∃ a, x = .ok a ∧ f a = .ok b := by
    cases x with
    | error e => cases h
    | ok a => exact ⟨a, rfl, h⟩
  obtain ⟨⟨⟩, checked, h⟩ := bind h
  obtain ⟨⟨expanded, r⟩, run, h⟩ := bind h
  cases h
  exact ⟨checked, _, _, expanded, r, rfl, run, rfl, rfl, rfl, rfl, rfl, rfl⟩

/-- The nodes of a lowered body are numbered apart, with numbers of the expansion and of the
assembly. -/
theorem Node.lower_ids {options : LoweringOptions} {c : Contract} {body : Node} {s s' : Supply}
    {l : Lowered} (h : body.lower options c s = .ok (l, s')) : l.body.ids.Nodup := by
  obtain ⟨-, prepared, s₁, expanded, r, -, expands, assembles, -⟩ := runs_lower h
  obtain ⟨-, -, nodes, numbers⟩ := runs_assemble assembles
  obtain ⟨X, -, adds⟩ := Node.expand_unfolds prepared expands
  have root : r.resumption.root = X.table := by
    rw [adds.resumption]
    rfl
  have ids : (expanded.ids ++ X.table.flatMap fun entry ↦ entry.body.ids).Perm
      (span s₁.node r.supply.node) := by simpa using adds.ids
  rw [root] at numbers
  refine (numbers.trans (ids.append_right _)).nodup_iff.2 ?_
  rw [span_append adds.node_le nodes]
  exact List.nodup_range'

/-- A lowered body has a layout, with a tree in it that was prepared from the body. The tree calls
nothing that the body does not call, and what was added is newer than it. -/
theorem Node.LowersTo.layout_of_runs {body : Node} {supply : Supply} {l : Lowered}
    (h : body.LowersTo supply l) : ∃ (L : Layout l) (s s' : Supply),
      runs (Contract.fresh onCompleted) supply l.contract s ∧ supply.symbol ≤ s.symbol ∧
        runs (body.prepare {}) s L.prepared s' ∧ s'.Whole ∧ L.prepared.calls ⊆ body.calls ∧
          ∀ id ∈ L.added.names, s'.symbol ≤ id.toNat := by
  obtain ⟨oldest, s', whole, lowers⟩ := h
  obtain ⟨c, s, fresh, lowers⟩ : ∃ c s, runs (Contract.fresh onCompleted) supply c s ∧
      body.lower {} c s = .ok (l, s') := ⟨_, _, rfl, lowers⟩
  obtain ⟨notify, int, three, contractNames⟩ := runs_fresh fresh
  obtain ⟨checked, prepared, s₂, expanded, r, prepares, expands, assembles, rfl, hoisted, fields,
    resume, count⟩ := runs_lower lowers
  obtain ⟨spilled, s₁, spills, reduces⟩ := runs_prepare prepares
  -- Each pass takes its symbols behind those that it finds: body, spilled body, prepared body.
  have old : body.Older s := oldest.le (by omega)
  have spillCensus := Node.spill_census spills
  obtain ⟨assembled, sameSymbol, -, -⟩ := runs_assemble assembles
  have whole₃ : r.supply.Whole := by rw [Supply.Whole, ← sameSymbol]; exact whole
  have whole₂ : s₂.Whole := Nat.le_trans (Node.expand_grows _ prepared _ _ _ expands) whole₃
  have legalSpilled := Node.spill_legal spills (Node.check_legal checked)
  have reduceCensus := Node.reduce_census reduces legalSpilled
  have whole₁ : s₁.Whole := Nat.le_trans reduceCensus.symbol_le whole₂
  have oldSpilled : spilled.Older s₁ := spillCensus.older old whole₁
  have oldPrepared : prepared.Older s₂ := reduceCensus.older oldSpilled whole₂
  have hoists := Node.reduce_hoistable reduces legalSpilled
  have le : supply.symbol ≤ s.symbol := by omega
  have le₁ : s.symbol ≤ s₂.symbol := Nat.le_trans spillCensus.symbol_le reduceCensus.symbol_le
  let keeps (id : SymbolId) : Prop := id ∈ prepared.hoistable.map Variable.id
  have ready : ∀ m ∈ prepared.walk, m.Ready keeps :=
    Node.reduce_ready reduces (Node.spill_fit spills (Node.check_legal checked) old whole₁
      fun v inside ↦ List.mem_map_of_mem (hoists inside)) oldSpilled whole₂
  obtain ⟨X, unfolds, adds⟩ := Node.expand_unfolds prepared expands
  have twin := unfolds.twin fun m member ↦ (ready m member).resumable
  have root : r.resumption.root = X.table := by
    rw [adds.resumption]
    rfl
  have scopes : l.hoisted = prepared.hoistable := by
    rw [hoisted, adds.scopes]
    exact List.nil_append _
  have same : l.keeps = keeps := by
    funext id
    rw [Lowered.keeps, scopes]
  rw [root] at assembled
  have points : 2 * r.resumption.next + s₂.symbol ≤ 2 * 0 + r.supply.symbol := adds.points
  have names : X.names.Perm ((span s₂.symbol r.supply.symbol).map UInt64.ofNat) := adds.names
  have tests : X.table.flatMap Case.tests = (span 0 r.resumption.next).map Int64.ofNat := adds.tests
  refine ⟨⟨prepared, expanded, X, same ▸ ready, same ▸ twin, assembled, notify, int, scopes, ?_,
    resume.trans root, ?_, ?_, Node.lower_ids lowers, ?_, ?_⟩, s, s₂, fresh, le, prepares, whole₂,
    List.Subset.trans reduceCensus.calls spillCensus.calls, fun id added ↦ ?_⟩
  · rw [fields, adds.fields]
    exact List.nil_append _
  · rw [tests, count, span, List.range_eq_range']
    rfl
  · rw [Supply.Whole] at whole₃
    omega
  · have later : X.names.Perm (s₂.fresh r.supply) := names
    have all : supply.fresh s ++ (s.fresh s₂ ++ s₂.fresh r.supply) = supply.fresh r.supply := by
      rw [Supply.fresh_append le₁ adds.symbol_le,
        Supply.fresh_append le (Nat.le_trans le₁ adds.symbol_le)]
    have nodup := Supply.fresh_nodup (s := supply) whole₃
    rw [← all] at nodup
    rw [contractNames]
    refine ((later.append_left _).nodup_iff).2 (nodup.sublist ?_)
    exact (List.sublist_append_right _ _).append_left _
  · intro id new inside
    rcases List.mem_append.1 new with ofContract | ofExpansion
    · have taken := Supply.mem_fresh (Nat.le_trans le₁ whole₂) (contractNames ▸ ofContract)
      -- A symbol of the prepared body is from the body or from one of the passes.
      rcases reduceCensus.symbols id inside with spilled | later
      · rcases spillCensus.symbols id spilled with first | later
        · have := oldest id first
          omega
        · have := Supply.mem_fresh whole₁ later
          omega
      · have := Supply.mem_fresh whole₂ later
        have := spillCensus.symbol_le
        omega
    · have := Supply.mem_fresh (s := s₂) whole₃ (names.mem_iff.1 ofExpansion)
      have := oldPrepared id inside
      omega
  · exact (Supply.mem_fresh (s := s₂) whole₃ (names.mem_iff.1 added)).1

/-- A lowered body has a layout, with a tree in it that was prepared from the body. The tree calls
nothing that the body does not call. -/
theorem Node.LowersTo.layout {body : Node} {supply : Supply} {l : Lowered}
    (h : body.LowersTo supply l) : ∃ (L : Layout l) (s s' : Supply),
      l.contract.names = supply.fresh s ∧ supply.symbol ≤ s.symbol ∧
        runs (body.prepare {}) s L.prepared s' ∧ s'.Whole ∧ L.prepared.calls ⊆ body.calls := by
  obtain ⟨L, s, s', fresh, le, prepares, whole, calls, -⟩ := h.layout_of_runs
  exact ⟨L, s, s', (runs_fresh fresh).2.2.2, le, prepares, whole, calls⟩

/-- A body that can be lowered is legal. -/
theorem Node.LowersTo.legal {body : Node} {supply : Supply} {l : Lowered}
    (h : body.LowersTo supply l) : ∀ m ∈ body.walk, m.Legal := by
  obtain ⟨-, s', -, lowers⟩ := h
  exact check_legal (runs_lower lowers).1

/-- The symbols of the contract are new. -/
theorem Node.LowersTo.names_new {body : Node} {supply : Supply} {l : Lowered}
    (h : body.LowersTo supply l) : ∀ id ∈ l.contract.names, supply.symbol ≤ id.toNat := by
  obtain ⟨L, s, s', names, -, prepares, whole, -⟩ := h.layout
  obtain ⟨spilled, s₁, spills, reduces⟩ := runs_prepare prepares
  have le : s.symbol ≤ s'.symbol := Nat.le_trans (Node.spill_census spills).symbol_le
    (Node.reduce_census reduces (Node.spill_legal spills h.legal)).symbol_le
  exact fun id inside ↦ (Supply.mem_fresh (Nat.le_trans le whole) (names ▸ inside)).1

/-- Labels are symbols. -/
theorem Node.labelsWithin_symbols (n : Node) : n.labelsWithin ⊆ n.symbols := by
  induction n using Node.induction with
  | step n ih =>
    obtain ⟨i, sh⟩ := n
    intro id inside
    rw [labelsWithin_mk, List.mem_append] at inside
    rw [symbols_mk, List.mem_append]
    rcases inside with own | below
    · left
      cases sh <;> first | exact own | cases own
    · obtain ⟨c, child, found⟩ := List.mem_flatMap.1 below
      exact .inr (List.mem_flatMap.2 ⟨c, child, ih c child found⟩)

/-- Settling keeps the labels. -/
theorem Node.labelsWithin_settle (n : Node) : n.settle.labelsWithin = n.labelsWithin := by
  induction n using Node.induction with
  | step n ih =>
    have layer : (⟨n.id, n.shape.map settle⟩ : Node).labelsWithin = n.labelsWithin := by
      have own : (n.shape.map settle).ownLabels = n.shape.ownLabels := by
        cases n.shape <;> rfl
      rw [labelsWithin_mk, n.labelsWithin_eq, own, Shape.children_map, List.flatMap_map]
      exact congrArg _ (List.flatMap_congr fun c child ↦ ih c child)
    rw [← layer, settle_eq]
    generalize n.shape.map settle = sh
    cases sh with
    | block declared ns => rfl
    | await operand acquire result =>
      dsimp only
      split <;> simp [labelsWithin_mk, Shape.children, Shape.ownLabels]
    | region body clauses cleanup fault =>
      dsimp only
      split <;> simp [labelsWithin_mk, Shape.children, Shape.ownLabels]
    | _ => rfl

/-- Settling keeps the calls. -/
theorem Node.calls_settle (n : Node) : n.settle.calls = n.calls := by
  induction n using Node.induction with
  | step n ih =>
    have layer : (⟨n.id, n.shape.map settle⟩ : Node).calls = n.calls := by
      obtain ⟨i, sh⟩ := n
      rw [calls_mk, calls_mk, Node.shape, Shape.ownCalls_map, Shape.children_map, List.flatMap_map]
      exact congrArg _ (List.flatMap_congr fun c child ↦ ih c child)
    rw [← layer, settle_eq]
    generalize n.shape.map settle = sh
    cases sh with
    | block declared ns => rfl
    | await operand acquire result =>
      dsimp only
      split <;> simp [calls_mk, Shape.children, Shape.ownCalls]
    | region body clauses cleanup fault =>
      dsimp only
      split <;> simp [calls_mk, Shape.children, Shape.ownCalls]
    | _ => rfl

/-- Settling brings in no symbols. -/
theorem Node.symbols_settle (n : Node) : n.settle.symbols ⊆ n.symbols := by
  induction n using Node.induction with
  | step n ih =>
    have layer : (⟨n.id, n.shape.map settle⟩ : Node).symbols ⊆ n.symbols := by
      obtain ⟨i, sh⟩ := n
      rw [symbols_mk, symbols_mk, Node.shape, Shape.ownSymbols_map, Shape.children_map,
        List.flatMap_map]
      refine List.append_subset.2 ⟨List.subset_append_left _ _, fun id inside ↦ ?_⟩
      obtain ⟨c, child, found⟩ := List.mem_flatMap.1 inside
      exact List.mem_append_right _ (List.mem_flatMap.2 ⟨c, child, ih c child found⟩)
    refine List.Subset.trans ?_ layer
    rw [settle_eq]
    generalize n.shape.map settle = sh
    cases sh with
    | block declared ns =>
      dsimp only
      split
      · rw [symbols_mk, symbols_mk]
        exact List.subset_append_right _ _
      · exact List.Subset.refl _
    | await operand acquire result =>
      dsimp only
      split <;> simp [symbols_mk, Shape.children, Shape.ownSymbols]
    | region body clauses cleanup fault =>
      dsimp only
      split <;> simp [symbols_mk, Shape.children, Shape.ownSymbols]
    | _ => exact List.Subset.refl _

/-- What is hoisted is a symbol of the tree. -/
theorem Node.hoistable_symbols (n : Node) : ∀ v ∈ n.hoistable, v.id ∈ n.symbols := by
  induction n using Node.induction with
  | step n ih =>
    obtain ⟨i, sh⟩ := n
    intro v inside
    rw [hoistable_mk, List.mem_append] at inside
    rw [symbols_mk, List.mem_append]
    rcases inside with below | here
    · obtain ⟨c, child, found⟩ := List.mem_flatMap.1 below
      exact .inr (List.mem_flatMap.2 ⟨c, child, ih c child v found⟩)
    · split at here
      · cases sh with
        | block declared ns => exact .inl (List.mem_map_of_mem here)
        | _ => cases here
      · cases here

/-- What a lowered body keeps are symbols of the tree that was prepared. -/
theorem Layout.keeps_symbols {l : Lowered} (L : Layout l) {id : SymbolId} (h : l.keeps id) :
    id ∈ L.prepared.symbols := by
  obtain ⟨v, hoisted, rfl⟩ := List.mem_map.1 h
  exact L.prepared.hoistable_symbols v (L.hoisted ▸ hoisted)

namespace Layout

variable {l : Lowered} (L : Layout l)

include L in
/-- States are small enough to be told apart, and from that of a running body. -/
theorem toInt_state {k : Nat} (h : k < l.stateCount) : (Int64.ofNat k).toInt = k := by
  have count : 2 * l.stateCount < 18446744073709551616 := L.count
  exact Int64.toInt_ofNat_of_lt (by omega)

/-- No state stands in two cases. -/
theorem distinct : (L.added.table.flatMap Case.tests).Nodup := by
  rw [L.tests]
  refine List.nodup_range.map_on fun a below b below' same ↦ ?_
  have same := congrArg Int64.toInt same
  rw [L.toInt_state (List.mem_range.1 below), L.toInt_state (List.mem_range.1 below')] at same
  exact Int.ofNat.inj same

/-- No suspend point takes the state of a running body. -/
theorem running_not_mem : running ∉ L.added.table.flatMap Case.tests := by
  rw [L.tests]
  intro inside
  obtain ⟨k, below, same⟩ := List.mem_map.1 inside
  have same := congrArg Int64.toInt same
  rw [L.toInt_state (List.mem_range.1 below)] at same
  have : running.toInt = -1 := rfl
  omega

/-- The labels that were added are defined once, and nowhere in the tree that was prepared. -/
theorem sole {id : SymbolId} (inside : id ∈ L.added.labels.map Label.id) :
    L.expanded.labelsWithin.count id = 1 := by
  have name : id ∈ L.added.names := List.mem_append_right _ inside
  have added : (L.added.labels.map Label.id).Nodup :=
    (List.nodup_append.1 (List.nodup_append.1 L.names).2.1).2.1
  have elsewhere : id ∉ L.prepared.settle.labelsWithin := by
    rw [Node.labelsWithin_settle]
    exact fun found ↦
      L.apart id (List.mem_append_right _ name) (L.prepared.labelsWithin_symbols found)
  rw [L.twin.count_labels, List.count_eq_zero.2 elsewhere, List.count_eq_one_of_mem added inside]

end Layout

end Suspension
