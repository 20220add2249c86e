import Mathlib.Data.List.Perm.Basic
import Suspension.Proofs.Expansion.Twin
import Suspension.Proofs.Labels
import Suspension.Proofs.Passes

/-!
# The books of the expansion

`Adds` says what a run of the expansion did beside making nodes: which states and symbols were
taken, what was entered into the tables, what was hoisted, and that every number of a node was given
to one node only. It holds of one tree as it holds of several in a row (`Adds.append`), and each
step of the pass has a lemma that carries it on.
-/

namespace Suspension

/-- The numbers from one up to another. -/
def span (k k' : Nat) : List Nat :=
  List.range' k (k' - k)

/-- Stretches of numbers that meet are one stretch. -/
theorem span_append {k k₁ k' : Nat} (le : k ≤ k₁) (le' : k₁ ≤ k') :
    span k k₁ ++ span k₁ k' = span k k' := by
  rw [span, span, span, show k' - k = (k₁ - k) + (k' - k₁) by omega, ← List.range'_append_1,
    Nat.add_sub_cancel' le]

@[simp] theorem span_self (k : Nat) : span k k = [] := by
  rw [span, Nat.sub_self]
  rfl

@[simp] theorem span_succ (k : Nat) : span k (k + 1) = [k] := by
  rw [span, Nat.add_sub_cancel_left]
  rfl

/-- The variables of the blocks that suspend, in the order in which the blocks are closed. -/
def Node.hoistable : Node → List Variable :=
  Node.fold fun n layer ↦
    layer.children.flatten ++ if n.containsAwait then n.shape.declared else []

/-- What a tree hoists is what its children hoist, and what it declares if it suspends. -/
theorem Node.hoistable_eq (n : Node) :
    n.hoistable = n.children.flatMap hoistable ++
      if n.containsAwait then n.shape.declared else [] := by
  rw [hoistable, fold_eq, Shape.children_map, List.flatMap_def]
  rfl

/-- More entries in the current table. -/
def Resumption.grow (r : Resumption) (table : Table) (next : Nat) : Resumption :=
  match r.regions with
  | [] => ⟨next, r.root ++ table, []⟩
  | current :: outer => ⟨next, r.root, (current ++ table) :: outer⟩

@[simp] theorem Resumption.grow_next (r : Resumption) (table : Table) (next : Nat) :
    (r.grow table next).next = next := by
  rw [grow]
  split <;> rfl

/-- Tables grow one after the other. -/
theorem Resumption.grow_grow (r : Resumption) (T T' : Table) (k k' : Nat) :
    (r.grow T k).grow T' k' = r.grow (T ++ T') k' := by
  obtain ⟨next, root, regions⟩ := r
  cases regions <;> simp [grow]

@[simp] theorem Resumption.grow_nil (r : Resumption) : r.grow [] r.next = r := by
  obtain ⟨next, root, regions⟩ := r
  cases regions <;> simp [grow]

/-- Entering a case is growing by it. -/
theorem Resumption.enter_eq_grow (r : Resumption) (c : Case Node) :
    r.enter c = r.grow [c] r.next := by
  obtain ⟨next, root, regions⟩ := r
  cases regions <;> rfl

/-- The innermost open block suspends if a condition holds. -/
def Scopes.markIf (s : Scopes) (suspends : Bool) : Scopes :=
  if suspends then s.mark else s

/-- Adding variables succeeds by adding all of them. -/
theorem Scopes.hoist_eq {hoisted hoisted' vs : List Variable}
    (h : Scopes.hoist hoisted vs = (hoisted', none)) : hoisted' = hoisted ++ vs := by
  induction vs generalizing hoisted with
  | nil =>
    cases h
    simp
  | cons v vs ih =>
    rw [Scopes.hoist] at h
    split at h
    · cases h
    · rw [ih h, List.append_assoc]
      rfl

/-- Closing a block keeps its declarations, or hoists all of them. -/
theorem Scopes.exit_eq {s : Scopes} {declared : List Variable} {block : NodeId} {b : Bool}
    {scopes : Scopes} {marked : Bool} {outer : List Bool} (suspends : s.suspends = marked :: outer)
    (h : s.exit declared block = (.ok b, scopes)) :
    (if b then [] else declared) = (if marked then [] else declared) ∧
      scopes = { ({ s with suspends := outer } : Scopes).markIf marked with
        hoisted := s.hoisted ++ if marked then declared else [] } := by
  obtain ⟨_, hoisted⟩ := s
  cases suspends
  rw [Scopes.exit] at h
  cases marked with
  | false =>
    cases h
    simp [markIf]
  | true =>
    dsimp only [List.head?_cons, Option.getD_some] at h
    simp only [if_true] at h
    split at h
    · cases h
    · rename_i hoisted' eq
      cases h
      rw [hoist_eq eq]
      cases declared <;> simp [markIf, mark]

/-- The books of a run of the expansion that made some nodes. -/
structure Adds (es : List Node) (hoisted : List Variable) (suspends : Bool) (X : Added)
    (r r' : Expansion) : Prop where
  next_le : r.resumption.next ≤ r'.resumption.next
  symbol_le : r.supply.symbol ≤ r'.supply.symbol
  node_le : r.supply.node ≤ r'.supply.node
  resumption : r'.resumption = r.resumption.grow X.table r'.resumption.next
  fields : r'.fields = r.fields ++ X.fields
  scopes : r'.scopes = { r.scopes.markIf suspends with hoisted := r.scopes.hoisted ++ hoisted }
  empty : suspends = false → X = {}
  nonempty : suspends = true → r.resumption.next < r'.resumption.next
  tests : X.table.flatMap Case.tests =
    (span r.resumption.next r'.resumption.next).map Int64.ofNat
  names : X.names.Perm ((span r.supply.symbol r'.supply.symbol).map UInt64.ofNat)
  -- A suspend point takes two symbols at least, so there are enough states for them.
  points : 2 * r'.resumption.next + r.supply.symbol ≤ 2 * r.resumption.next + r'.supply.symbol
  ids : (es.flatMap Node.ids ++ X.table.flatMap fun entry ↦ entry.body.ids).Perm
    (span r.supply.node r'.supply.node)

namespace Adds

variable {es es' : List Node} {hs hs' : List Variable} {b b' : Bool} {X X' : Added}
variable {r r₁ r' : Expansion}

/-- What does nothing adds nothing. -/
theorem nil (r : Expansion) : Adds [] [] false {} r r where
  next_le := Nat.le_refl _
  symbol_le := Nat.le_refl _
  node_le := Nat.le_refl _
  resumption := by simp
  fields := by simp
  scopes := by simp [Scopes.markIf]
  empty _ := rfl
  nonempty h := nomatch h
  tests := by simp
  names := by simp [Added.names]
  points := Nat.le_refl _
  ids := by simp

theorem perm_interleave {α : Type} (a b c d : List α) :
    ((a ++ b) ++ (c ++ d)).Perm ((a ++ c) ++ (b ++ d)) := by
  simp only [List.append_assoc]
  exact .append_left a (List.perm_append_comm_assoc b c d)

theorem markIf_markIf (s : Scopes) (hoisted : List Variable) (b b' : Bool) :
    ({ s.markIf b with hoisted } : Scopes).markIf b' = { s.markIf (b || b') with hoisted } := by
  obtain ⟨suspends, _⟩ := s
  cases b <;> cases b' <;> cases suspends <;> rfl

theorem mark_markIf (s : Scopes) (b : Bool) : s.mark.markIf b = s.markIf true := by
  obtain ⟨suspends, _⟩ := s
  cases b <;> cases suspends <;> rfl

/-- The names that two expansions add are those of each. -/
theorem append_names (X X' : Added) : (X ++ X').names.Perm (X.names ++ X'.names) := by
  change ((X.fields ++ X'.fields).map _ ++ (X.results ++ X'.results).map _ ++
    (X.labels ++ X'.labels).map _).Perm _
  simp only [List.map_append, Added.names]
  exact ((perm_interleave _ _ _ _).append_right _).trans (perm_interleave _ _ _ _)

/-- Books of runs one after the other. -/
theorem append (h : Adds es hs b X r r₁) (h' : Adds es' hs' b' X' r₁ r') :
    Adds (es ++ es') (hs ++ hs') (b || b') (X ++ X') r r' where
  next_le := Nat.le_trans h.next_le h'.next_le
  symbol_le := Nat.le_trans h.symbol_le h'.symbol_le
  node_le := Nat.le_trans h.node_le h'.node_le
  resumption := by
    rw [h'.resumption, h.resumption, Resumption.grow_grow, Resumption.grow_next]
    rfl
  fields := by
    rw [h'.fields, h.fields, List.append_assoc]
    rfl
  scopes := by
    rw [h'.scopes, h.scopes, markIf_markIf]
    simp
  empty quiet := by
    obtain ⟨left, right⟩ := Bool.or_eq_false_iff.1 quiet
    rw [h.empty left, h'.empty right]
    rfl
  nonempty suspends := by
    rcases Bool.or_eq_true_iff.1 suspends with left | right
    · exact Nat.lt_of_lt_of_le (h.nonempty left) h'.next_le
    · exact Nat.lt_of_le_of_lt h.next_le (h'.nonempty right)
  tests := by
    change (X.table ++ X'.table).flatMap _ = _
    rw [List.flatMap_append, h.tests, h'.tests, ← List.map_append, span_append h.next_le h'.next_le]
  names := by
    refine (append_names X X').trans ?_
    rw [← span_append h.symbol_le h'.symbol_le, List.map_append]
    exact h.names.append h'.names
  points := by
    have := h.points
    have := h'.points
    omega
  ids := by
    change (_ ++ (X.table ++ X'.table).flatMap _).Perm _
    rw [List.flatMap_append, List.flatMap_append, ← span_append h.node_le h'.node_le]
    exact (perm_interleave _ _ _ _).trans (h.ids.append h'.ids)

/-- Trees that suspend have cases to enter. -/
theorem tests_ne_nil (h : Adds es hs true X r r') : X.table.flatMap Case.tests ≠ [] := by
  rw [h.tests]
  have := h.nonempty rfl
  simp [span]
  omega

/-- Closing a block around statements. -/
theorem exitBlock {declared : List Variable} {block : NodeId} {hoisted : Bool} {scopes : Scopes}
    (h : Adds es hs b X { r with scopes := r.scopes.enter } r₁)
    (exit : r₁.scopes.exit declared block = (.ok hoisted, scopes)) :
    (if hoisted then [] else declared) = (if b then [] else declared) ∧
      Adds es (hs ++ if b then declared else []) b X r { r₁ with scopes } := by
  have suspends : r₁.scopes.suspends = b :: r.scopes.suspends := by
    rw [h.scopes]
    cases b <;> rfl
  obtain ⟨declarations, rfl⟩ := Scopes.exit_eq suspends exit
  refine ⟨declarations, ⟨h.next_le, h.symbol_le, h.node_le, h.resumption, h.fields, ?_, h.empty,
    h.nonempty, h.tests, h.names, h.points, h.ids⟩⟩
  rw [h.scopes, ← List.append_assoc]
  cases b <;> rfl

/-- Closing a region of the tables. -/
theorem closeRegion (h : Adds es hs b X { r with resumption := r.resumption.openRegion } r₁) :
    r₁.resumption.closeRegion = (X.table, { r.resumption with next := r₁.resumption.next }) := by
  rw [h.resumption]
  rfl

/-- Closing a region that does not suspend. -/
theorem closed (h : Adds es hs false {} { r with resumption := r.resumption.openRegion } r₁) :
    Adds es hs false {} r { r₁ with resumption := r₁.resumption.closeRegion.2 } := by
  rw [h.closeRegion]
  refine ⟨h.next_le, h.symbol_le, h.node_le, ?_, h.fields, h.scopes, h.empty, h.nonempty, h.tests,
    h.names, h.points, h.ids⟩
  obtain ⟨_, _, ⟨_, _, regions⟩, _⟩ := r
  cases regions <;> simp [Resumption.grow]

end Adds

/-- The books of trees in a row. -/
theorem Adds.of_threads {Q : Node → Expansion → Node → Expansion → Added → Prop}
    (adds : ∀ {n r e r' X}, Q n r e r' X → Adds [e] n.hoistable n.containsAwait X r r')
    {xs : List (Node × Node × Added)} {r r' : Expansion} (h : Threads Q xs r r') :
    Adds (xs.map (·.2.1)) ((xs.map Prod.fst).flatMap Node.hoistable)
      ((xs.map Prod.fst).any Node.containsAwait) (.join (xs.map (·.2.2))) r r' := by
  induction h with
  | nil => exact .nil _
  | cons head tail ih => exact (adds head).append ih

/-! ### Building nodes -/

section Build

theorem Build.bind_run {α β : Type} (x : Build α) (f : α → Build β) (s : Supply) :
    (x >>= f) s = f (x s).1 (x s).2 := rfl

theorem Build.pure_run {α : Type} (a : α) (s : Supply) : (pure a : Build α) s = (a, s) := rfl

theorem Build.node_run (sh : Shape Node) (s : Supply) :
    Build.node sh s = (⟨s.node, sh⟩, { s with node := s.node + 1 }) := rfl

/-- What is built without an expansion changes the supply only. -/
theorem runs_lift {α : Type} {b : Build α} {r r' : Expansion} {a : α} :
    runs (liftM b : Expand α) r a r' ↔
      a = (b r.supply).1 ∧ r' = { r with supply := (b r.supply).2 } := by
  change Except.ok ((b r.supply).1, { r with supply := (b r.supply).2 }) = .ok (a, r') ↔ _
  rw [Except.ok.injEq, Prod.mk.injEq, eq_comm, @eq_comm _ _ r']

/-- A node that is built takes the next number. -/
theorem runs_node {sh : Shape Node} {r r' : Expansion} {e : Node} :
    runs (liftM (Build.node sh) : Expand Node) r e r' ↔
      e = ⟨r.supply.node, sh⟩ ∧
        r' = { r with supply := { r.supply with node := r.supply.node + 1 } } :=
  runs_lift

end Build

/-- Nothing but blocks and suspend points adds to what is hoisted, or suspends. -/
theorem Node.books_of_parts (i : NodeId) (sh : Shape Node) (notBlock : sh.kind ≠ .block)
    (notAwait : sh.kind ≠ .await) : hoistable ⟨i, sh⟩ = sh.children.flatMap hoistable ∧
      containsAwait ⟨i, sh⟩ = sh.children.any containsAwait := by
  have undeclared : sh.declared = [] := by
    cases sh <;> first | rfl | exact absurd rfl notBlock
  have other : (Node.kind ⟨i, sh⟩ == .await) = false := beq_eq_false_iff_ne.2 notAwait
  rw [hoistable_eq, containsAwait_eq, other, shape, undeclared, Bool.false_or, ite_self,
    List.append_nil]
  exact ⟨rfl, rfl⟩

/-- A node over nodes that were made before it. -/
theorem Adds.node {sh : Shape Node} {hs : List Variable} {b : Bool} {X : Added} {r r' : Expansion}
    (h : Adds sh.children hs b X r r') :
    Adds [⟨r'.supply.node, sh⟩] hs b X r
      { r' with supply := { r'.supply with node := r'.supply.node + 1 } } where
  next_le := h.next_le
  symbol_le := h.symbol_le
  node_le := Nat.le_succ_of_le h.node_le
  resumption := h.resumption
  fields := h.fields
  scopes := h.scopes
  empty := h.empty
  nonempty := h.nonempty
  tests := h.tests
  names := h.names
  points := h.points
  ids := by
    rw [← span_append h.node_le (Nat.le_succ _), span_succ]
    refine .trans ?_ (List.perm_append_singleton _ _).symm
    rw [List.flatMap_singleton, Node.ids_eq]
    exact h.ids.cons _

/-- The expansion unrolls by one layer. -/
theorem Node.expand_eq (c : Contract) (n : Node) :
    n.expand c = match n.shape with
      | .block declared statements => Expand.block n.id declared (statements.map (expand c))
      | .await operand acquire result => Expand.suspendPoint c (operand.expand c) acquire result
      | .region body clauses cleanup fault =>
        Expand.region c (body.expand c) (clauses.map (Clause.map (expand c)))
          (cleanup.map (expand c)) (fault.map (expand c))
      | sh => (do Build.node (← sh.mapM (expand c))) := by
  rw [expand, fold_eq]
  obtain ⟨i, sh⟩ := n
  cases sh <;> first | rfl | (simp only [shape, ← Shape.sequence_map]; rfl)

namespace Expand

variable {r r' : Expansion}

/-- A change of scopes changes nothing else. -/
theorem runs_changeScopes {f : Scopes → Scopes} {u : Unit} :
    runs (changeScopes f) r u r' ↔ r' = { r with scopes := f r.scopes } := by
  change Except.ok ((), { r with scopes := f r.scopes }) = .ok (u, r') ↔ _
  rw [Except.ok.injEq, Prod.mk.injEq, @eq_comm _ _ r']
  exact and_iff_right rfl

/-- A block is left as its scopes say. -/
theorem runs_exitBlock {declared : List Variable} {block : NodeId} {b : Bool} :
    runs (exitBlock declared block) r b r' ↔
      ∃ scopes, r.scopes.exit declared block = (.ok b, scopes) ∧ r' = { r with scopes } := by
  change exitBlock declared block r = .ok (b, r') ↔ _
  rw [exitBlock]
  rcases r.scopes.exit declared block with ⟨e | hoisted, scopes⟩
  · constructor
    · exact nofun
    · rintro ⟨_, eq, _⟩
      cases eq
  · constructor
    · intro eq
      cases eq
      exact ⟨_, rfl, rfl⟩
    · rintro ⟨_, eq, rfl⟩
      cases eq
      rfl

end Expand

/-! ### Suspend points -/

namespace Expand

open Build

/-- A new field is a variable with the next symbol, behind the others. -/
theorem runs_newField {name : String} {ty : Ty} {r r' : Expansion} {v : Variable} :
    runs (newField name ty) r v r' ↔
      v = ⟨UInt64.ofNat r.supply.symbol, name, ty⟩ ∧
        r' = { r with
          supply := { r.supply with symbol := r.supply.symbol + 1 },
          fields := r.fields ++ [v] } := by
  change Except.ok (_, _) = .ok (v, r') ↔ _
  rw [Except.ok.injEq, Prod.mk.injEq, eq_comm, @eq_comm _ _ r']
  constructor
  · rintro ⟨rfl, rfl⟩
    exact ⟨rfl, rfl⟩
  · rintro ⟨rfl, rfl⟩
    exact ⟨rfl, rfl⟩

/-- Numbers counted from one on are a span. -/
theorem perm_span {is : List Nat} {m : Nat} (k : Nat) (h : is.Perm (List.range m)) :
    (is.map (k + ·)).Perm (span k (k + m)) := by
  rw [span, Nat.add_sub_cancel_left, List.range'_eq_map_range]
  exact h.map _

/-- What taking the next state does. -/
structure Allocates (c : Contract) (p : ResumePoint) (entry : Node) (r r' : Expansion) : Prop where
  index : p.index = r.resumption.next
  label : p.label.id = UInt64.ofNat r.supply.symbol
  isReturn : IsReturn c p.label entry
  ids : entry.ids.Perm (span r.supply.node r'.supply.node)
  after : r' = { r with
    supply := ⟨r.supply.node + 5, r.supply.symbol + 1⟩,
    resumption := r.resumption.grow [⟨[Int64.ofNat p.index], entry⟩] (r.resumption.next + 1) }

/-- A resume point is allocated with an entry that leads to it. -/
theorem runs_allocate {c : Contract} {p : ResumePoint} {r r' : Expansion}
    (h : runs (allocate c) r p r') : ∃ entry, Allocates c p entry r r' := by
  change Except.ok (_, _) = .ok (p, r') at h
  rw [Except.ok.injEq, Prod.mk.injEq] at h
  obtain ⟨rfl, rfl⟩ := h
  let k := r.supply.node
  let label : Label := ⟨UInt64.ofNat r.supply.symbol, "__state" ++ toString r.resumption.next⟩
  let run : Node := ⟨k + 2, .assign c.localState ⟨k + 1, .assign c.state
    ⟨k, .const (.int running)⟩⟩⟩
  let entry : Node := ⟨k + 4, .block [] [run, ⟨k + 3, .goto label⟩]⟩
  have ids : entry.ids = [4, 2, 1, 0, 3].map (k + ·) := by
    simp [entry, run, Node.ids_mk, Shape.children]
  refine ⟨entry, rfl, rfl, .mk _ _ (.mk _ _ _), ?_, ?_⟩
  · rw [ids]
    exact perm_span (m := 5) k (by decide)
  · change Expansion.mk _ _ _ _ = _
    rw [Resumption.enter_eq_grow]
    rfl

/-- What the block of a suspend point takes from the supply. -/
structure Blocks (c : Contract) (acquire : Option String) (o : Node) (awaiter : Variable)
    (point : ResumePoint) (result : Ty) (j : NodeId) (p : Point) (e : Node) (s s' : Supply) :
    Prop where
  index : p.index = point.index
  label : p.label = point.label
  awaiter : p.awaiter = awaiter
  result : p.result = none ↔ result = .unit
  isPoint : IsPoint c acquire p o e
  node_le : s.node ≤ s'.node
  symbol_le : s.symbol ≤ s'.symbol
  names : p.result.toList.map Variable.id = (span s.symbol s'.symbol).map UInt64.ofNat
  ids : e.ids.Perm (j :: o.ids ++ span s.node s'.node)

/-- What a suspend point is taken apart to is a block. -/
theorem run_pointBlock (c : Contract) (acquire : Option String) (o : Node) (awaiter : Variable)
    (point : ResumePoint) (result : Ty) (j : NodeId) (s : Supply) :
    ∃ p, Blocks c acquire o awaiter point result j p
      (pointBlock c ⟨j, acquireShape acquire o⟩ awaiter point result s).1 s
      (pointBlock c ⟨j, acquireShape acquire o⟩ awaiter point result s).2 := by
  -- The block's nodes were made in another order than they stand in: `fixed` before the operand.
  have outer (fixed rest : List Nat) (m : Nat) (perm : (fixed ++ rest).Perm (List.range m)) :
      (fixed.map (s.node + ·) ++ (j :: o.ids) ++ rest.map (s.node + ·)).Perm
        (j :: o.ids ++ span s.node (s.node + m)) := by
    refine .trans ?_ ((perm_span s.node perm).append_left _)
    rw [List.map_append, ← List.append_assoc]
    exact List.perm_append_comm.append_right _
  have acquired : Node.ids ⟨j, acquireShape acquire o⟩ = j :: o.ids := by
    rw [Node.ids_mk, children_acquireShape, List.flatMap_singleton]
  by_cases unit : result = .unit
  · refine ⟨⟨point.index, point.label, awaiter, none⟩, ?_⟩
    simp only [pointBlock, unit, if_true, bind_run, pure_run, node_run, Contract.updateState,
      Contract.handOver, seq]
    refine ⟨rfl, rfl, rfl, by simp, .mk _ _ _ _ _ _ _ _ _ _ _ (.mk _ _ _ _ (.mk _ _ _))
      (.dropped _ _ rfl) (.mk _ _ _), Nat.le_add_right _ 22, Nat.le_refl _, ?_, ?_⟩
    · rw [span_self]
      rfl
    · refine .trans (.of_eq ?_) (outer [21, 7]
        [11, 10, 9, 8, 6, 2, 1, 0, 4, 3, 5, 12, 14, 13, 16, 15, 19, 18, 17, 20] 22 (by decide))
      simp only [Node.ids_mk, Shape.children, List.flatMap_cons, List.flatMap_nil, acquired,
        Option.toList_none, List.append_nil, List.map_cons, List.map_nil, List.cons_append,
        List.nil_append, Nat.add_assoc, Nat.reduceAdd, Nat.add_zero]
  · let v : Variable := ⟨UInt64.ofNat s.symbol, "__result", result⟩
    refine ⟨⟨point.index, point.label, awaiter, some v⟩, ?_⟩
    simp only [pointBlock, unit, if_false, bind_run, pure_run, node_run, Contract.updateState,
      Contract.handOver, seq, newVariable, newSymbolId]
    refine ⟨rfl, rfl, rfl, by simp [unit], .mk _ _ _ _ _ _ _ _ _ _ _ (.mk _ _ _ _ (.mk _ _ _))
      (.kept _ _ _ rfl) (.mk _ _ _), Nat.le_add_right _ 23, Nat.le_succ _, ?_, ?_⟩
    · rw [span_succ]
      rfl
    · refine .trans (.of_eq ?_) (outer [22, 7]
        [11, 10, 9, 8, 6, 2, 1, 0, 4, 3, 5, 12, 15, 14, 13, 17, 16, 20, 19, 18, 21] 23 (by decide))
      simp only [Node.ids_mk, Shape.children, List.flatMap_cons, List.flatMap_nil, acquired,
        Option.toList_none, List.append_nil, List.map_cons, List.map_nil, List.cons_append,
        List.nil_append, Nat.add_assoc, Nat.reduceAdd, Nat.add_zero]

/-- Books of a suspend point, given those of its operand. -/
theorem runs_suspendPoint {c : Contract} {operand : Expand Node} {acquire : Option String}
    {result : Ty} {r r' : Expansion} {e : Node}
    (h : runs (suspendPoint c operand acquire result) r e r') :
    ∃ o r₁ p entry, runs operand { r with scopes := r.scopes.mark } o r₁ ∧
      IsPoint c acquire p o e ∧ IsReturn c p.label entry ∧ (p.result = none ↔ result = .unit) ∧
      ∀ {hs b X}, Adds [o] hs b X { r with scopes := r.scopes.mark } r₁ →
        Adds [e] hs true (X ++ .ofPoint p entry) r r' := by
  simp only [suspendPoint, runs_bind, runs_changeScopes, runs_newField, runs_lift, node_run] at h
  obtain ⟨_, _, rfl, o, r₁, operand, _, _, ⟨rfl, rfl⟩, awaiter, _, ⟨rfl, rfl⟩, point, r₂, allocated,
    rfl, rfl⟩ := h
  obtain ⟨entry, index, label, isReturn, ids, rfl⟩ := runs_allocate allocated
  obtain ⟨p, blocks⟩ := run_pointBlock c acquire o
    ⟨UInt64.ofNat r₁.supply.symbol, "__awaiter", .any⟩ point result r₁.supply.node
    ⟨r₁.supply.node + 1 + 5, r₁.supply.symbol + 1 + 1⟩
  refine ⟨o, r₁, p, entry, operand, blocks.isPoint, blocks.label ▸ isReturn, blocks.result,
    fun {hs b X} adds ↦ ?_⟩
  clear allocated
  obtain ⟨⟨k, m⟩, scopes, resumption, fields⟩ := r₁
  dsimp only at index label blocks ids ⊢
  generalize pointBlock c _ _ point result _ = made at blocks ⊢
  obtain ⟨e, s'⟩ := made
  have nodes : k + 6 ≤ s'.node := blocks.node_le
  have symbols : m + 2 ≤ s'.symbol := blocks.symbol_le
  have grown : resumption = r.resumption.grow X.table resumption.next := adds.resumption
  have marked : scopes = { r.scopes.mark.markIf b with hoisted := r.scopes.hoisted ++ hs } :=
    adds.scopes
  have points : 2 * resumption.next + r.supply.symbol ≤ 2 * r.resumption.next + m := adds.points
  -- One goal for each field of the books.
  constructor
  · exact Nat.le_trans adds.next_le (by simp)
  · exact Nat.le_trans adds.symbol_le (Nat.le_trans (Nat.le_add_right m 2) symbols)
  · exact Nat.le_trans adds.node_le (Nat.le_trans (Nat.le_add_right k 6) nodes)
  · rw [Resumption.grow_next, Added.append_table, ← Resumption.grow_grow _ _ _ resumption.next,
      ← grown, ← blocks.index]
    rfl
  · rw [Added.append_fields, ← List.append_assoc, ← adds.fields, Added.ofPoint, blocks.awaiter]
  · rw [marked, Adds.mark_markIf]
  · exact nofun
  · intro _
    rw [Resumption.grow_next]
    exact Nat.lt_succ_of_le adds.next_le
  · have tests : X.table.flatMap Case.tests = (span r.resumption.next resumption.next).map _ :=
      adds.tests
    rw [Added.append_table, List.flatMap_append, tests, Resumption.grow_next,
      ← span_append adds.next_le (Nat.le_succ _), List.map_append, span_succ, ← index,
      ← blocks.index]
    rfl
  · have names : X.names.Perm ((span r.supply.symbol m).map UInt64.ofNat) := adds.names
    have own : (Added.ofPoint p entry).names.Perm ((span m s'.symbol).map UInt64.ofNat) := by
      rw [← span_append (Nat.le_add_right m 2) symbols, List.map_append, ← blocks.names,
        ← span_append (Nat.le_add_right m 1) (Nat.le_succ _), span_succ, span_succ]
      change (p.awaiter.id :: _ ++ [p.label.id]).Perm _
      rw [blocks.awaiter, blocks.label, label]
      exact List.perm_append_comm.cons _
    refine (Adds.append_names _ _).trans ?_
    rw [← span_append adds.symbol_le (Nat.le_trans (Nat.le_add_right m 2) symbols), List.map_append]
    exact names.append own
  · change 2 * (resumption.grow _ _).next + r.supply.symbol ≤ 2 * r.resumption.next + s'.symbol
    rw [Resumption.grow_next]
    omega
  · have before : (o.ids ++ X.table.flatMap fun entry ↦ entry.body.ids).Perm
        (span r.supply.node k) := by
      simpa using adds.ids
    have made : e.ids.Perm (k :: o.ids ++ span (k + 6) s'.node) := blocks.ids
    have entries : entry.ids.Perm (span (k + 1) (k + 6)) := ids
    rw [← span_append adds.node_le (Nat.le_trans (Nat.le_add_right k 6) nodes),
      ← span_append (Nat.le_add_right k 6) nodes,
      ← span_append (Nat.le_add_right k 1) (Nat.add_le_add_left (by decide : 1 ≤ 6) k), span_succ]
    -- Ids of the operand, of the entry and of the block itself, counted together.
    rw [List.perm_iff_count] at before made entries ⊢
    intro a
    have := before a
    have := made a
    have := entries a
    simp only [List.count_append, List.count_cons, List.count_nil, List.flatMap_singleton,
      List.flatMap_append, List.cons_append, Added.append_table, Added.ofPoint] at *
    omega

/-! ### Regions -/

theorem runs_get {r r' a : Expansion} : runs (get : Expand Expansion) r a r' ↔ a = r ∧ r' = r := by
  change Except.ok (r, r) = .ok (a, r') ↔ _
  rw [Except.ok.injEq, Prod.mk.injEq, eq_comm, @eq_comm _ _ r']

theorem runs_modify {f : Expansion → Expansion} {r r' : Expansion} {u : Unit} :
    runs (modify f : Expand Unit) r u r' ↔ r' = f r := by
  change Except.ok ((), f r) = .ok (u, r') ↔ _
  rw [Except.ok.injEq, Prod.mk.injEq, @eq_comm _ _ r']
  exact and_iff_right rfl

/-- Closing a region takes the cases that were entered since it was opened. -/
theorem runs_closeRegion {r r' : Expansion} {table : Table} :
    runs closeRegion r table r' ↔ table = r.resumption.closeRegion.1 ∧
      r' = { r with resumption := r.resumption.closeRegion.2 } := by
  have run : closeRegion r = .ok (r.resumption.closeRegion.1,
      { r with resumption := r.resumption.closeRegion.2 }) := rfl
  change closeRegion r = .ok (table, r') ↔ _
  rw [run, Except.ok.injEq, Prod.mk.injEq, eq_comm, @eq_comm _ _ r']

/-- Cases of a region are folded to one, for all of their indices. -/
theorem run_fold {closed : Table} {entry : Label} {r : Resumption} {s : Supply}
    (h : closed.flatMap Case.tests ≠ []) :
    r.fold closed entry s =
      (r.grow [⟨closed.flatMap Case.tests, ⟨s.node, .goto entry⟩⟩] r.next,
        { s with node := s.node + 1 }) := by
  rw [Resumption.fold, ← Resumption.enter_eq_grow]
  simp only [List.isEmpty_iff, h, if_false]
  rfl

/-- What the guards of the parts of a region take from the supply. -/
structure Guards (c : Contract) (part part' : Option Node) (s s' : Supply) : Prop where
  guarded : Option.Rel (IsGuarded c) part part'
  node_le : s.node ≤ s'.node
  symbol : s'.symbol = s.symbol
  ids : (part'.toList.flatMap Node.ids).Perm
    (part.toList.flatMap Node.ids ++ span s.node s'.node)

/-- A guarded part is built as one. -/
theorem run_guarded (c : Contract) (part : Option Node) (s : Supply) :
    Guards c part (guarded c part s).1 s (guarded c part s).2 := by
  cases part with
  | none =>
    refine ⟨.none, Nat.le_refl _, rfl, ?_⟩
    change List.Perm [] ([] ++ span s.node s.node)
    simp
  | some part =>
    refine ⟨.some (.mk _ _ _ _), Nat.le_add_right _ 4, rfl, ?_⟩
    change (Node.ids ⟨s.node + 3, .branch ⟨s.node + 2, .binary .lt ⟨s.node, _⟩ ⟨s.node + 1, _⟩⟩ part
      none⟩ ++ []).Perm (part.ids ++ [] ++ span s.node (s.node + 4))
    simp only [Node.ids_mk, Shape.children, List.flatMap_cons, List.flatMap_nil, List.append_nil,
      Option.toList_none, List.cons_append, List.nil_append]
    have own := perm_span s.node (show [3, 2, 0, 1].Perm (List.range 4) by decide)
    refine .trans ?_ (own.append_left _)
    exact @List.perm_append_comm _ [_, _, _, _] _

/-- A region whose parts are still to be expanded. -/
theorem region_eq (c : Contract) (f : Node → Expand Node) (body : Node)
    (clauses : List (Clause Node)) (cleanup fault : Option Node) :
    region c (f body) (clauses.map (Clause.map f)) (cleanup.map f) (fault.map f) = (do
      openRegion
      let body ← f body
      let clauses ← clauses.mapM (Clause.mapM f)
      let cleanup ← cleanup.mapM f
      let fault ← fault.mapM f
      let table ← closeRegion
      if table.isEmpty then node (.region body clauses cleanup fault)
      else entered c table body clauses cleanup fault) := by
  have clause : (fun x : Clause (Expand Node) ↦ x.mapM id) ∘ Clause.map f = Clause.mapM f := by
    funext x
    obtain ⟨_, filter, _⟩ := x
    cases filter <;> rfl
  have part (o : Option Node) : (o.map f).mapM id = o.mapM f := by cases o <;> rfl
  simp only [region, List.mapM_map, clause, part]

/-- A region is expanded child by child, and rebuilt with a dispatch if it suspends. -/
theorem runs_region {c : Contract} {body : Node} {clauses : List (Clause Node)}
    {cleanup fault : Option Node} {r r' : Expansion} {e : Node}
    (h : runs (region c (body.expand c) (clauses.map (Clause.map (Node.expand c)))
      (cleanup.map (Node.expand c)) (fault.map (Node.expand c))) r e r') :
    ∃ body' clauses' cleanup' fault' r₁,
      runs ((Shape.region body clauses cleanup fault).mapM (Node.expand c))
        { r with resumption := r.resumption.openRegion }
        (.region body' clauses' cleanup' fault') r₁ ∧
      runs (if r₁.resumption.closeRegion.1.isEmpty then
          liftM (node (.region body' clauses' cleanup' fault'))
        else entered c r₁.resumption.closeRegion.1 body' clauses' cleanup' fault')
        { r₁ with resumption := r₁.resumption.closeRegion.2 } e r' := by
  simp only [region_eq, runs_bind, openRegion, runs_modify, runs_closeRegion] at h
  obtain ⟨_, _, rfl, body', r₂, bodies, clauses', r₃, clausesRun, cleanup', r₄, cleanups, fault',
    r₅, faults, _, _, ⟨rfl, rfl⟩, h⟩ := h
  refine ⟨body', clauses', cleanup', fault', r₅, ?_, h⟩
  simp only [Shape.mapM, runs_bind, runs_pure]
  exact ⟨body', r₂, bodies, clauses', r₃, clausesRun, cleanup', r₄, cleanups, fault', r₅, faults,
    rfl, rfl⟩

end Expand

open Expand Build in
/-- Books of a region that suspends, given those of its parts. -/
theorem Adds.entered {c : Contract} {body : Node} {clauses : List (Clause Node)}
    {cleanup fault : Option Node} {hs : List Variable} {X : Added} {r r₁ r' : Expansion} {e : Node}
    (h : Adds (Shape.region body clauses cleanup fault).children hs true X
      { r with resumption := r.resumption.openRegion } r₁)
    (run : runs (Expand.entered c X.table body clauses cleanup fault)
      { r₁ with resumption := r₁.resumption.closeRegion.2 } e r') :
    ∃ cleanup' fault' entry l, Option.Rel (IsGuarded c) cleanup cleanup' ∧
      Option.Rel (IsGuarded c) fault fault' ∧
      IsEntered c entry X.table body clauses cleanup' fault' e ∧
      Adds [e] hs true (X.ofRegion entry ⟨l, .goto entry⟩) r r' := by
  obtain ⟨⟨k, m⟩, scopes, resumption, fields⟩ := r₁
  have tests := h.tests_ne_nil
  simp only [Expand.entered, runs_bind, runs_lift, seq, node_run] at run
  obtain ⟨_, _, ⟨rfl, rfl⟩, _, _, ⟨rfl, rfl⟩, _, _, ⟨rfl, rfl⟩, run⟩ := run
  dsimp only at run
  -- The guards are made one after the other. They take ids of nodes and no symbol.
  have guards := run_guarded c cleanup ⟨k + 3, m⟩
  generalize guarded c cleanup _ = g at guards run
  obtain ⟨cleanup', k₁, m₁⟩ := g
  obtain ⟨_, _, ⟨rfl, rfl⟩, run⟩ := run
  dsimp only at run
  have guards' := run_guarded c fault ⟨k₁, m₁⟩
  generalize guarded c fault _ = g at guards' run
  obtain ⟨fault', k₂, m₂⟩ := g
  obtain ⟨_, _, ⟨rfl, rfl⟩, run⟩ := run
  simp only [foldRegion, runs_get, runs_modify, newLabel, newSymbolId, bind_run, pure_run,
    runs_lift, runs_bind, run_fold tests] at run
  obtain ⟨_, _, ⟨rfl, rfl⟩, _, _, ⟨_, _, ⟨rfl, rfl⟩, _, _, ⟨rfl, rfl⟩, rfl⟩, _, _, ⟨rfl, rfl⟩,
    _, _, ⟨rfl, rfl⟩, rfl, rfl⟩ := run
  dsimp only
  obtain rfl : m₁ = m := guards.symbol
  obtain rfl : m₂ = m₁ := guards'.symbol
  refine ⟨_, _, _, k₂, guards.guarded, guards'.guarded, .mk _ _ _ _ _ _, ?_⟩
  have nodes : k + 3 ≤ k₁ := guards.node_le
  have nodes' : k₁ ≤ k₂ := guards'.node_le
  have inner : k + 3 ≤ k₂ + 4 := Nat.le_trans nodes (Nat.le_trans nodes' (Nat.le_add_right k₂ 4))
  have below : r.supply.node ≤ k := h.node_le
  have opened : resumption = r.resumption.openRegion.grow X.table resumption.next := h.resumption
  have outer : resumption.closeRegion.2 = { r.resumption with next := resumption.next } := by
    rw [opened]
    rfl
  have points : 2 * resumption.next + r.supply.symbol ≤ 2 * r.resumption.next + m₂ := h.points
  have symbols : r.supply.symbol ≤ m₂ := h.symbol_le
  have marked : r.resumption.next < resumption.next := h.nonempty rfl
  rw [outer]
  have grown := Resumption.grow_next { r.resumption with next := resumption.next }
    [⟨X.table.flatMap Case.tests, ⟨k₂, .goto ⟨UInt64.ofNat m₂, "__enterTry"⟩⟩⟩] resumption.next
  -- One goal for each field of the books.
  constructor
  · exact Nat.le_trans (Nat.le_of_lt marked) (Nat.le_of_eq grown.symm)
  · exact Nat.le_succ_of_le symbols
  · exact Nat.le_trans below (Nat.le_trans (Nat.le_add_right k 3) inner)
  · rw [grown]
    obtain ⟨_, _, ⟨_, _, regions⟩, _⟩ := r
    cases regions <;> rfl
  · exact h.fields
  · exact h.scopes
  · exact nofun
  · exact fun _ ↦ Nat.lt_of_lt_of_le marked (Nat.le_of_eq grown.symm)
  · rw [grown]
    change X.table.flatMap Case.tests ++ [] = _
    rw [List.append_nil]
    exact h.tests
  · change (X.fields.map _ ++ X.results.map _ ++ (X.labels ++ [_]).map _).Perm
      ((span r.supply.symbol (m₂ + 1)).map _)
    rw [List.map_append, ← List.append_assoc, ← span_append symbols (Nat.le_succ _),
      List.map_append, span_succ]
    exact h.names.append_right _
  · rw [grown]
    change 2 * resumption.next + r.supply.symbol ≤ 2 * r.resumption.next + (m₂ + 1)
    omega
  · have before : ((Shape.region body clauses cleanup fault).children.flatMap Node.ids ++
        X.table.flatMap fun entry ↦ entry.body.ids).Perm (span r.supply.node k) := h.ids
    have cleanups := guards.ids
    have faults := guards'.ids
    rw [← span_append below (Nat.le_trans (Nat.le_add_right k 3) inner),
      ← span_append (Nat.le_add_right k 3) inner,
      ← span_append nodes (Nat.le_trans nodes' (Nat.le_add_right k₂ 4)),
      ← span_append nodes' (Nat.le_add_right k₂ 4)]
    rw [List.perm_iff_count] at before cleanups faults ⊢
    intro a
    have := before a
    have := cleanups a
    have := faults a
    have first := (perm_span k (show [2, 1, 0].Perm (List.range 3) by decide)).count_eq a
    have last := (perm_span k₂ (show [3, 1, 2, 0].Perm (List.range 4) by decide)).count_eq a
    simp only [List.count_append, List.count_cons, List.count_nil, Node.ids_mk, Shape.children,
      List.map_cons, List.map_nil, List.flatMap_append, List.cons_append, List.flatMap_cons,
      List.flatMap_nil, Added.ofRegion, List.nil_append, List.append_nil, Option.toList_none,
      List.flatMap_map, Nat.add_assoc, Nat.reduceAdd, Nat.add_zero] at *
    omega

open Expand Build in
/-- Books of a region, given those of its parts: it has an entry if something in it suspends, and
keeps its form otherwise. -/
theorem Adds.closing {c : Contract} {body : Node} {clauses : List (Clause Node)}
    {cleanup fault : Option Node} {hs : List Variable} {b : Bool} {X : Added}
    {r r₁ r' : Expansion} {e : Node}
    (h : Adds (Shape.region body clauses cleanup fault).children hs b X
      { r with resumption := r.resumption.openRegion } r₁)
    (run : runs (if r₁.resumption.closeRegion.1.isEmpty then
        Build.node (.region body clauses cleanup fault)
      else Expand.entered c r₁.resumption.closeRegion.1 body clauses cleanup fault : Expand Node)
      { r₁ with resumption := r₁.resumption.closeRegion.2 } e r') :
    (b = true ∧ X.table ≠ [] ∧ ∃ cleanup' fault' entry l,
      Option.Rel (IsGuarded c) cleanup cleanup' ∧ Option.Rel (IsGuarded c) fault fault' ∧
      IsEntered c entry X.table body clauses cleanup' fault' e ∧
      Adds [e] hs b (X.ofRegion entry ⟨l, .goto entry⟩) r r') ∨
    b = false ∧ X = {} ∧ (∃ i, e = ⟨i, .region body clauses cleanup fault⟩) ∧
      Adds [e] hs b X r r' := by
  rw [h.closeRegion] at run
  cases b with
  | true =>
    have nonempty : X.table ≠ [] := by
      intro empty
      have := h.tests_ne_nil
      rw [empty] at this
      exact this rfl
    rw [if_neg (by simpa using nonempty)] at run
    obtain ⟨cleanup', fault', entry, l, guarded, guarded', entered, books⟩ :=
      h.entered (by rwa [h.closeRegion])
    exact .inl ⟨rfl, nonempty, cleanup', fault', entry, l, guarded, guarded', entered, books⟩
  | false =>
    obtain rfl := h.empty rfl
    rw [show List.isEmpty ({} : Added).table = true from rfl, if_pos rfl, runs_node] at run
    obtain ⟨rfl, rfl⟩ := run
    have closed := h.closed.node
    rw [h.closeRegion] at closed
    exact .inr ⟨rfl, rfl, ⟨_, rfl⟩, closed⟩

/-! ### Symbols are taken one after the other -/

namespace Expand

open Build

/-- A computation that takes symbols, if any, and gives none back. -/
def Grows {α : Type} (x : Expand α) : Prop :=
  ∀ r a r', runs x r a r' → r.supply.symbol ≤ r'.supply.symbol

namespace Grows

variable {α β : Type}

theorem pure (a : α) : Grows (pure a : Expand α) := by
  intro r b r' h
  obtain ⟨-, rfl⟩ := runs_pure.1 h
  exact Nat.le_refl _

/-- Supplies grow step by step. -/
theorem bind {x : Expand α} {f : α → Expand β} (h : Grows x) (h' : ∀ a, Grows (f a)) :
    Grows (x >>= f) := by
  intro r b r' run
  obtain ⟨a, r₁, first, second⟩ := runs_bind.1 run
  exact Nat.le_trans (h r a r₁ first) (h' a r₁ b r' second)

/-- What is built without an expansion lets the supply grow. -/
theorem lift {b : Build α} (h : ∀ s, s.symbol ≤ (b s).2.symbol) : Grows (liftM b : Expand α) := by
  intro r a r' run
  rw [(runs_lift.1 run).2]
  exact h r.supply

/-- A change that leaves the supply alone lets it grow. -/
theorem modify {f : Expansion → Expansion} (h : ∀ r, (f r).supply = r.supply) :
    Grows (modify f : Expand Unit) := by
  intro r a r' run
  obtain rfl := runs_modify.1 run
  exact Nat.le_of_eq (congrArg Supply.symbol (h r).symm)

theorem node (sh : Shape Node) : Grows (liftM (Build.node sh) : Expand Node) :=
  lift fun _ ↦ Nat.le_refl _

theorem get : Grows (get : Expand Expansion) := by
  intro r a r' run
  obtain ⟨-, rfl⟩ := runs_get.1 run
  exact Nat.le_refl _

theorem exitBlock (declared : List Variable) (block : NodeId) :
    Grows (exitBlock declared block) := by
  intro r a r' run
  obtain ⟨_, -, rfl⟩ := runs_exitBlock.1 run
  exact Nat.le_refl _

/-- Folding the cases of a region lets the supply grow. -/
theorem foldRegion (closed : Table) (entry : Label) : Grows (foldRegion closed entry) := by
  refine get.bind fun r ↦ bind (lift fun s ↦ ?_) fun _ ↦ modify fun _ ↦ rfl
  rw [Resumption.fold]
  split <;> exact Nat.le_refl _

theorem guarded (c : Contract) (part : Option Node) :
    Grows (liftM (guarded c part) : Expand (Option Node)) :=
  lift fun s ↦ Nat.le_of_eq (run_guarded c part s).symbol.symm

/-- Rebuilding a region lets the supply grow. -/
theorem entered (c : Contract) (table : Table) (body : Node) (clauses : List (Clause Node))
    (cleanup fault : Option Node) : Grows (entered c table body clauses cleanup fault) := by
  refine (node _).bind fun _ ↦ (node _).bind fun _ ↦ (node _).bind fun _ ↦ ?_
  refine (guarded c _).bind fun _ ↦ (guarded c _).bind fun _ ↦ ?_
  refine (lift fun _ ↦ Nat.le_succ _).bind fun _ ↦ (foldRegion _ _).bind fun _ ↦ ?_
  exact (node _).bind fun _ ↦ (node _).bind fun _ ↦ node _

/-- Allocating a resume point lets the supply grow. -/
theorem allocate (c : Contract) : Grows (allocate c) := by
  refine get.bind fun r ↦ bind (lift fun s ↦ ?_) fun ⟨_, _⟩ ↦
    bind (modify fun _ ↦ rfl) fun _ ↦ pure _
  exact Nat.le_succ _

theorem newField (name : String) (ty : Ty) : Grows (newField name ty) :=
  bind (lift fun _ ↦ Nat.le_succ _) fun _ ↦ bind (modify fun _ ↦ rfl) fun _ ↦ pure _

/-- A suspend point lets the supply grow if its operand does. -/
theorem suspendPoint {c : Contract} {operand : Expand Node} (h : Grows operand)
    (acquire : Option String) (result : Ty) : Grows (suspendPoint c operand acquire result) := by
  rw [Expand.suspendPoint]
  refine bind (modify fun _ ↦ rfl) fun _ ↦ h.bind fun o ↦ ?_
  intro r e r' run
  simp only [runs_bind, runs_lift] at run
  obtain ⟨_, _, ⟨rfl, rfl⟩, awaiter, r₁, field, point, r₂, allocated, rfl, rfl⟩ := run
  have first := newField _ _ _ _ _ field
  have second := allocate c _ _ _ allocated
  obtain ⟨p, blocks⟩ := run_pointBlock c acquire o awaiter point result r.supply.node r₂.supply
  exact Nat.le_trans first (Nat.le_trans second blocks.symbol_le)

end Grows

end Expand

open Expand in
/-- The expansion takes symbols, and gives none back. -/
theorem Node.expand_grows (c : Contract) (n : Node) : Grows (n.expand c) := by
  induction n using Node.induction with
  | step n ih =>
    -- The supply grows at each child of a row, and so over the row.
    have row {xs : List (Node × Node × Unit)} {r r' : Expansion}
        (h : Threads (fun _ (r : Expansion) _ r' _ ↦ r.supply.symbol ≤ r'.supply.symbol) xs r r') :
        r.supply.symbol ≤ r'.supply.symbol :=
      (h.between (f := fun r : Expansion ↦ r.supply.symbol) fun le ↦ le).1
    obtain ⟨i, sh⟩ := n
    rw [expand_eq]
    have layer {sh : Shape Node} (ih : ∀ c' ∈ sh.children, Grows (c'.expand c)) :
        Grows (sh.mapM (expand c)) := by
      intro r sh' r' run
      obtain ⟨x, -, -, threads⟩ := Runs.shape
        (Q := fun _ (r : Expansion) _ r' (_ : Unit) ↦ r.supply.symbol ≤ r'.supply.symbol)
        (fun a child _ _ _ run ↦ ⟨(), ih a child _ _ _ run⟩) run
      exact row threads
    have plain (sh : Shape Node) (ih : ∀ c' ∈ sh.children, Grows (c'.expand c)) :
        Grows (do Build.node (← sh.mapM (expand c)) : Expand Node) :=
      (layer ih).bind fun _ ↦ .node _
    cases sh with
    | block declared ns =>
      refine .bind (.modify fun _ ↦ rfl) fun _ ↦ .bind ?_ fun _ ↦ .bind (.exitBlock _ _) fun _ ↦
        .node _
      intro r es r' run
      rw [List.mapM_map] at run
      obtain ⟨xs, -, -, threads⟩ := Runs.list
        (Q := fun _ (r : Expansion) _ r' (_ : Unit) ↦ r.supply.symbol ≤ r'.supply.symbol)
        (fun a child _ _ _ run ↦ ⟨(), ih a child _ _ _ run⟩) run
      exact row threads
    | await operand acquire result => exact .suspendPoint (ih operand List.mem_cons_self) _ _
    | region body clauses cleanup fault =>
      intro r e r' run
      obtain ⟨body', clauses', cleanup', fault', r₁, parts, closing⟩ := runs_region run
      have first : r.supply.symbol ≤ r₁.supply.symbol :=
        @layer (.region body clauses cleanup fault) ih
          { r with resumption := r.resumption.openRegion } _ r₁ parts
      refine Nat.le_trans first ?_
      split at closing
      · exact Grows.node _ { r₁ with resumption := r₁.resumption.closeRegion.2 } e r' closing
      · exact Grows.entered c _ body' clauses' cleanup' fault'
          { r₁ with resumption := r₁.resumption.closeRegion.2 } e r' closing
    | _ => exact plain _ ih

end Suspension
