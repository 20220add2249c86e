import Suspension.Proofs.Preparation.Edits

/-!
# Trees built around parts

The trees that take the place of a region are plain nodes around a few parts: the protected body,
filters, handler bodies. `Builds` says what such a tree takes over from its parts, and
`Builds.layer` that one more plain layer changes none of it. So a tree is followed from the leaves
up, with no need to look at it as a whole.
-/

namespace Suspension

/-- The children of a layer that handle exits. -/
def Shape.handlers {α : Type} : Shape α → List α
  | .region _ clauses cleanup fault =>
    clauses.flatMap Clause.children ++ cleanup.toList ++ fault.toList
  | _ => []

theorem Shape.handlers_map {α β : Type} (f : α → β) (sh : Shape α) :
    (sh.map f).handlers = sh.handlers.map f := by
  cases sh <;> simp [handlers, map, Clause.flatMap_children, Option.toList_map]

/-- Handlers are children. -/
theorem Shape.mem_handlers {α : Type} {sh : Shape α} {a : α} (h : a ∈ sh.handlers) :
    a ∈ sh.children := by
  cases sh with
  | region body clauses cleanup fault =>
    rw [handlers, List.append_assoc] at h
    rw [children, List.cons_append, List.cons_append, List.append_assoc]
    exact List.mem_cons_of_mem body h
  | _ => cases h

/-- What a tree has of its parts. Its own symbols are known; those among them that it uses and
does not declare are free. -/
structure Builds (known free declared : List SymbolId) (parts : List Node) (n : Node) : Prop where
  awaits : n.containsAwait = parts.any Node.containsAwait
  symbols : ∀ id ∈ n.symbols, id ∈ known ∨ id ∈ parts.flatMap Node.symbols
  calls : n.calls = parts.flatMap Node.calls
  names : ∀ id, n.declared.count id = declared.count id + (parts.flatMap Node.declared).count id
  hoistable : ∀ p ∈ parts, p.hoistable ⊆ n.hoistable
  scopes : ∀ {bound : SymbolId → Prop}, (∀ id ∈ free, bound id) →
    (∀ p ∈ parts, p.Scoped fun id ↦ id ∈ declared ∨ bound id) → n.Scoped bound
  ready : ∀ {keeps : SymbolId → Prop}, (∀ p ∈ parts, ∀ m ∈ p.walk, m.Ready keeps) →
    ∀ m ∈ n.walk, m.Ready keeps

namespace Builds

variable {known free : List SymbolId}

/-- A part on its own. -/
theorem part (known free : List SymbolId) (n : Node) : Builds known free [] [n] n where
  awaits := by simp
  symbols id inside := .inr (by simpa using inside)
  calls := by simp
  names id := by simp
  hoistable p member := by
    cases List.mem_singleton.1 member
    exact List.Subset.refl _
  scopes _ within := (within n List.mem_cons_self).mono fun id inside ↦
    inside.resolve_left List.not_mem_nil
  ready below := below n List.mem_cons_self

/-- More may be free. -/
theorem mono {free' declared : List SymbolId} {parts : List Node} {n : Node}
    (h : Builds known free declared parts n) (le : free ⊆ free') :
    Builds known free' declared parts n :=
  ⟨h.awaits, h.symbols, h.calls, h.names, h.hoistable, fun within ↦ h.scopes fun id inside ↦
    within id (le inside), h.ready⟩

/-- A child of a layer stands in one of its scopes. -/
theorem exists_scope {α : Type} {x : Shape α} {y : α} (child : y ∈ x.children) :
    ∃ vs, (vs, y) ∈ x.scopes := by
  rw [← x.map_snd_scopes] at child
  obtain ⟨⟨vs, _⟩, inside, rfl⟩ := List.mem_map.1 child
  exact ⟨vs, inside⟩

/-- A plain layer around trees that are built. -/
theorem layer {i : NodeId} (x : Shape (Node × List Node))
    (built : ∀ vs y, (vs, y) ∈ x.scopes → Builds known (vs.map Variable.id ++ free) [] y.2 y.1)
    (own : ∀ id ∈ x.ownSymbols, id ∈ known) (uses : ∀ v ∈ x.uses, v.id ∈ free)
    (operands : x.operands = []) (silent : x.ownCalls = []) (notAwait : x.kind ≠ .await)
    (notLock : x.kind ≠ .lock) (quiet : ∀ y ∈ x.handlers, y.2.any Node.containsAwait = false) :
    Builds known free (x.declared.map Variable.id) (x.children.flatMap Prod.snd)
      ⟨i, x.map Prod.fst⟩ := by
  -- What is bound in a child matters for the scopes alone.
  have below (y) (child : y ∈ x.children) : ∃ free, Builds known free [] y.2 y.1 := by
    obtain ⟨vs, scope⟩ := exists_scope child
    exact ⟨_, built vs y scope⟩
  refine ⟨?_, fun id inside ↦ ?_, ?_, fun id ↦ ?_, fun p member ↦ ?_, fun {outer} within parts ↦ ?_,
    fun {keeps} parts ↦ ?_⟩
  · have each := List.map_congr_left fun y member ↦ (below y member).choose_spec.awaits
    have all := congrArg (List.any · id) each
    simp only [List.any_map, Function.id_comp] at all
    simp only [Node.containsAwait_mk, Shape.kind_map, Kind.beq_eq_decide, notAwait, decide_false,
      Bool.false_or, Shape.children_map, List.any_map, List.any_flatMap]
    exact all
  · simp only [Node.symbols_mk, Shape.ownSymbols_map, Shape.children_map, List.mem_append,
      List.mem_flatMap, List.mem_map] at inside ⊢
    rcases inside with here | ⟨_, ⟨y, child, rfl⟩, inside⟩
    · exact .inl (own id here)
    · rcases (below y child).choose_spec.symbols id inside with old | new
      · exact .inl old
      · obtain ⟨p, member, found⟩ := List.mem_flatMap.1 new
        exact .inr ⟨p, ⟨y, child, member⟩, found⟩
  · rw [Node.calls_mk, Shape.ownCalls_map, silent, List.nil_append, Shape.children_map,
      List.flatMap_map, List.flatMap_assoc]
    exact List.flatMap_congr fun y child ↦ (below y child).choose_spec.calls
  · have each (ys : List (Node × List Node))
        (h : ∀ y ∈ ys, ∃ free, Builds known free [] y.2 y.1) :
        ((ys.map Prod.fst).flatMap Node.declared).count id =
          ((ys.flatMap Prod.snd).flatMap Node.declared).count id := by
      induction ys with
      | nil => rfl
      | cons y ys ih =>
        obtain ⟨_, head⟩ := h y List.mem_cons_self
        have head := head.names id
        have tail := ih fun z member ↦ h z (List.mem_cons_of_mem y member)
        simp only [List.map_cons, List.flatMap_cons, List.flatMap_append, List.count_append, tail,
          head, List.count_nil, Nat.zero_add]
    rw [Node.declared_mk, Shape.declared_map, Shape.children_map, List.count_append, each _ below]
  · obtain ⟨y, child, inside⟩ := List.mem_flatMap.1 member
    intro v found
    rw [Node.hoistable_mk, Shape.children_map]
    exact List.mem_append_left _ (List.mem_flatMap.2
      ⟨y.1, List.mem_map_of_mem child, (below y child).choose_spec.hoistable p inside found⟩)
  · rw [Node.scoped_mk, Shape.uses_map, Shape.scopes_map]
    refine ⟨fun v member ↦ within _ (uses v member), fun vs c member ↦ ?_⟩
    obtain ⟨⟨vs, y⟩, inside, eq⟩ := List.mem_map.1 member
    cases eq
    have child : y ∈ x.children := by
      rw [← x.map_snd_scopes]
      exact List.mem_map_of_mem (f := Prod.snd) inside
    have around : ∀ id, id ∈ x.declared.map Variable.id → id ∈ vs.map Variable.id := by
      intro id member
      -- Only a block declares, and it does so for all its children.
      cases x with
      | block declared statements =>
        obtain ⟨_, -, eq⟩ := List.mem_map.1 inside
        cases eq
        exact member
      | _ => cases member
    refine (built vs y inside).scopes (fun id member ↦ ?_) fun p member ↦ ?_
    · exact (List.mem_append.1 member).imp_right (within id)
    · refine (parts p (List.mem_flatMap.2 ⟨y, child, member⟩)).mono fun id inside ↦ .inr ?_
      exact inside.imp_left (around id)
  · rw [Node.forall_walk_mk, Shape.children_map]
    refine ⟨?_, List.forall_mem_map.2 fun y child ↦ (below y child).choose_spec.ready fun p member ↦
      parts p (List.mem_flatMap.2 ⟨y, child, member⟩)⟩
    have quiet' : ∀ m ∈ (x.map Prod.fst).handlers, m.containsAwait = false := by
      rw [Shape.handlers_map]
      exact List.forall_mem_map.2 fun y member ↦
        (below y (Shape.mem_handlers member)).choose_spec.awaits.trans (quiet y member)
    constructor
    · constructor
      · constructor
        · intro body clauses cleanup fault shape clause member filter found
          rw [Node.shape] at shape
          rw [shape] at quiet'
          refine quiet' filter ?_
          refine List.mem_append_left _ (List.mem_append_left _
            (List.mem_flatMap.2 ⟨clause, member, ?_⟩))
          exact List.mem_append_left _ (Option.mem_toList.2 found)
        · intro guard body shape
          have kind := congrArg Shape.kind shape
          rw [Node.shape, Shape.kind_map] at kind
          exact absurd kind notLock
      · intro before o after split
        rw [Node.shape, Shape.operands_map, operands] at split
        simp at split
    · intro body clauses cleanup fault shape
      rw [Node.shape] at shape
      rw [shape] at quiet'
      exact quiet'

/-! ### Layers that declare nothing -/

section Inner

variable {i : NodeId} {n n' : Node} {parts parts' : List Node}

/-- A plain layer that declares nothing. -/
theorem inner (x : Shape (Node × List Node))
    (below : ∀ y ∈ x.children, Builds known free [] y.2 y.1)
    (own : ∀ id ∈ x.ownSymbols, id ∈ known) (uses : ∀ v ∈ x.uses, v.id ∈ free)
    (undeclared : x.declared = []) (operands : x.operands = []) (silent : x.ownCalls = [])
    (notAwait : x.kind ≠ .await) (notLock : x.kind ≠ .lock)
    (quiet : ∀ y ∈ x.handlers, y.2.any Node.containsAwait = false) :
    Builds known free [] (x.children.flatMap Prod.snd) ⟨i, x.map Prod.fst⟩ := by
  have := @layer known free i x (fun vs y scope ↦ (below y ?_).mono (List.subset_append_right _ _))
    own uses operands silent notAwait notLock quiet
  · rwa [undeclared] at this
  · rw [← x.map_snd_scopes]
    exact List.mem_map_of_mem (f := Prod.snd) scope

theorem var {v : Variable} (own : v.id ∈ known) (bound : v.id ∈ free) :
    Builds known free [] [] ⟨i, .var v⟩ :=
  inner (.var v) nofun (by simpa [Shape.ownSymbols] using own) (by simpa [Shape.uses] using bound)
    rfl rfl rfl nofun nofun nofun

theorem const (value : Literal) : Builds known free [] [] ⟨i, .const value⟩ :=
  inner (.const value) nofun nofun nofun rfl rfl rfl nofun nofun nofun

theorem label {l : Label} (own : l.id ∈ known) : Builds known free [] [] ⟨i, .label l⟩ :=
  inner (.label l) nofun (by simpa [Shape.ownSymbols] using own) nofun rfl rfl rfl nofun nofun nofun

theorem goto {l : Label} (own : l.id ∈ known) : Builds known free [] [] ⟨i, .goto l⟩ :=
  inner (.goto l) nofun (by simpa [Shape.ownSymbols] using own) nofun rfl rfl rfl nofun nofun nofun

theorem assign {v : Variable} (own : v.id ∈ known) (bound : v.id ∈ free)
    (value : Builds known free [] parts n) : Builds known free [] parts ⟨i, .assign v n⟩ := by
  have below : ∀ y ∈ [(n, parts)], Builds known free [] y.2 y.1 := List.forall_mem_singleton.2 value
  have built := @inner known free i (.assign v (n, parts)) below
    (List.forall_mem_singleton.2 own) (List.forall_mem_singleton.2 bound) rfl rfl rfl nofun
    nofun nofun
  simpa only [Shape.children, Shape.map, List.flatMap_singleton] using built

theorem ret (value : Builds known free [] parts n) :
    Builds known free [] parts ⟨i, .ret (some n)⟩ := by
  have below : ∀ y ∈ [(n, parts)], Builds known free [] y.2 y.1 := List.forall_mem_singleton.2 value
  have built := @inner known free i (.ret (some (n, parts))) below nofun nofun rfl rfl rfl nofun
    nofun nofun
  simpa only [Shape.children, Shape.map, Option.map_some, Option.toList_some,
    List.flatMap_singleton] using built

theorem raise (value : Builds known free [] parts n) :
    Builds known free [] parts ⟨i, .raise (some n)⟩ := by
  have below : ∀ y ∈ [(n, parts)], Builds known free [] y.2 y.1 := List.forall_mem_singleton.2 value
  have built := @inner known free i (.raise (some (n, parts))) below nofun nofun rfl rfl rfl nofun
    nofun nofun
  simpa only [Shape.children, Shape.map, Option.map_some, Option.toList_some,
    List.flatMap_singleton] using built

theorem branch (test : Builds known free [] parts n) (yes : Builds known free [] parts' n') :
    Builds known free [] (parts ++ parts') ⟨i, .branch n n' none⟩ := by
  have below : ∀ y ∈ [(n, parts), (n', parts')], Builds known free [] y.2 y.1 :=
    List.forall_mem_cons.2 ⟨test, List.forall_mem_singleton.2 yes⟩
  have built := @inner known free i (.branch (n, parts) (n', parts') none) below nofun nofun rfl rfl
    rfl nofun nofun nofun
  simpa only [Shape.children, Shape.map, Option.map_none, Option.toList_none, List.flatMap_cons,
    List.flatMap_nil, List.append_nil] using built

/-- Trees in a row, each with the parts it is built around. -/
abbrev Row (known free : List SymbolId) : List Node → List (List Node) → Prop :=
  List.Forall₂ fun n parts ↦ Builds known free [] parts n

/-- Rows are built of children with their parts. -/
theorem Row.exists {ns : List Node} {pss : List (List Node)} (h : Row known free ns pss) :
    ∃ ys : List (Node × List Node), ys.map Prod.fst = ns ∧ ys.flatMap Prod.snd = pss.flatten ∧
      ∀ y ∈ ys, Builds known free [] y.2 y.1 := by
  induction h with
  | nil => exact ⟨[], rfl, rfl, nofun⟩
  | @cons n ps ns pss head tail ih =>
    obtain ⟨ys, rfl, eq, below⟩ := ih
    exact ⟨(n, ps) :: ys, rfl, by rw [List.flatMap_cons, eq, List.flatten_cons],
      List.forall_mem_cons.2 ⟨head, below⟩⟩

/-- A block without variables is built of its statements. -/
theorem block {ns : List Node} {pss : List (List Node)} (h : Row known free ns pss) :
    Builds known free [] pss.flatten ⟨i, .block [] ns⟩ := by
  obtain ⟨ys, rfl, eq, below⟩ := h.exists
  rw [← eq]
  exact inner (.block [] ys) below nofun nofun rfl rfl rfl nofun nofun nofun

/-- A block that declares the variables its statements use. -/
theorem declaring (declared : List Variable) {ns : List Node} {pss : List (List Node)}
    (h : Row known (declared.map Variable.id) ns pss)
    (own : ∀ id ∈ declared.map Variable.id, id ∈ known) :
    Builds known [] (declared.map Variable.id) pss.flatten ⟨i, .block declared ns⟩ := by
  obtain ⟨ys, rfl, eq, below⟩ := h.exists
  rw [← eq]
  refine layer (.block declared ys) (fun vs y scope ↦ ?_) own nofun rfl rfl nofun nofun nofun
  obtain ⟨_, member, eq⟩ := List.mem_map.1 scope
  cases eq
  rw [List.append_nil]
  exact below _ member

/-- A switch is built of its value and its cases. -/
theorem switch (cases : List (Case (Node × List Node))) (value : Builds known free [] parts n)
    (below : ∀ c ∈ cases, Builds known free [] c.body.2 c.body.1) :
    Builds known free [] (parts ++ cases.flatMap fun c ↦ c.body.2)
      ⟨i, .switch n (cases.map (Case.map Prod.fst)) none⟩ := by
  have below : ∀ y ∈ (n, parts) :: cases.map Case.body ++ [], Builds known free [] y.2 y.1 := by
    rw [List.append_nil]
    exact List.forall_mem_cons.2 ⟨value, List.forall_mem_map.2 below⟩
  have built := @inner known free i (.switch (n, parts) cases none) below nofun nofun rfl rfl rfl
    nofun nofun nofun
  simpa only [Shape.children, Shape.map, Option.map_none, Option.toList_none, List.flatMap_cons,
    List.append_nil, List.flatMap_map] using built

/-- A region with clauses is built of its body and its clauses. -/
theorem region (clauses : List (Clause (Node × List Node))) (body : Builds known free [] parts n)
    (binders : ∀ v ∈ clauses.filterMap Clause.binder, v.id ∈ known)
    (below : ∀ c ∈ clauses, ∀ y ∈ c.children,
      Builds known (c.binder.toList.map Variable.id ++ free) [] y.2 y.1)
    (quiet : ∀ y ∈ clauses.flatMap Clause.children, y.2.any Node.containsAwait = false) :
    Builds known free [] (parts ++ (clauses.flatMap Clause.children).flatMap Prod.snd)
      ⟨i, .region n (clauses.map (Clause.map Prod.fst)) none none⟩ := by
  have := @layer known free i (.region (n, parts) clauses none none)
  simp only [Shape.children, Option.toList_none, List.flatMap_cons, List.append_nil] at this
  refine this (fun vs y scope ↦ ?_) (List.forall_mem_map.2 binders) (List.forall_mem_nil _) rfl
    rfl (by rintro ⟨⟩) (by rintro ⟨⟩) ?_
  · simp only [Shape.scopes, Option.toList_none, List.append_nil, List.map_nil, List.mem_cons,
      List.mem_flatMap, List.mem_map, Prod.mk.injEq] at scope
    rcases scope with ⟨rfl, rfl⟩ | ⟨c, member, y, child, rfl, rfl⟩
    · exact body
    · exact below c member y child
  · simpa [Shape.handlers] using quiet

end Inner

end Builds

end Suspension
