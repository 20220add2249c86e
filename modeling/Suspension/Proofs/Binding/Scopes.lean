import Suspension.Proofs.Acceptance
import Suspension.Proofs.Layout

/-!
# Declarations and scopes

The expansion takes declarations out of blocks that suspend, for their variables are kept by the
driver, and declares the variables that hold outcomes in blocks of its own. No declaration is taken
and left at once (`Node.settle_declared`), and each variable is used where it is declared, or kept
(`Node.settle_scoped`, `Twin.inScope`). So of a lowered body it can be said by name where every
variable in it has its slot.
-/

namespace Suspension

namespace Node

variable {bound : SymbolId → Prop}

/-- The variables of blocks and clauses are symbols. -/
theorem names_symbols (n : Node) : n.names true ⊆ n.symbols := by
  intro id inside
  rcases List.mem_append.1 inside with declared | binder
  · obtain ⟨m, within, own⟩ := List.mem_flatMap.1 declared
    refine List.mem_flatMap.2 ⟨m, within, ?_⟩
    obtain ⟨i, sh⟩ := m
    cases sh <;> first | exact own | cases own
  · obtain ⟨m, within, own⟩ := List.mem_flatMap.1 binder
    refine List.mem_flatMap.2 ⟨m, within, ?_⟩
    obtain ⟨i, sh⟩ := m
    cases sh <;> first | exact own | cases own

/-- A tree is in scope if the children of its layer are, each where it stands. -/
theorem scoped_iff {i : NodeId} {sh : Shape Node} : Scoped bound ⟨i, sh⟩ ↔
    (∀ v ∈ sh.uses, bound v.id) ∧
      ∀ x ∈ sh.scopes, x.2.Scoped fun id ↦ id ∈ x.1.map Variable.id ∨ bound id := by
  rw [scoped_mk, Prod.forall]

/-- A tree is in scope where nothing more is bound. -/
theorem Scoped.inside {n : Node} (h : n.Scoped bound) :
    n.Scoped fun id ↦ id ∈ ([] : List Variable).map Variable.id ∨ bound id :=
  h.mono fun _ ↦ .inr

theorem scoped_block {i : NodeId} {ns : List Node} (h : ∀ n ∈ ns, n.Scoped bound) :
    Scoped bound ⟨i, .block [] ns⟩ := by
  refine scoped_mk.2 ⟨List.forall_mem_nil _, fun vs c member ↦ ?_⟩
  obtain ⟨n, inside, same⟩ := List.mem_map.1 member
  cases same
  exact (h c inside).inside

theorem scoped_var {i : NodeId} {v : Variable} (h : bound v.id) : Scoped bound ⟨i, .var v⟩ :=
  scoped_mk.2 ⟨List.forall_mem_singleton.2 h, nofun⟩

theorem scoped_const {i : NodeId} {value : Literal} : Scoped bound ⟨i, .const value⟩ :=
  scoped_mk.2 ⟨nofun, nofun⟩

theorem scoped_assign {i : NodeId} {v : Variable} {n : Node} (h : bound v.id)
    (value : n.Scoped bound) : Scoped bound ⟨i, .assign v n⟩ := by
  refine scoped_mk.2 ⟨List.forall_mem_singleton.2 h, fun vs c member ↦ ?_⟩
  cases List.mem_singleton.1 member
  exact value.inside

/-- A layer that binds nothing and uses no variable. -/
theorem scoped_plain {i : NodeId} {sh : Shape Node} (uses : sh.uses = [])
    (scopes : sh.scopes = sh.children.map fun a ↦ ([], a)) (h : ∀ n ∈ sh.children, n.Scoped bound) :
    Scoped bound ⟨i, sh⟩ := by
  refine scoped_mk.2 ⟨by simp [uses], fun vs c member ↦ ?_⟩
  rw [scopes] at member
  obtain ⟨n, inside, same⟩ := List.mem_map.1 member
  cases same
  exact (h c inside).inside

/-- The body and the last parts of a region are in the scope around it, and what belongs to a clause
is in that of the clause. -/
theorem scoped_region {i : NodeId} {body : Node} {clauses : List (Clause Node)}
    {cleanup fault : Option Node} : Scoped bound ⟨i, .region body clauses cleanup fault⟩ ↔
      body.Scoped bound ∧ (∀ c ∈ clauses, ∀ part ∈ c.children,
        part.Scoped fun id ↦ id ∈ c.binder.toList.map Variable.id ∨ bound id) ∧
      ∀ part ∈ cleanup.toList ++ fault.toList, part.Scoped bound := by
  rw [scoped_mk, Shape.scopes]
  constructor
  · rintro ⟨-, below⟩
    have plain {n : Node} (scope : ([], n) ∈ _) : n.Scoped bound := (below [] n scope).mono
      fun _ known ↦ known.resolve_left List.not_mem_nil
    refine ⟨plain List.mem_cons_self, fun c member part child ↦ below _ part ?_,
      fun part member ↦ plain (List.mem_append_right _ (List.mem_map_of_mem member))⟩
    exact List.mem_append_left _ (List.mem_cons_of_mem _
      (List.mem_flatMap.2 ⟨c, member, List.mem_map_of_mem child⟩))
  · rintro ⟨inside, handlers, parts⟩
    refine ⟨List.forall_mem_nil _, fun vs n member ↦ ?_⟩
    rcases List.mem_append.1 member with front | last
    · rcases List.mem_cons.1 front with same | handler
      · cases same
        exact inside.inside
      · obtain ⟨c, among, scope⟩ := List.mem_flatMap.1 handler
        obtain ⟨part, child, same⟩ := List.mem_map.1 scope
        cases same
        exact handlers c among n child
    · obtain ⟨part, among, same⟩ := List.mem_map.1 last
      cases same
      exact (parts n among).inside

/-! ### Settled trees -/

theorem count_flatMap_add {f g h : Node → List SymbolId} {ns : List Node} {id : SymbolId}
    (each : ∀ n ∈ ns, (f n).count id + (g n).count id = (h n).count id) :
    (ns.flatMap f).count id + (ns.flatMap g).count id = (ns.flatMap h).count id := by
  induction ns with
  | nil => rfl
  | cons n ns ih =>
    obtain ⟨head, tail⟩ := List.forall_mem_cons.1 each
    have := ih tail
    simp only [List.flatMap_cons, List.count_append]
    omega

/-- Every declaration is either left in its block or taken out of it. -/
theorem settle_declared (n : Node) (id : SymbolId) :
    n.settle.declared.count id + (n.hoistable.map Variable.id).count id = n.declared.count id := by
  induction n using Node.induction with
  | step n ih =>
    obtain ⟨i, sh⟩ := n
    have children := count_flatMap_add (f := fun c ↦ c.settle.declared)
      (g := fun c ↦ c.hoistable.map Variable.id) (h := declared) ih
    dsimp only [Node.children, Node.shape] at children
    rw [← List.map_flatMap] at children
    have below : ((sh.map settle).children.flatMap declared).count id +
        ((sh.children.flatMap hoistable).map Variable.id).count id =
        (sh.children.flatMap declared).count id := by
      rw [Shape.children_map, List.flatMap_map]
      exact children
    rw [declared_mk, hoistable_mk, settle_eq]
    dsimp only [Node.shape, Node.id]
    -- Only a block that suspends gives up what it declares, and it hoists that instead.
    cases sh with
    | block declared ns =>
      by_cases awaits : containsAwait ⟨i, .block declared ns⟩ = true
      · simp only [Shape.map, if_pos awaits, declared_mk, Shape.declared, List.map_append,
          List.count_append, List.map_nil, List.count_nil] at below ⊢
        simp only [Shape.children] at below ⊢
        omega
      · simp only [Shape.map, if_neg awaits, declared_mk, Shape.declared, List.map_append,
          List.count_append, List.map_nil, List.count_nil] at below ⊢
        simp only [Shape.children] at below ⊢
        omega
    | await operand acquire result =>
      simp only [Shape.map, Shape.children, List.flatMap_singleton, Shape.declared, ite_self,
        List.append_nil, List.map_nil, List.nil_append] at below ⊢
      split <;> simpa [declared_mk, Shape.children, Shape.declared] using below
    | region body clauses cleanup fault =>
      simp only [Shape.declared, ite_self, List.append_nil, List.map_nil, List.nil_append]
        at below ⊢
      rw [← below]
      simp only [Shape.map]
      split <;> simp [declared_mk, Shape.children, Shape.declared]
    | _ =>
      simp only [Shape.declared, ite_self, List.append_nil, List.map_nil, List.nil_append]
        at below ⊢
      rw [← below]
      simp only [Shape.map, declared_mk, Shape.declared, List.map_nil, List.nil_append]

/-- In a settled tree, variables are used where they are declared, unless they were taken out. -/
theorem settle_scoped {n : Node} (h : n.Scoped bound) :
    n.settle.Scoped fun id ↦ id ∈ n.hoistable.map Variable.id ∨ bound id := by
  induction n using Node.induction generalizing bound with
  | step n ih =>
    obtain ⟨i, sh⟩ := n
    obtain ⟨uses, below⟩ := scoped_mk.1 h
    -- What is bound around a child is bound around it in the settled tree, or taken out.
    have child {vs : List Variable} {c : Node} (scope : (vs, c) ∈ sh.scopes) :
        c.settle.Scoped fun id ↦ id ∈ vs.map Variable.id ∨
          (id ∈ (hoistable ⟨i, sh⟩).map Variable.id ∨ bound id) := by
      have inside : c ∈ sh.children := by
        rw [← sh.map_snd_scopes]
        exact List.mem_map_of_mem (f := Prod.snd) scope
      refine (ih c inside (below vs c scope)).mono fun id known ↦ ?_
      rcases known with taken | own | around
      · refine .inr (.inl ?_)
        rw [hoistable_mk]
        refine List.map_subset _ (fun v found ↦ List.mem_append_left _ ?_) taken
        exact List.mem_flatMap.2 ⟨c, inside, found⟩
      · exact .inl own
      · exact .inr (.inr around)
    have layer {j : NodeId} : Scoped (fun id ↦ id ∈ (hoistable ⟨i, sh⟩).map Variable.id ∨ bound id)
        ⟨j, sh.map settle⟩ := by
      refine scoped_mk.2 ⟨fun v use ↦ ?_, fun vs c member ↦ ?_⟩
      · rw [Shape.uses_map] at use
        exact .inr (uses v use)
      · rw [Shape.scopes_map] at member
        obtain ⟨⟨vs, c⟩, scope, same⟩ := List.mem_map.1 member
        cases same
        exact child scope
    rw [settle_eq]
    dsimp only [Node.shape, Node.id]
    cases sh with
    | block declared ns =>
      simp only [Shape.map]
      split
      · rename_i awaits
        refine scoped_block (List.forall_mem_map.2 fun c member ↦ ?_)
        refine (child (List.mem_map_of_mem (f := fun a ↦ (declared, a)) member)).mono
          fun id known ↦ known.elim (fun own ↦ .inl ?_) fun more ↦ more
        rw [hoistable_mk, if_pos awaits, List.map_append]
        exact List.mem_append_right _ own
      · exact layer
    | await operand acquire result =>
      have operand := child (List.mem_singleton.2 rfl)
      have operand := operand.mono fun id known ↦ known.resolve_left List.not_mem_nil
      have waits {j k : NodeId} : Scoped (fun id ↦
          id ∈ (hoistable ⟨i, .await _ acquire result⟩).map Variable.id ∨ bound id)
          ⟨j, .await ⟨k, .block [] [_]⟩ acquire result⟩ :=
        scoped_plain rfl rfl (List.forall_mem_singleton.2
          (scoped_block (List.forall_mem_singleton.2 operand)))
      simp only [Shape.map]
      split
      · refine scoped_block (List.forall_mem_cons.2 ⟨waits, List.forall_mem_singleton.2 ?_⟩)
        exact scoped_plain rfl rfl (List.forall_mem_nil _)
      · exact waits
    | region body clauses cleanup fault =>
      simp only [Shape.map]
      split
      · obtain ⟨inside, rest⟩ := scoped_region.1 (layer (j := i))
        refine scoped_block (List.forall_mem_singleton.2 (scoped_region.2 ⟨?_, rest⟩))
        exact scoped_block (List.forall_mem_singleton.2 inside)
      · exact layer
    | _ => exact layer

end Node

/-! ### Expansions -/

section Pieces

variable {bound : SymbolId → Prop} {c : Contract} {n : Node}

/-- Both copies of the state are bound. -/
def Contract.Bound (c : Contract) (bound : SymbolId → Prop) : Prop :=
  bound c.state.id ∧ bound c.localState.id

theorem IsUpdate.inScope {value : Int64} (h : IsUpdate c value n) (state : c.Bound bound) :
    n.Scoped bound := by
  cases h
  exact Node.scoped_assign state.2 (Node.scoped_assign state.1 Node.scoped_const)

theorem IsReturn.inScope {label : Label} (h : IsReturn c label n) (state : c.Bound bound) :
    n.Scoped bound := by
  cases h with
  | mk i j update =>
    exact Node.scoped_block (List.forall_mem_cons.2 ⟨update.inScope state,
      List.forall_mem_singleton.2 (Node.scoped_plain rfl rfl (List.forall_mem_nil _))⟩)

theorem Leads.inScope {i j : Int64} {label : Label} (h : Leads c i n label j)
    (state : c.Bound bound) : n.Scoped bound := by
  cases h with
  | back isReturn => exact isReturn.inScope state
  | into => exact Node.scoped_plain rfl rfl (List.forall_mem_nil _)

theorem IsSuspension.inScope {p : Point} (h : IsSuspension c p n) (state : c.Bound bound)
    (awaiter : bound p.awaiter.id) : n.Scoped bound := by
  cases h with
  | mk i j k l update =>
    refine Node.scoped_block (List.forall_mem_cons.2 ⟨update.inScope state,
      List.forall_mem_cons.2 ⟨?_, List.forall_mem_singleton.2 ?_⟩⟩)
    · exact Node.scoped_plain rfl rfl (List.forall_mem_singleton.2 (Node.scoped_var awaiter))
    · exact Node.scoped_plain rfl rfl (List.forall_mem_nil _)

theorem IsOutcome.inScope {p : Point} (h : IsOutcome p n) (awaiter : bound p.awaiter.id)
    (result : ∀ v ∈ p.result, bound v.id) : n.Scoped bound := by
  have outcome {j k : NodeId} : Node.Scoped bound ⟨j, .awaiter .getResult ⟨k, .var p.awaiter⟩⟩ :=
    Node.scoped_plain rfl rfl (List.forall_mem_singleton.2 (Node.scoped_var awaiter))
  cases h with
  | kept i j k kept => exact Node.scoped_assign (result _ kept) outcome
  | dropped => exact outcome

theorem Point.value_scoped {p : Point} {i : NodeId} (result : ∀ v ∈ p.result, bound v.id) :
    Node.Scoped bound ⟨i, p.valueShape⟩ := by
  rw [valueShape]
  cases h : p.result with
  | none => exact Node.scoped_plain rfl rfl (List.forall_mem_nil _)
  | some v => exact Node.scoped_var (result v h)

/-- A suspend point declares the variable that holds its outcome. -/
theorem IsPoint.inScope {acquire : Option String} {p : Point} {o : Node}
    (h : IsPoint c acquire p o n) (state : c.Bound bound) (awaiter : bound p.awaiter.id)
    (operand : o.Scoped bound) : n.Scoped bound := by
  cases h with
  | mk i i₁ i₂ i₃ i₄ i₅ i₆ i₇ i₈ i₉ i₁₀ suspension outcomes update =>
    refine Node.scoped_mk.2 ⟨List.forall_mem_nil _, fun vs m member ↦ ?_⟩
    obtain ⟨k, inside, same⟩ := List.mem_map.1 member
    cases same
    let around (id : SymbolId) : Prop := id ∈ p.result.toList.map Variable.id ∨ bound id
    have state : c.Bound around := ⟨.inr state.1, .inr state.2⟩
    have awaiter : around p.awaiter.id := .inr awaiter
    have result : ∀ v ∈ p.result, around v.id := fun v some ↦
      .inl (List.mem_map_of_mem (Option.mem_toList.2 some))
    have operand : o.Scoped around := operand.mono fun _ ↦ .inr
    have acquired : Node.Scoped around ⟨i₂, Expand.acquireShape acquire o⟩ := by
      cases acquire <;>
        exact Node.scoped_plain rfl rfl (List.forall_mem_singleton.2 operand)
    have completed : Node.Scoped around ⟨i₄, .unary .not ⟨i₅, .awaiter .isCompleted
        ⟨i₆, .var p.awaiter⟩⟩⟩ :=
      Node.scoped_plain rfl rfl (List.forall_mem_singleton.2 (Node.scoped_plain rfl rfl
        (List.forall_mem_singleton.2 (Node.scoped_var awaiter))))
    simp only [List.mem_cons, List.not_mem_nil, or_false] at inside
    rcases inside with rfl | rfl | rfl | rfl | rfl | rfl | rfl
    · exact Node.scoped_assign awaiter acquired
    · exact Node.scoped_plain rfl rfl (List.forall_mem_cons.2 ⟨completed,
        List.forall_mem_singleton.2 (suspension.inScope state awaiter)⟩)
    · exact Node.scoped_plain rfl rfl (List.forall_mem_nil _)
    · exact outcomes.inScope awaiter result
    · exact Node.scoped_assign awaiter (Node.scoped_plain rfl rfl (List.forall_mem_nil _))
    · exact update.inScope state
    · exact Point.value_scoped result

theorem IsGuarded.inScope {part : Node} (h : IsGuarded c part n) (state : c.Bound bound)
    (within : part.Scoped bound) : n.Scoped bound := by
  cases h with
  | mk i j k l =>
    have test : Node.Scoped bound ⟨j, .binary .lt ⟨k, .var c.localState⟩ ⟨l, .const (.int 0)⟩⟩ :=
      Node.scoped_plain rfl rfl (List.forall_mem_cons.2 ⟨Node.scoped_var state.2,
        List.forall_mem_singleton.2 Node.scoped_const⟩)
    exact Node.scoped_plain rfl rfl (List.forall_mem_cons.2 ⟨test,
      List.forall_mem_singleton.2 within⟩)

/-- A region that is entered through a dispatch. -/
theorem IsEntered.inScope {entry : Label} {table : Table} {body : Node}
    {clauses : List (Clause Node)} {cleanup fault : Option Node}
    (h : IsEntered c entry table body clauses cleanup fault n) (state : c.Bound bound)
    (cases : ∀ case ∈ table, case.body.Scoped bound) (inside : body.Scoped bound)
    (handlers : ∀ c ∈ clauses, ∀ part ∈ c.children,
      part.Scoped fun id ↦ id ∈ c.binder.toList.map Variable.id ∨ bound id)
    (parts : ∀ part ∈ cleanup.toList ++ fault.toList, part.Scoped bound) : n.Scoped bound := by
  cases h with
  | mk i i₁ i₂ i₃ i₄ i₅ =>
    have dispatch : Node.Scoped bound ⟨i₄, .switch ⟨i₅, .var c.localState⟩ table none⟩ := by
      refine Node.scoped_plain rfl rfl ?_
      simp only [Shape.children, Option.toList_none, List.append_nil]
      exact List.forall_mem_cons.2 ⟨Node.scoped_var state.2, List.forall_mem_map.2 cases⟩
    refine Node.scoped_block
      (List.forall_mem_cons.2 ⟨Node.scoped_plain rfl rfl (List.forall_mem_nil _),
      List.forall_mem_singleton.2 (Node.scoped_region.2 ⟨?_, handlers, parts⟩)⟩)
    exact Node.scoped_block (List.forall_mem_cons.2 ⟨dispatch,
      List.forall_mem_singleton.2 inside⟩)

/-- Parts that run only on some ways out are in scope if the parts they stand for are. -/
theorem guarded_inScope {part part' : Option Node} (h : Option.Rel (IsGuarded c) part part')
    (state : c.Bound bound) (within : ∀ n ∈ part.toList, n.Scoped bound) :
    ∀ n ∈ part'.toList, n.Scoped bound := by
  cases h with
  | none => exact List.forall_mem_nil _
  | some guarded =>
    exact List.forall_mem_singleton.2 (guarded.inScope state (within _ List.mem_cons_self))

/-- What a suspend point declares beside its operand. -/
theorem IsPoint.declared {acquire : Option String} {p : Point} {o : Node}
    (h : IsPoint c acquire p o n) :
    n.declared = p.result.toList.map Variable.id ++ o.declared := by
  cases h with
  | mk _ _ i _ _ _ _ _ _ _ j suspension outcomes update =>
    have acquired : Node.declared ⟨i, Expand.acquireShape acquire o⟩ = o.declared := by
      cases acquire <;> simp [Node.declared_mk, Expand.acquireShape, Shape.children,
        Shape.declared]
    have value : Node.declared ⟨j, p.valueShape⟩ = [] := by
      rw [Point.valueShape]
      cases p.result <;> rfl
    generalize (⟨i, Expand.acquireShape acquire o⟩ : Node) = a at acquired
    generalize (⟨j, p.valueShape⟩ : Node) = v at value
    cases update
    cases suspension with
    | mk _ _ _ _ wait =>
      cases wait
      cases outcomes <;>
        simp [Node.declared_mk, Shape.children, Shape.declared, acquired, value]

theorem IsGuarded.declared {part : Node} (h : IsGuarded c part n) :
    n.declared = part.declared := by
  cases h
  simp [Node.declared_mk, Shape.children, Shape.declared]

theorem guarded_declared {part part' : Option Node} (h : Option.Rel (IsGuarded c) part part') :
    part'.toList.flatMap Node.declared = part.toList.flatMap Node.declared := by
  cases h with
  | none => rfl
  | some guarded => simp [guarded.declared]

theorem Leads.declared {i j : Int64} {label : Label} (h : Leads c i n label j) :
    n.declared = [] := by
  cases h with
  | back isReturn =>
    cases isReturn with
    | mk i j update =>
      cases update
      rfl
  | into => rfl

end Pieces

section Expansions

variable {keeps : SymbolId → Prop} {c : Contract} {p e : Node} {X : Added}

/-- The cases of a table declare nothing. -/
theorem Twin.table_declared (h : Twin keeps c p e X) :
    (X.table.map Case.body).flatMap Node.declared = [] := by
  refine List.flatMap_eq_nil_iff.2 (List.forall_mem_map.2 fun case member ↦ ?_)
  obtain ⟨_, _, _, leads⟩ := h.leads 0 member
  exact leads.declared

/-- Declarations of several expansions. -/
theorem count_declared {ys : List (Node × Node × Added)} {id : SymbolId}
    (h : ∀ y ∈ ys, y.2.1.declared.count id =
      y.1.declared.count id + (y.2.2.results.map Variable.id).count id) :
    ((ys.map (·.2.1)).flatMap Node.declared).count id =
      ((ys.map Prod.fst).flatMap Node.declared).count id +
        ((Added.join (ys.map (·.2.2))).results.map Variable.id).count id := by
  induction ys with
  | nil => rfl
  | cons y ys ih =>
    have head := h y List.mem_cons_self
    have tail := ih fun z member ↦ h z (List.mem_cons_of_mem y member)
    simp only [List.map_cons, List.flatMap_cons, List.count_append, Added.join_cons,
      Added.append_results, List.map_append]
    omega

/-- An expansion declares what the settled tree declares, and the variables that hold outcomes. -/
theorem Twin.declared (h : Twin keeps c p e X) (id : SymbolId) :
    e.declared.count id = p.declared.count id + (X.results.map Variable.id).count id := by
  induction h with
  | same x below kind closed undeclared kept ih =>
    have children := count_declared ih
    simp only [Node.declared_mk, Shape.declared_map, Shape.children_map, List.count_append]
    omega
  | point operand isPoint isReturn interest ih =>
    rw [isPoint.declared]
    simp [Node.declared_mk, Shape.children, Shape.declared, ih, Added.ofPoint]
    omega
  | unitPoint operand isPoint isReturn interest ih =>
    rw [isPoint.declared]
    simp [Node.declared_mk, Shape.children, Shape.declared, ih, Added.ofPoint]
    omega
  | @region i j k l body' body e X entry cs cleanup fault cleanup' fault' bodies suspends clauses
      parts guarded guarded' entered ih ihs ihs' =>
    cases entered with
    | mk i₀ i₁ i₂ i₃ i₄ i₅ =>
      -- What comes in is what the body adds; handlers and parts add no declarations.
      let rest := cs.flatMap Clause.children ++ (cleanup.toList ++ fault.toList)
      have others : ((rest.map Prod.snd).flatMap Node.declared).count id =
          ((rest.map Prod.fst).flatMap Node.declared).count id := by
        have each : ∀ y ∈ rest, y.2.declared.count id = y.1.declared.count id := fun y member ↦
          (List.mem_append.1 member).elim (ihs y) (ihs' y)
        rw [List.flatMap_map, List.flatMap_map, List.count_flatMap, List.count_flatMap]
        exact congrArg List.sum (List.map_congr_left each)
      have source : Node.declared ⟨i, .block [] [⟨j, .region ⟨k, .block [] [body']⟩
          (cs.map (Clause.map Prod.fst)) (cleanup.map Prod.fst) (fault.map Prod.fst)⟩]⟩ =
          body'.declared ++ (rest.map Prod.fst).flatMap Node.declared := by
        simp [rest, Node.declared_mk, Shape.children, Shape.declared, Clause.flatMap_children,
          Option.toList_map]
      have made : Node.declared ⟨i₀, .block [] [⟨i₁, .label entry⟩, ⟨i₂, .region ⟨i₃, .block []
          [⟨i₄, .switch ⟨i₅, .var c.localState⟩ X.table none⟩, body]⟩
          (cs.map (Clause.map Prod.snd)) cleanup' fault'⟩]⟩ =
          (X.table.map Case.body).flatMap Node.declared ++
            (body.declared ++ (rest.map Prod.snd).flatMap Node.declared) := by
        simp [rest, Node.declared_mk, Shape.children, Shape.declared, Clause.flatMap_children,
          Option.toList_map, guarded_declared guarded, guarded_declared guarded']
      rw [source, made, bodies.table_declared, List.nil_append, List.count_append,
        List.count_append, others, ih]
      simp only [Added.ofRegion]
      omega

/-- An expansion uses variables where the settled tree does, and beside them only the state and the
variables that hold awaiters. -/
theorem Twin.inScope (h : Twin keeps c p e X) {bound : SymbolId → Prop} (within : p.Scoped bound)
    (state : c.Bound bound) (fields : ∀ v ∈ X.fields, bound v.id) : e.Scoped bound := by
  -- Around and in a block that declares nothing the same is bound.
  have block {bound : SymbolId → Prop} {i : NodeId} {ns : List Node}
      (within : Node.Scoped bound ⟨i, .block [] ns⟩) {n : Node} (member : n ∈ ns) :
      n.Scoped bound :=
    ((Node.scoped_mk.1 within).2 [] n (List.mem_map_of_mem member)).mono fun _ known ↦
      known.resolve_left List.not_mem_nil
  induction h generalizing bound with
  | same x below kind closed undeclared kept ih =>
    rw [Node.scoped_mk, Shape.uses_map, Shape.scopes_map] at within ⊢
    refine ⟨within.1, fun vs m member ↦ ?_⟩
    obtain ⟨⟨vs, y⟩, inside, same⟩ := List.mem_map.1 member
    cases same
    have child : y ∈ x.children := by
      rw [← x.map_snd_scopes]
      exact List.mem_map_of_mem (f := Prod.snd) inside
    refine ih y child (within.2 vs y.1 (List.mem_map_of_mem (f := fun (vs, a) ↦ (vs, a.1)) inside))
      ⟨.inr state.1, .inr state.2⟩ fun v field ↦ .inr (fields v ?_)
    exact List.mem_flatMap.2 ⟨y.2.2, List.mem_map_of_mem child, field⟩
  | point operand isPoint isReturn interest ih =>
    have inner := (Node.scoped_mk.1 within).2 [] _ (List.mem_singleton.2 rfl)
    have within := (block inner List.mem_cons_self).mono fun _ known ↦
      known.resolve_left List.not_mem_nil
    refine isPoint.inScope state (fields _ (List.mem_append_right _ List.mem_cons_self)) ?_
    exact ih within state fun v field ↦ fields v (List.mem_append_left _ field)
  | unitPoint operand isPoint isReturn interest ih =>
    have inner := (Node.scoped_mk.1 (block within List.mem_cons_self)).2 [] _
      (List.mem_singleton.2 rfl)
    have within := (block inner List.mem_cons_self).mono fun _ known ↦
      known.resolve_left List.not_mem_nil
    refine isPoint.inScope state (fields _ (List.mem_append_right _ List.mem_cons_self)) ?_
    exact ih within state fun v field ↦ fields v (List.mem_append_left _ field)
  | @region i j k l body' body e X entry cs cleanup fault cleanup' fault' bodies suspends clauses
      parts guarded guarded' entered ih ihs ihs' =>
    obtain ⟨inside, handlers, last⟩ := Node.scoped_region.1 (block within List.mem_cons_self)
    have copies : ∀ y ∈ cleanup.toList ++ fault.toList, y.2.Scoped bound := by
      rw [Option.toList_map, Option.toList_map, ← List.map_append, List.forall_mem_map] at last
      exact fun y member ↦ ihs' y member (last y member) state (List.forall_mem_nil _)
    refine entered.inScope state (fun case member ↦ ?_)
      (ih (block inside List.mem_cons_self) state fields)
      (List.forall_mem_map.2 fun clause member ↦ ?_) (List.forall_mem_append.2 ⟨?_, ?_⟩)
    · obtain ⟨_, _, _, leads⟩ := bodies.leads 0 member
      exact leads.inScope state
    · have children (f : Node × Node → Node) : (clause.map f).children =
          clause.children.map f := by
        simpa using Clause.flatMap_children f [clause]
      have handlers := handlers (clause.map Prod.fst) (List.mem_map_of_mem member)
      rw [children, List.forall_mem_map] at handlers ⊢
      intro y child
      exact ihs y (List.mem_flatMap.2 ⟨clause, member, child⟩) (handlers y child)
        ⟨.inr state.1, .inr state.2⟩ (List.forall_mem_nil _)
    · refine guarded_inScope guarded state ?_
      rw [Option.toList_map, List.forall_mem_map]
      exact fun y member ↦ copies y (List.mem_append_left _ member)
    · refine guarded_inScope guarded' state ?_
      rw [Option.toList_map, List.forall_mem_map]
      exact fun y member ↦ copies y (List.mem_append_right _ member)

end Expansions

/-! ### Lowered bodies -/

theorem IsAssembled.declared {c : Contract} {body root : Node} {table : Table}
    (h : IsAssembled c body table root)
    (none : (table.map Case.body).flatMap Node.declared = []) :
    root.declared = c.localState.id :: body.declared := by
  cases h
  simp [Node.declared_mk, Shape.children, Shape.declared, none]

theorem IsAssembled.inScope {c : Contract} {body root : Node} {table : Table}
    {bound : SymbolId → Prop} (h : IsAssembled c body table root) (state : bound c.state.id)
    (cases : ∀ case ∈ table, case.body.Scoped fun id ↦ id = c.localState.id ∨ bound id)
    (inside : body.Scoped fun id ↦ id = c.localState.id ∨ bound id) : root.Scoped bound := by
  cases h with
  | mk i i₁ i₂ i₃ i₄ i₅ i₆ i₇ =>
    refine Node.scoped_mk.2 ⟨List.forall_mem_nil _, fun vs n member ↦ ?_⟩
    obtain ⟨m, among, same⟩ := List.mem_map.1 member
    cases same
    have own : ∀ id, id = c.localState.id ∨ bound id →
        id ∈ [c.localState].map Variable.id ∨ bound id := fun id known ↦
      known.imp_left fun same ↦ List.mem_singleton.2 same
    simp only [List.mem_cons, List.not_mem_nil, or_false] at among
    rcases among with rfl | rfl | rfl | rfl
    · exact Node.scoped_assign (own _ (.inl rfl)) (Node.scoped_var (.inr state))
    · refine Node.scoped_plain rfl rfl ?_
      simp only [Shape.children, Option.toList_some]
      refine List.forall_mem_cons.2 ⟨Node.scoped_var (own _ (.inl rfl)), ?_⟩
      refine List.forall_mem_append.2 ⟨List.forall_mem_map.2 fun case member ↦
        (cases case member).mono own, List.forall_mem_singleton.2 ?_⟩
      exact Node.scoped_plain rfl rfl (List.forall_mem_nil _)
    · exact Node.scoped_plain rfl rfl (List.forall_mem_singleton.2 (inside.mono own))
    · exact Node.scoped_plain rfl rfl (List.forall_mem_nil _)

/-- In a body that is prepared, variables are used where they were. -/
theorem Node.prepare_scoped {body prepared : Node} {s s' : Supply} {bound : SymbolId → Prop}
    (h : runs (body.prepare {}) s prepared s') (legal : ∀ m ∈ body.walk, m.Legal)
    (within : body.Scoped bound) : prepared.Scoped bound := by
  obtain ⟨spilled, s₁, spills, reduces⟩ := runs_prepare h
  have once := (spill_census spills).scopes within
  exact (reduce_census reduces (spill_legal spills legal)).scopes once

namespace Layout

variable {l : Lowered} (L : Layout l)

/-- What outlives the runs of a lowered body, and the rest that it declares: no two of these
variables are the same. -/
theorem variables_nodup (distinct : L.prepared.declared.Nodup) :
    (l.persisted.map Variable.id ++ l.body.declared).Nodup := by
  have counts (id : SymbolId) :
      (l.persisted.map Variable.id ++ l.body.declared).count id ≤
        (l.contract.names ++ L.added.names).count id + L.prepared.declared.count id := by
    have settled := L.prepared.settle_declared id
    have made := L.twin.declared id
    simp only [Lowered.persisted, L.hoisted, L.fields,
      L.assembled.declared L.twin.table_declared, Contract.names, Added.names, List.map_append,
      List.map_cons, List.cons_append, List.count_append, List.count_cons, List.count_nil]
    omega
  have names := List.nodup_iff_count_le_one.1 L.names
  rw [List.nodup_iff_count_le_one] at distinct ⊢
  intro id
  have := counts id
  have := names id
  have := distinct id
  by_cases new : id ∈ l.contract.names ++ L.added.names
  · have old : id ∉ L.prepared.declared := fun inside ↦
      L.apart id new (L.prepared.names_symbols (List.mem_append_left _ inside))
    rw [List.count_eq_zero.2 old] at *
    omega
  · rw [List.count_eq_zero.2 new] at *
    omega

/-- A lowered body uses variables where they are declared, or kept. -/
theorem inScope {bound : SymbolId → Prop} (within : L.prepared.Scoped bound) :
    l.body.Scoped fun id ↦ id ∈ l.persisted.map Variable.id ∨ bound id := by
  have kept {v : Variable} (member : v ∈ l.persisted) : v.id ∈ l.persisted.map Variable.id :=
    List.mem_map_of_mem member
  have state : l.contract.state ∈ l.persisted := List.mem_append_left _ List.mem_cons_self
  have hoisted : l.hoisted ⊆ l.persisted := fun v member ↦
    List.mem_append_left _ (List.mem_cons_of_mem _ member)
  have fields : l.fields ⊆ l.persisted := List.subset_append_right _ _
  let around (id : SymbolId) : Prop :=
    id = l.contract.localState.id ∨ id ∈ l.persisted.map Variable.id ∨ bound id
  have states : l.contract.Bound around := ⟨.inr (.inl (kept state)), .inl rfl⟩
  refine L.assembled.inScope (.inl (kept state)) (fun case member ↦ ?_) ?_
  · obtain ⟨_, _, _, leads⟩ := L.twin.leads 0 member
    exact leads.inScope states
  · refine L.twin.inScope ((Node.settle_scoped within).mono fun id known ↦ .inr ?_) states
      fun v field ↦ .inr (.inl (kept (fields (L.fields ▸ field))))
    exact known.imp_left fun taken ↦ List.map_subset _ (L.hoisted ▸ hoisted) taken

end Layout

end Suspension
