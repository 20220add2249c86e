import Suspension.Proofs.Preparation.Census
import Suspension.Proofs.Steps.Layer

/-!
# Spilled bodies

What spilling makes of a layer: the layer itself, over operands some of which are variables now, in
a block that stores those operands first if there are any (`SpillsLayer`). The operands that stay in
front of a suspend point are constants and variables of such blocks, so that they are still there
when the body is come back to (`Node.spill_fit`).
-/

namespace Suspension

open Steps Spill Build

/-- Operands, some of which are stored: the variables that are declared, the assignments, and the
operands that take their place. -/
inductive Stores : List Node → List Variable → List Node → List Node → Prop
  | nil : Stores [] [] [] []
  | stored {o : Node} {os os' stores : List Node} {ds : List Variable} (i j : NodeId)
    (temp : Variable) (awaits : os.any Node.containsAwait = true) (needs : o.needsSpill = true)
    (rest : Stores os ds stores os') :
    Stores (o :: os) (temp :: ds) (⟨i, .assign temp o⟩ :: stores) (⟨j, .var temp⟩ :: os')
  | left {o : Node} {os os' stores : List Node} {ds : List Variable}
    (stays : os.any Node.containsAwait = true → o.needsSpill = false)
    (rest : Stores os ds stores os') : Stores (o :: os) ds stores (o :: os')

/-- A node in a block that stores its operands first, if there are any to store. -/
inductive Wrapped (ds : List Variable) (stores : List Node) (value : Node) : Node → Prop
  | bare (none : ds = []) : Wrapped ds stores value value
  | block (i : NodeId) (some : ds ≠ []) :
    Wrapped ds stores value ⟨i, .block ds (stores ++ [value])⟩

/-- What spilling makes of a layer. -/
inductive SpillsLayer (sh : Shape Node) (s : Supply) : Node → Supply → Prop
  | same (i : NodeId) {s' : Supply} (none : sh.operands = []) (symbol : s'.symbol = s.symbol) :
    SpillsLayer sh s ⟨i, sh⟩ s'
  | operands {sh' : Shape Node} {os os' stores : List Node} {ds : List Variable} {i : NodeId}
    {n' : Node} {s' : Supply} (same : SameOperands sh sh' os os') (stored : Stores os ds stores os')
    (symbol_le : s.symbol ≤ s'.symbol) (names : ds.map Variable.id = s.fresh s')
    (wrapped : Wrapped ds stores ⟨i, sh'⟩ n') : SpillsLayer sh s n' s'

theorem Node.spill_eq (n : Node) :
    n.spill = (do spillLayer (← n.shape.mapM spill)) := by
  rw [spill, fold_eq, Shape.sequence_map]

theorem Stores.length {os os' stores : List Node} {ds : List Variable}
    (h : Stores os ds stores os') : os.length = os'.length := by
  induction h with
  | nil => rfl
  | stored _ _ _ _ _ _ ih => rw [List.length_cons, List.length_cons, ih]
  | left _ _ ih => rw [List.length_cons, List.length_cons, ih]

/-- Storing operands. -/
theorem runs_spillOperands {os : List Node} {s s' : Supply} {r : Spilled}
    (h : runs (spillOperands os) s r s') :
    Stores os r.declared r.stores r.operands ∧ s.symbol ≤ s'.symbol ∧
      r.declared.map Variable.id = s.fresh s' := by
  induction os generalizing s r with
  | nil =>
    rw [spillOperands, runs_pure] at h
    obtain ⟨rfl, rfl⟩ := h
    exact ⟨.nil, Nat.le_refl _, (Supply.fresh_of_eq rfl).symm⟩
  | cons o os ih =>
    rw [spillOperands] at h
    split at h
    · rename_i spills
      obtain ⟨awaits, needs⟩ := Bool.and_eq_true_iff.1 spills
      simp only [runs_bind, runs_pure] at h
      obtain ⟨temp, s₁, new, store, s₂, stores, use, s₃, uses, r', s₄, rest, rfl, rfl⟩ := h
      cases new
      cases stores
      cases uses
      obtain ⟨stored, le, names⟩ := ih rest
      refine ⟨.stored _ _ _ awaits needs stored, Nat.le_trans (Nat.le_succ _) le, ?_⟩
      rw [List.map_cons, names, Supply.fresh, Supply.fresh, ← span_append (Nat.le_succ s.symbol) le,
        List.map_append, span_succ]
      rfl
    · rename_i stays
      simp only [runs_bind, runs_pure] at h
      obtain ⟨r', s₁, rest, rfl, rfl⟩ := h
      obtain ⟨stored, le, names⟩ := ih rest
      refine ⟨.left (fun awaits ↦ ?_) stored, le, names⟩
      rw [awaits, Bool.true_and, Bool.not_eq_true] at stays
      exact stays

theorem runs_spillLayer {sh : Shape Node} {s s' : Supply} {n' : Node}
    (h : runs (spillLayer sh) s n' s') : SpillsLayer sh s n' s' := by
  cases sh with
  | binary op l r =>
    rw [spillLayer] at h
    split at h
    · rename_i spills
      obtain ⟨awaits, needs⟩ := Bool.and_eq_true_iff.1 spills
      cases h
      refine .operands (.binary op l r _ r)
        (.stored _ _ _ (by simpa using awaits) needs (.left nofun .nil)) (Nat.le_succ _) ?_
        (.block _ (List.cons_ne_nil _ _))
      rw [Supply.fresh, span_succ]
      rfl
    · rename_i stays
      cases h
      refine .operands (.binary op l r l r) (.left (fun awaits ↦ ?_) (.left nofun .nil))
        (Nat.le_refl _) (Supply.fresh_of_eq rfl).symm (.bare rfl)
      rw [List.any_cons, List.any_nil, Bool.or_false] at awaits
      rw [awaits, Bool.true_and, Bool.not_eq_true] at stays
      exact stays
  | call callee args =>
    simp only [spillLayer, runs_bind] at h
    obtain ⟨r, s₁, stores, value, s₂, made, h⟩ := h
    obtain ⟨stored, le, names⟩ := runs_spillOperands stores
    cases made
    split at h
    · rename_i empty
      cases h
      exact .operands (.call callee args _ stored.length) stored le names
        (.bare (List.isEmpty_iff.1 empty))
    · rename_i some
      cases h
      exact .operands (.call callee args _ stored.length) stored le names
        (.block _ fun none ↦ some (List.isEmpty_iff.2 none))
  | _ =>
    cases h
    exact .same _ rfl rfl

/-! ### What is kept -/

namespace Stores

variable {os os' stores : List Node} {ds : List Variable}

theorem awaits (h : Stores os ds stores os') :
    (stores ++ os').any Node.containsAwait = os.any Node.containsAwait := by
  induction h with
  | nil => rfl
  | stored i j temp awaits needs rest ih =>
    rw [List.any_append] at ih
    simp [Node.containsAwait_mk, Shape.children, Shape.kind, Kind.beq_eq_decide, ← ih]
  | left stays rest ih =>
    rw [List.any_append] at ih ⊢
    rw [List.any_cons, List.any_cons, ← ih]
    simp only [Bool.or_left_comm]

theorem symbols (h : Stores os ds stores os') :
    ∀ id ∈ (stores ++ os').flatMap Node.symbols,
      id ∈ os.flatMap Node.symbols ∨ id ∈ ds.map Variable.id := by
  induction h with
  | nil => exact nofun
  | stored i j temp awaits needs rest ih =>
    intro id
    have := ih id
    simp only [List.flatMap_append, List.flatMap_cons, List.mem_append, List.cons_append,
      Node.symbols_mk, Shape.ownSymbols, Shape.children, List.map_cons, List.mem_cons,
      List.flatMap_nil, List.not_mem_nil, or_false] at this ⊢
    tauto
  | left stays rest ih =>
    intro id
    have := ih id
    simp only [List.flatMap_append, List.flatMap_cons, List.mem_append] at this ⊢
    tauto

theorem calls (h : Stores os ds stores os') :
    (stores ++ os').flatMap Node.calls ⊆ os.flatMap Node.calls := by
  induction h with
  | nil => exact List.Subset.refl _
  | stored i j temp awaits needs rest ih =>
    intro name
    have := @ih name
    simp only [List.flatMap_append, List.flatMap_cons, List.mem_append, List.cons_append,
      Node.calls_mk, Shape.ownCalls, Shape.children, List.flatMap_nil, List.not_mem_nil, or_false,
      false_or] at this ⊢
    tauto
  | left stays rest ih =>
    intro name
    have := @ih name
    simp only [List.flatMap_append, List.flatMap_cons, List.mem_append] at this ⊢
    tauto

theorem names (h : Stores os ds stores os') (id : SymbolId) :
    ((stores ++ os').flatMap (Node.names true)).count id =
      (os.flatMap (Node.names true)).count id := by
  induction h with
  | nil => rfl
  | stored i j temp awaits needs rest ih =>
    simp only [List.flatMap_append, List.flatMap_cons, List.count_append, List.cons_append,
      Node.names_mk, Shape.declared, Shape.binders, Shape.children, List.map_nil, List.count_nil,
      List.flatMap_nil, ite_self] at ih ⊢
    omega
  | left stays rest ih =>
    simp only [List.flatMap_append, List.flatMap_cons, List.count_append] at ih ⊢
    omega

theorem scopes {bound : SymbolId → Prop} (h : Stores os ds stores os')
    (within : ∀ o ∈ os, o.Scoped bound) (temps : ∀ v ∈ ds, bound v.id) :
    ∀ n ∈ stores ++ os', n.Scoped bound := by
  induction h with
  | nil => exact nofun
  | stored i j temp awaits needs rest ih =>
    rename_i o os os' stores ds
    have ih := ih (fun o member ↦ within o (List.mem_cons_of_mem _ member))
      fun v member ↦ temps v (List.mem_cons_of_mem _ member)
    have target := temps temp List.mem_cons_self
    have head := within o List.mem_cons_self
    intro n member
    simp only [List.mem_append, List.mem_cons, List.cons_append] at member ih
    rcases member with rfl | member | rfl | member
    · refine .mk (fun v inside ↦ List.mem_singleton.1 inside ▸ target) fun vs c inside ↦ ?_
      cases List.mem_singleton.1 inside
      exact head.mono fun id inside ↦ .inr inside
    · exact ih n (.inl member)
    · exact .mk (fun v inside ↦ List.mem_singleton.1 inside ▸ target) nofun
    · exact ih n (.inr member)
  | left stays rest ih =>
    rename_i o os os' stores ds
    have ih := ih (fun o member ↦ within o (List.mem_cons_of_mem _ member)) temps
    intro n member
    simp only [List.mem_append, List.mem_cons] at member ih
    rcases member with member | rfl | member
    · exact ih n (.inl member)
    · exact within n List.mem_cons_self
    · exact ih n (.inr member)

/-- If nothing is stored, the operands stay. -/
theorem eq_of_nil (h : Stores os [] stores os') : stores = [] ∧ os' = os := by
  generalize none : ([] : List Variable) = ds at h
  induction h with
  | nil => exact ⟨rfl, rfl⟩
  | stored => cases none
  | left stays rest ih =>
    obtain ⟨rfl, rfl⟩ := ih none
    exact ⟨rfl, rfl⟩

end Stores

namespace Steps.SameOperands

variable {sh sh' : Shape Node} {os os' : List Node}

/-- What layers with operands have of their own. -/
theorem own (h : SameOperands sh sh' os os') :
    sh'.children = os' ∧ sh'.operands = os' ∧ sh'.ownSymbols = [] ∧ sh'.declared = [] ∧
      sh'.binders = [] ∧ sh'.uses = [] ∧ sh'.kind ≠ .await ∧
      sh'.scopes = os'.map fun o ↦ ([], o) := by
  cases h <;> exact ⟨rfl, rfl, rfl, rfl, rfl, rfl, nofun, rfl⟩

theorem ownCalls (h : SameOperands sh sh' os os') : sh'.ownCalls = sh.ownCalls := by
  cases h <;> rfl

theorem flip (h : SameOperands sh sh' os os') : SameOperands sh' sh os' os := by
  cases h with
  | binary => exact .binary _ _ _ _ _
  | call callee _ _ length => exact .call callee _ _ length.symm

theorem eq (h : SameOperands sh sh' os os) : sh' = sh := by
  generalize same : os = os' at h
  cases h with
  | binary =>
    cases same
    rfl
  | call =>
    cases same
    rfl

end Steps.SameOperands

/-- Spilling a layer keeps what a pass has to keep. -/
theorem SpillsLayer.reshapes {sh : Shape Node} {s s' : Supply} {n' : Node}
    (h : SpillsLayer sh s n' s') : Reshapes true sh s n' s' := by
  cases h with
  | same i none symbol => exact .node sh i symbol
  | @operands sh' os os' stores ds i _ _ same stored symbol_le names wrapped =>
    cases wrapped with
    | bare none =>
      subst none
      obtain ⟨rfl, rfl⟩ := stored.eq_of_nil
      rw [same.eq]
      refine .node sh i ?_
      have length := congrArg List.length names
      simp only [List.map_nil, List.length_nil, Supply.fresh, List.length_map, span,
        List.length_range'] at length
      omega
    | block j some =>
      -- The layer and its copy have nothing of their own but their operands.
      obtain ⟨children, -, own, declared, binders, uses, quiet, scopes⟩ := same.flip.own
      obtain ⟨children', -, own', declared', binders', uses', quiet', scopes'⟩ := same.own
      have awaits := stored.awaits
      have symbols := stored.symbols
      refine ⟨symbol_le, ?_, fun id inside ↦ ?_, fun name called ↦ ?_, fun id ↦ ?_,
        fun {bound k} within ↦ ?_⟩
      · rw [beq_eq_false_iff_ne.2 quiet, children, ← awaits, Bool.false_or]
        have value : Node.containsAwait ⟨i, sh'⟩ = os'.any Node.containsAwait := by
          rw [Node.containsAwait_mk, children', beq_eq_false_iff_ne.2 quiet', Bool.false_or]
        generalize (⟨i, sh'⟩ : Node) = m at value
        simp [Shape.children, Shape.kind, Node.containsAwait_mk, Kind.beq_eq_decide, value]
      · rw [children, own, ← names]
        rw [Node.symbols_mk, Shape.children, List.flatMap_append, List.flatMap_singleton,
          Node.symbols_mk, own', children', List.nil_append, ← List.flatMap_append] at inside
        rcases List.mem_append.1 inside with temp | inside
        · exact .inr temp
        · exact (symbols id inside).imp_left .inr
      · rw [Node.calls_mk, Shape.children, List.flatMap_append, List.flatMap_singleton,
          Node.calls_mk, children'] at called
        rw [children, ← same.ownCalls]
        have operands := @Stores.calls _ _ _ _ stored name
        simp only [Shape.ownCalls, List.nil_append, List.flatMap_append, List.mem_append]
          at operands called ⊢
        tauto
      · have counts := stored.names id
        have value : (Node.names true ⟨i, sh'⟩).count id =
            (os'.flatMap (Node.names true)).count id := by
          simp [Node.names_mk, children', declared', binders']
        generalize (⟨i, sh'⟩ : Node) = m at value
        rw [children, ← names, declared, binders]
        simp only [Node.names_mk, Shape.children, Shape.declared, Shape.binders,
          List.flatMap_append, List.flatMap_singleton, List.count_append, List.append_nil,
          List.map_nil, List.count_nil, if_true, value] at counts ⊢
        omega
      · rw [Node.scoped_mk, uses] at within
        have inner : ∀ o ∈ os, o.Scoped fun id ↦ id ∈ ds.map Variable.id ∨ bound id := by
          intro o member
          have operand := within.2 [] o (scopes ▸ List.mem_map_of_mem member)
          exact operand.mono fun id inside ↦ .inr (inside.resolve_left List.not_mem_nil)
        have all := stored.scopes inner fun v member ↦ .inl (List.mem_map_of_mem member)
        refine .mk (List.forall_mem_nil _) fun vs c member ↦ ?_
        obtain ⟨m, inside, eq⟩ := List.mem_map.1 member
        cases eq
        rcases List.mem_append.1 inside with store | value
        · exact all c (List.mem_append_left _ store)
        · cases List.mem_singleton.1 value
          rw [Node.scoped_mk, uses', scopes']
          refine ⟨List.forall_mem_nil _, fun vs c member ↦ ?_⟩
          obtain ⟨o, operand, eq⟩ := List.mem_map.1 member
          cases eq
          exact (all c (List.mem_append_right _ operand)).mono fun id inside ↦ .inr inside

/-- Spilling keeps what a pass has to keep. -/
theorem Node.spill_census {n n' : Node} {s s' : Supply} (h : runs n.spill s n' s') :
    Census true n s n' s' := by
  induction n using Node.induction generalizing s n' s' with
  | step n ih =>
    rw [spill_eq, runs_bind] at h
    obtain ⟨sh, s₁, children, step⟩ := h
    obtain ⟨x, source, rfl, threads⟩ := Runs.shape (f := spill)
      (Q := fun n s n' s' (_ : Unit) ↦ Census true n s n' s')
      (fun a child _ _ _ run ↦ ⟨(), ih a child run⟩) children
    obtain ⟨i, shape⟩ := n
    obtain rfl : x.map Prod.fst = shape := source
    exact Census.layer (Census.row threads) (runs_spillLayer step).reshapes

/-! ### Operands that are kept -/

namespace Stores

variable {os os' stores : List Node} {ds : List Variable} {keeps : SymbolId → Prop}

/-- Operands in front of one that suspends are constants or variables that stored them. -/
theorem kept (h : Stores os ds stores os') (temps : ∀ v ∈ ds, keeps v.id)
    (distinct : (ds.map Variable.id).Nodup)
    (fresh : ∀ v ∈ ds, v.id ∉ os.flatMap Node.symbols) {before after : List Node} {o : Node}
    (split : os' = before ++ o :: after) (awaits : (o :: after).any Node.containsAwait = true) :
    ∀ b ∈ before, b.Kept keeps ∧ ∀ v, b.shape = .var v → v.id ∉ o.symbols := by
  induction h generalizing before with
  | nil => simp at split
  | @stored o₀ os os' stores ds i j temp awaits₀ needs rest ih =>
    rw [List.map_cons, List.nodup_cons] at distinct
    cases before with
    | nil => exact nofun
    | cons b before =>
      obtain ⟨rfl, tail⟩ := List.cons.inj split
      replace tail : os' = before ++ o :: after := tail
      have fresh' (v : Variable) (member : v ∈ temp :: ds) : v.id ∉ os.flatMap Node.symbols :=
        fun inside ↦ fresh v member (List.mem_append_right _ inside)
      refine List.forall_mem_cons.2 ⟨⟨temps temp List.mem_cons_self, ?_⟩, ?_⟩
      -- The variable is fresh, and no other operand stores in it.
      · rintro v eq inside
        cases eq
        have among : temp.id ∈ (stores ++ os').flatMap Node.symbols := by
          refine List.mem_flatMap.2 ⟨o, List.mem_append_right _ ?_, inside⟩
          rw [tail]
          simp
        rcases rest.symbols _ among with old | new
        · exact fresh' temp List.mem_cons_self old
        · exact distinct.1 new
      · exact ih (fun v member ↦ temps v (List.mem_cons_of_mem _ member)) distinct.2
          (fun v member ↦ fresh' v (List.mem_cons_of_mem _ member)) tail
  | @left o₀ os os' stores ds stays rest ih =>
    cases before with
    | nil => exact nofun
    | cons b before =>
      obtain ⟨rfl, tail⟩ := List.cons.inj split
      replace tail : os' = before ++ o :: after := tail
      refine List.forall_mem_cons.2 ⟨?_, ?_⟩
      -- An operand that suspends follows, so the one that stayed in front of it is stable.
      · have some : os.any Node.containsAwait = true := by
          rw [← rest.awaits, List.any_append, tail, List.any_append, awaits, Bool.or_true,
            Bool.or_true]
        have stable := stays some
        obtain ⟨k, sh⟩ := o₀
        cases sh <;> first | exact ⟨trivial, nofun⟩ | cases stable
      · exact ih temps distinct
          (fun v member inside ↦ fresh v member (List.mem_append_right _ inside)) tail

/-- Nodes beneath spilled operands are nodes beneath the operands, or plain. -/
theorem forall_walk {Q : Node → Prop} (h : Stores os ds stores os')
    (plain : ∀ {n : Node}, n.shape.operands = [] → n.kind ≠ .region → n.kind ≠ .lock → Q n)
    (below : ∀ o ∈ os, ∀ m ∈ o.walk, Q m) : ∀ n ∈ stores ++ os', ∀ m ∈ n.walk, Q m := by
  induction h with
  | nil => exact nofun
  | stored i j temp awaits needs rest ih =>
    have ih := ih fun o member ↦ below o (List.mem_cons_of_mem _ member)
    have head := below _ List.mem_cons_self
    intro n member
    simp only [List.mem_append, List.mem_cons, List.cons_append] at member ih
    rcases member with rfl | member | rfl | member
    · refine Node.forall_walk_mk.2 ⟨plain rfl nofun nofun, fun c child ↦ ?_⟩
      cases List.mem_singleton.1 child
      exact head
    · exact ih n (.inl member)
    · exact Node.forall_walk_mk.2 ⟨plain rfl nofun nofun, nofun⟩
    · exact ih n (.inr member)
  | left stays rest ih =>
    have ih := ih fun o member ↦ below o (List.mem_cons_of_mem _ member)
    have head := below _ List.mem_cons_self
    intro n member
    simp only [List.mem_append, List.mem_cons] at member ih
    rcases member with member | rfl | member
    · exact ih n (.inl member)
    · exact head
    · exact ih n (.inr member)

/-- There is something to store only in front of a suspend point. -/
theorem any_of_ne_nil (h : Stores os ds stores os') (some : ds ≠ []) :
    os.any Node.containsAwait = true := by
  induction h with
  | nil => exact absurd rfl some
  | stored i j temp awaits needs rest ih => rw [List.any_cons, awaits, Bool.or_true]
  | left stays rest ih => rw [List.any_cons, ih some, Bool.or_true]

end Stores

/-- What a spilled layer looks like, if its children are as they should be. -/
theorem SpillsLayer.fit {sh : Shape Node} {s s' : Supply} {n' : Node} {keeps : SymbolId → Prop}
    (h : SpillsLayer sh s n' s') (whole : s'.Whole)
    (hoisted : ∀ v ∈ n'.hoistable, keeps v.id) (legal : ∀ i, Node.Legal ⟨i, sh⟩)
    (old : ∀ c ∈ sh.children, c.Older s) (below : ∀ c ∈ sh.children, ∀ m ∈ c.walk, m.Fit keeps) :
    ∀ m ∈ n'.walk, m.Fit keeps := by
  cases h with
  | same i none symbol =>
    refine Node.forall_walk_mk.2 ⟨⟨legal i, fun {before o after} split ↦ ?_⟩, below⟩
    rw [show Node.shape ⟨i, sh⟩ = sh from rfl, none] at split
    simp at split
  | @operands sh' os os' stores ds i _ _ same stored symbol_le names wrapped =>
    obtain ⟨children, -⟩ := same.flip.own
    obtain ⟨children', operands', -, -, -, -, quiet', -⟩ := same.own
    rw [children] at old below
    have all := stored.forall_walk Node.Fit.of_plain below
    -- Something is stored only if an operand suspends; then the block gives up its variables.
    have some (nonempty : ds ≠ []) : n'.hoistable ⊇ ds := by
      cases wrapped with
      | bare none => exact absurd none nonempty
      | block j _ =>
        have awaits : (stores ++ os').any Node.containsAwait = true := by
          rw [stored.awaits, stored.any_of_ne_nil nonempty]
        have value : Node.containsAwait ⟨i, sh'⟩ = os'.any Node.containsAwait := by
          rw [Node.containsAwait_mk, children', beq_eq_false_iff_ne.2 quiet', Bool.false_or]
        intro v member
        rw [Node.hoistable_mk, Node.containsAwait_mk]
        refine List.mem_append_right _ ?_
        rw [if_pos]
        · exact member
        · rw [List.any_append] at awaits
          simp only [Shape.children, List.any_append, List.any_cons, value, List.any_nil,
            Bool.or_false, awaits, Bool.or_true]
    have temps : ∀ v ∈ ds, keeps v.id := fun v member ↦
      hoisted v (some (List.ne_nil_of_mem member) member)
    have distinct : (ds.map Variable.id).Nodup := names ▸ Supply.fresh_nodup whole
    have fresh : ∀ v ∈ ds, v.id ∉ os.flatMap Node.symbols := by
      intro v member inside
      obtain ⟨o, among, own⟩ := List.mem_flatMap.1 inside
      have new : v.id ∈ s.fresh s' := names ▸ List.mem_map_of_mem member
      have := old o among v.id own
      have := (Supply.mem_fresh whole new).1
      omega
    have value : ∀ m ∈ Node.walk ⟨i, sh'⟩, m.Fit keeps := by
      refine Node.forall_walk_mk.2 ⟨⟨⟨?_, ?_⟩, fun split awaits ↦ ?_⟩, ?_⟩
      · rintro body clauses cleanup fault rfl
        cases same
      · rintro guard body rfl
        cases same
      · exact stored.kept temps distinct fresh (operands' ▸ split) awaits
      · rw [children']
        exact fun c child ↦ all c (List.mem_append_right _ child)
    cases wrapped with
    | bare none => exact value
    | block j _ =>
      refine Node.forall_walk_mk.2 ⟨.of_plain rfl (by rintro ⟨⟩) (by rintro ⟨⟩), fun c child ↦ ?_⟩
      rcases List.mem_append.1 child with store | last
      · exact all c (List.mem_append_left _ store)
      · cases List.mem_singleton.1 last
        exact value

/-- A spilled layer hoists what its children hoist. -/
theorem SpillsLayer.hoistable {sh : Shape Node} {s s' : Supply} {n' : Node}
    (h : SpillsLayer sh s n' s') : ∀ c ∈ sh.children, c.hoistable ⊆ n'.hoistable := by
  have inner {i : NodeId} {sh : Shape Node} {c : Node} (child : c ∈ sh.children) :
      c.hoistable ⊆ Node.hoistable ⟨i, sh⟩ := by
    intro v inside
    rw [Node.hoistable_mk]
    exact List.mem_append_left _ (List.mem_flatMap.2 ⟨c, child, inside⟩)
  cases h with
  | same i none symbol => exact fun c child ↦ inner child
  | @operands sh' os os' stores ds i _ _ same stored symbol_le names wrapped =>
    obtain ⟨children, -⟩ := same.flip.own
    obtain ⟨children', -⟩ := same.own
    -- An operand is found again, in a store or where it was.
    have each : ∀ o ∈ os, ∃ n ∈ stores ++ os', o.hoistable ⊆ n.hoistable := by
      clear wrapped names same children children'
      induction stored with
      | nil => exact nofun
      | stored j k temp awaits needs rest ih =>
        refine List.forall_mem_cons.2 ⟨⟨_, List.mem_cons_self, inner List.mem_cons_self⟩, ?_⟩
        intro o member
        obtain ⟨n, inside, le⟩ := ih o member
        refine ⟨n, ?_, le⟩
        simp only [List.mem_append, List.mem_cons, List.cons_append] at inside ⊢
        tauto
      | left stays rest ih =>
        refine List.forall_mem_cons.2 ⟨⟨_, by simp, List.Subset.refl _⟩, fun o member ↦ ?_⟩
        obtain ⟨n, inside, le⟩ := ih o member
        refine ⟨n, ?_, le⟩
        simp only [List.mem_append, List.mem_cons] at inside ⊢
        tauto
    intro c child
    obtain ⟨n, inside, le⟩ := each c (children ▸ child)
    refine List.Subset.trans le ?_
    have value (member : n ∈ os') : n.hoistable ⊆ Node.hoistable ⟨i, sh'⟩ :=
      inner (children'.symm ▸ member)
    cases wrapped with
    | bare none =>
      subst none
      obtain ⟨rfl, rfl⟩ := stored.eq_of_nil
      exact value inside
    | block j _ =>
      rcases List.mem_append.1 inside with store | operand
      · exact inner (List.mem_append_left _ store)
      · exact List.Subset.trans (value operand) (inner (List.mem_append_right _ List.mem_cons_self))

/-- Spilling keeps a layer legal. -/
theorem SpillsLayer.legal {sh : Shape Node} {s s' : Supply} {n' : Node}
    (h : SpillsLayer sh s n' s') (legal : ∀ i, Node.Legal ⟨i, sh⟩)
    (below : ∀ c ∈ sh.children, ∀ m ∈ c.walk, m.Legal) : ∀ m ∈ n'.walk, m.Legal := by
  have plain {n : Node} (region : n.kind ≠ .region) (lock : n.kind ≠ .lock) : n.Legal := by
    obtain ⟨i, sh⟩ := n
    refine ⟨?_, ?_⟩
    · rintro body clauses cleanup fault rfl
      exact absurd rfl region
    · rintro guard body rfl
      exact absurd rfl lock
  cases h with
  | same i none symbol => exact Node.forall_walk_mk.2 ⟨legal i, below⟩
  | @operands sh' os os' stores ds i _ _ same stored symbol_le names wrapped =>
    obtain ⟨children, -⟩ := same.flip.own
    obtain ⟨children', -⟩ := same.own
    have all := stored.forall_walk (fun _ ↦ plain) (children ▸ below)
    have value : ∀ m ∈ Node.walk ⟨i, sh'⟩, m.Legal := by
      refine Node.forall_walk_mk.2 ⟨plain ?_ ?_, ?_⟩
      · cases same <;> exact nofun
      · cases same <;> exact nofun
      · rw [children']
        exact fun c child ↦ all c (List.mem_append_right _ child)
    cases wrapped with
    | bare none => exact value
    | block j _ =>
      refine Node.forall_walk_mk.2 ⟨plain nofun nofun, fun c child ↦ ?_⟩
      rcases List.mem_append.1 child with store | last
      · exact all c (List.mem_append_left _ store)
      · cases List.mem_singleton.1 last
        exact value

/-- A spilled body has suspend points in filters and locks only if it had them before. -/
theorem Node.spill_legal {n n' : Node} {s s' : Supply} (h : runs n.spill s n' s')
    (legal : ∀ m ∈ n.walk, m.Legal) : ∀ m ∈ n'.walk, m.Legal := by
  induction n using Node.induction generalizing s n' s' with
  | step n ih =>
    rw [spill_eq, runs_bind] at h
    obtain ⟨sh, s₁, children, step⟩ := h
    obtain ⟨x, source, rfl, threads⟩ := Runs.shape (f := spill)
      (Q := fun n s n' s' (_ : Unit) ↦ runs n.spill s n' s')
      (fun a child _ _ _ run ↦ ⟨(), run⟩) children
    obtain ⟨i, shape⟩ := n
    obtain rfl : x.map Prod.fst = shape := source
    refine (runs_spillLayer step).legal
      (fun j ↦ (legal _ (mem_walk_self _)).rebuilt fun y member ↦ ?_) ?_
    · obtain ⟨_, _, run⟩ := threads.of_mem member
      exact (spill_census run).awaits
    · rw [Shape.children_map]
      refine List.forall_mem_map.2 fun y member ↦ ?_
      obtain ⟨_, _, run⟩ := threads.of_mem member
      have child : y.1 ∈ Node.children ⟨i, x.map Prod.fst⟩ := mem_children_map member
      exact ih y.1 child run fun m inside ↦ legal m (mem_walk_of_mem_children inside child)

/-- The operands in front of suspend points of a spilled body are kept. -/
theorem Node.spill_fit {n n' : Node} {s s' : Supply} {keeps : SymbolId → Prop}
    (h : runs n.spill s n' s') (legal : ∀ m ∈ n.walk, m.Legal) (old : n.Older s)
    (whole : s'.Whole) (hoisted : ∀ v ∈ n'.hoistable, keeps v.id) :
    ∀ m ∈ n'.walk, m.Fit keeps := by
  induction n using Node.induction generalizing s n' s' with
  | step n ih =>
    rw [spill_eq, runs_bind] at h
    obtain ⟨sh, s₁, children, step⟩ := h
    obtain ⟨x, source, rfl, threads⟩ := Runs.shape (f := spill)
      (Q := fun n s n' s' (_ : Unit) ↦ runs n.spill s n' s')
      (fun a child _ _ _ run ↦ ⟨(), run⟩) children
    obtain ⟨i, shape⟩ := n
    obtain rfl : x.map Prod.fst = shape := source
    have spills := runs_spillLayer step
    -- The children take their symbols one after the other, before the layer takes its own.
    have row := threads.between (f := Supply.symbol) fun run ↦ (spill_census run).symbol_le
    have le := spills.reshapes.symbol_le
    have parts (y : Node × Node × Unit) (member : y ∈ x.children) :
        ∃ s₁ s₂, Census true y.1 s₁ y.2.1 s₂ := by
      obtain ⟨s₁, s₂, run, -⟩ := row.2 y member
      exact ⟨s₁, s₂, spill_census run⟩
    have whole₁ : s₁.Whole := Nat.le_trans le whole
    refine spills.fit whole hoisted (fun j ↦ (legal _ (mem_walk_self _)).rebuilt fun y member ↦ ?_)
      ?_ ?_
    · obtain ⟨_, _, census⟩ := parts y member
      exact census.awaits
    · rw [Shape.children_map]
      refine List.forall_mem_map.2 fun y member ↦ ?_
      obtain ⟨s₂, s₃, run, le₂, le₃⟩ := row.2 y member
      have older : y.1.Older s := old.child (mem_children_map member)
      exact ((spill_census run).older (older.le le₂) (Nat.le_trans le₃ whole₁)).le le₃
    · rw [Shape.children_map]
      refine List.forall_mem_map.2 fun y member ↦ ?_
      obtain ⟨s₂, s₃, run, le₂, le₃⟩ := row.2 y member
      have child : y.1 ∈ Node.children ⟨i, x.map Prod.fst⟩ := mem_children_map member
      refine ih y.1 child run (fun m inside ↦ legal m (mem_walk_of_mem_children inside child))
        ((old.child child).le le₂) (Nat.le_trans le₃ whole₁) fun v inside ↦ hoisted v ?_
      refine spills.hoistable y.2.1 ?_ inside
      rw [Shape.children_map]
      exact List.mem_map_of_mem member

end Suspension
