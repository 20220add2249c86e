import Suspension.Proofs.Preparation.Census

/-!
# Edited handler bodies

A handler body that is moved out of its region, and a protected body whose exits are noted, are
copies but for some leaves: a bare rethrow raises what was captured, a jump or a return is noted
first and then carried out from the end of the body. `Edits` is the relation between a tree and such
a copy, and the lemmas say that nothing else about a tree is lost in it.
-/

namespace Suspension

open Handlers Build

theorem Shape.map_id {α : Type} (sh : Shape α) : sh.map (fun a ↦ a) = sh := by
  have clause : Clause.map (fun a : α ↦ a) = fun c ↦ c := by
    funext ⟨_, filter, _⟩
    cases filter <;> rfl
  have case : Case.map (fun a : α ↦ a) = fun c ↦ c := rfl
  cases sh <;> simp [map, clause, case]

/-- A tree and a copy of it in which rethrows, jumps and returns may be written in terms of given
variables, and lead to given labels instead. -/
inductive Edits (given places : List SymbolId) : Node → Node → Prop
  | layer {i i' : NodeId} (x : Shape (Node × Node))
    (below : ∀ y ∈ x.children, Edits given places y.1 y.2) :
    Edits given places ⟨i, x.map Prod.fst⟩ ⟨i', x.map Prod.snd⟩
  | raise {i j k : NodeId} {v : Variable} (known : v.id ∈ given) :
    Edits given places ⟨i, .raise none⟩ ⟨j, .raise (some ⟨k, .var v⟩)⟩
  | jump {i j k l m : NodeId} {target leave : Label} {mark : Variable} {number : Literal}
    (known : mark.id ∈ given) (known' : leave.id ∈ places) :
    Edits given places ⟨i, .goto target⟩
      ⟨j, .block [] [⟨k, .assign mark ⟨l, .const number⟩⟩, ⟨m, .goto leave⟩]⟩
  | ret {i j k l m o : NodeId} {leave : Label} {keep mark : Variable} {number : Literal}
    {n n' : Node} (value : Edits given places n n') (known : keep.id ∈ given)
    (known' : mark.id ∈ given)
    (known'' : leave.id ∈ places) :
    Edits given places ⟨i, .ret (some n)⟩
      ⟨j, .block [] [⟨k, .assign keep n'⟩, ⟨l, .assign mark ⟨m, .const number⟩⟩, ⟨o, .goto leave⟩]⟩
  | retUnit {i j k l m o p : NodeId} {leave : Label} {keep mark : Variable} {number : Literal}
    (known : keep.id ∈ given) (known' : mark.id ∈ given) (known'' : leave.id ∈ places) :
    Edits given places ⟨i, .ret none⟩
      ⟨j, .block [] [⟨k, .assign keep ⟨p, .defaultOf .unit⟩⟩, ⟨l, .assign mark ⟨m, .const number⟩⟩,
        ⟨o, .goto leave⟩]⟩

namespace Edits

variable {given places : List SymbolId} {n n' : Node}

/-- A tree is a copy of itself. -/
theorem refl (given places : List SymbolId) (n : Node) : Edits given places n n := by
  induction n using Node.induction with
  | step n ih =>
    obtain ⟨i, sh⟩ := n
    have same := @layer given places i i (sh.map fun c ↦ (c, c)) ?_
    · rw [Shape.map_map, Shape.map_map] at same
      rwa [show sh.map (Prod.fst ∘ fun c ↦ (c, c)) = sh from sh.map_id,
        show sh.map (Prod.snd ∘ fun c ↦ (c, c)) = sh from sh.map_id] at same
    · rw [Shape.children_map]
      exact List.forall_mem_map.2 ih

/-- Copies may lead to more labels. -/
theorem mono {places' : List SymbolId} (h : Edits given places n n') (le : places ⊆ places') :
    Edits given places' n n' := by
  induction h with
  | layer x below ih => exact .layer x ih
  | raise known => exact .raise known
  | jump known known' => exact .jump known (le known')
  | ret value known known' known'' ih => exact .ret ih known known' (le known'')
  | retUnit known known' known'' => exact .retUnit known known' (le known'')

/-- What is the same of the children is the same of all of them. -/
theorem map_children {α : Type} {f : Node → α} {ys : List (Node × Node)}
    (h : ∀ y ∈ ys, f y.2 = f y.1) : (ys.map Prod.snd).map f = (ys.map Prod.fst).map f := by
  rw [List.map_map, List.map_map]
  exact List.map_congr_left h

theorem any_children {f : Node → Bool} {ys : List (Node × Node)}
    (h : ∀ y ∈ ys, f y.2 = f y.1) : (ys.map Prod.snd).any f = (ys.map Prod.fst).any f := by
  have eq := congrArg (List.any · id) (map_children h)
  simpa only [List.any_map, Function.id_comp] using eq

theorem flatMap_children {α : Type} {f : Node → List α} {ys : List (Node × Node)}
    (h : ∀ y ∈ ys, f y.2 = f y.1) : (ys.map Prod.snd).flatMap f = (ys.map Prod.fst).flatMap f := by
  rw [List.flatMap_def, List.flatMap_def, map_children h]

theorem containsAwait (h : Edits given places n n') : n'.containsAwait = n.containsAwait := by
  induction h with
  | layer x below ih =>
    simp only [Node.containsAwait_mk, Shape.kind_map, Shape.children_map, any_children ih]
  | ret value _ _ _ ih => simp [Node.containsAwait_mk, Shape.children, Shape.kind,
      Kind.beq_eq_decide, ih]
  | _ => rfl

theorem labelsWithin (h : Edits given places n n') : n'.labelsWithin = n.labelsWithin := by
  induction h with
  | layer x below ih =>
    have own {α : Type} (f : Node × Node → α) : (x.map f).ownLabels = x.ownLabels := by
      cases x <;> rfl
    simp only [Node.labelsWithin_mk, own, Shape.children_map, flatMap_children ih]
  | ret value _ _ _ ih => simp [Node.labelsWithin_mk, Shape.children, Shape.ownLabels, ih]
  | _ => rfl

theorem calls (h : Edits given places n n') : n'.calls = n.calls := by
  induction h with
  | layer x below ih =>
    simp only [Node.calls_mk, Shape.ownCalls_map, Shape.children_map, flatMap_children ih]
  | ret value _ _ _ ih => simp [Node.calls_mk, Shape.children, Shape.ownCalls, ih]
  | _ => rfl

theorem declared (h : Edits given places n n') : n'.declared = n.declared := by
  induction h with
  | layer x below ih =>
    simp only [Node.declared_mk, Shape.declared_map, Shape.children_map, flatMap_children ih]
  | ret value _ _ _ ih => simp [Node.declared_mk, Shape.children, Shape.declared, ih]
  | _ => rfl

theorem hoistable (h : Edits given places n n') : n'.hoistable = n.hoistable := by
  induction h with
  | layer x below ih =>
    have awaits := (@layer given places 0 0 x below).containsAwait
    simp only [Node.containsAwait_mk, Shape.kind_map, Shape.children_map] at awaits
    simp only [Node.hoistable_mk, Node.containsAwait_mk, Shape.kind_map, Shape.declared_map,
      Shape.children_map, flatMap_children ih, awaits]
  | ret value _ _ _ ih =>
    simp [Node.hoistable_mk, Shape.children, Shape.declared, ih]
  | _ => rfl

/-- No symbols come in but those that were given. -/
theorem symbols (h : Edits given places n n') :
    ∀ id ∈ n'.symbols, id ∈ n.symbols ∨ id ∈ given ∨ id ∈ places := by
  induction h with
  | layer x below ih =>
    intro id inside
    simp only [Node.symbols_mk, Shape.ownSymbols_map, Shape.children_map, List.mem_append,
      List.mem_flatMap, List.mem_map] at inside ⊢
    rcases inside with own | ⟨_, ⟨y, child, rfl⟩, inside⟩
    · exact .inl (.inl own)
    · rcases ih y child id inside with old | new
      · exact .inl (.inr ⟨_, ⟨y, child, rfl⟩, old⟩)
      · exact .inr new
  | raise known =>
    intro id inside
    simp only [Node.symbols_mk, Shape.children, Shape.ownSymbols, List.nil_append,
      Option.toList_some, List.flatMap_cons, List.flatMap_nil, List.append_nil,
      List.mem_singleton] at inside
    exact .inr (.inl (inside ▸ known))
  | jump known known' =>
    intro id inside
    simp only [Node.symbols_mk, Shape.children, Shape.ownSymbols, List.map_nil, List.nil_append,
      List.flatMap_cons, List.flatMap_nil, List.append_nil, List.mem_append,
      List.mem_singleton] at inside
    rcases inside with rfl | rfl
    · exact .inr (.inl known)
    · exact .inr (.inr known')
  | ret value known known' known'' ih =>
    intro id inside
    simp only [Node.symbols_mk, Shape.children, Shape.ownSymbols, List.map_nil, List.nil_append,
      List.flatMap_cons, List.flatMap_nil, List.append_nil, List.mem_append, List.mem_cons,
      List.not_mem_nil, or_false, Option.toList_some] at inside ⊢
    rcases inside with (rfl | inside) | rfl | rfl
    · exact .inr (.inl known)
    · exact ih id inside
    · exact .inr (.inl known')
    · exact .inr (.inr known'')
  | retUnit known known' known'' =>
    intro id inside
    simp only [Node.symbols_mk, Shape.children, Shape.ownSymbols, List.map_nil, List.nil_append,
      List.flatMap_cons, List.flatMap_nil, List.append_nil, List.mem_append, List.mem_cons,
      List.not_mem_nil, or_false] at inside
    rcases inside with rfl | rfl | rfl
    · exact .inr (.inl known)
    · exact .inr (.inl known')
    · exact .inr (.inr known'')

/-- Jumps lead where they led, or to one of the given labels. -/
theorem targets (h : Edits given places n n') :
    ∀ id ∈ n'.targets, id ∈ n.targets ∨ id ∈ places := by
  induction h with
  | layer x below ih =>
    intro id inside
    simp only [Node.targets_mk, Shape.ownTargets_map, Shape.children_map, List.mem_append,
      List.mem_flatMap, List.mem_map] at inside ⊢
    rcases inside with own | ⟨_, ⟨y, child, rfl⟩, inside⟩
    · exact .inl (.inl own)
    · exact (ih y child id inside).imp_left fun old ↦ .inr ⟨_, ⟨y, child, rfl⟩, old⟩
  | raise known => simp [Node.targets_mk, Shape.children, Shape.ownTargets]
  | jump known known' =>
    intro id inside
    simp only [Node.targets_mk, Shape.children, Shape.ownTargets, List.nil_append,
      List.flatMap_cons, List.flatMap_nil, List.append_nil, List.mem_singleton] at inside
    exact .inr (inside ▸ known')
  | ret value known known' known'' ih =>
    intro id inside
    simp only [Node.targets_mk, Shape.children, Shape.ownTargets, List.nil_append,
      List.flatMap_cons, List.flatMap_nil, List.append_nil, List.mem_append, List.mem_singleton,
      Option.toList_some] at inside ⊢
    rcases inside with inside | rfl
    · exact ih id inside
    · exact .inr known''
  | retUnit known known' known'' =>
    intro id inside
    simp only [Node.targets_mk, Shape.children, Shape.ownTargets, List.nil_append,
      List.flatMap_cons, List.flatMap_nil, List.append_nil, List.mem_singleton] at inside
    exact .inr (inside ▸ known'')

/-- Operands that are kept are copied as they are. -/
theorem shape_of_kept {keeps : SymbolId → Prop} (h : Edits given places n n')
    (kept : n.Kept keeps) :
    n'.shape = n.shape := by
  cases h with
  | layer x below => cases x <;> first | rfl | exact kept.elim
  | _ => exact kept.elim

/-- Variables are used where they are bound, if those that were given are bound. -/
theorem inScope (h : Edits given places n n') {bound : SymbolId → Prop} (within : n.Scoped bound)
    (known : ∀ id ∈ given, bound id) : n'.Scoped bound := by
  -- What is put in place of an exit are marks and nodes without children.
  have plain {bound : SymbolId → Prop} {i : NodeId} {sh : Shape Node} (uses : sh.uses = [])
      (below : sh.children = []) : Node.Scoped bound ⟨i, sh⟩ := by
    refine Node.scoped_mk.2 ⟨by simp [uses], fun vs c member ↦ ?_⟩
    have := List.mem_map_of_mem (f := Prod.snd) member
    rw [Shape.map_snd_scopes, below] at this
    cases this
  have mark {bound : SymbolId → Prop} {i j : NodeId} {v : Variable} {number : Literal}
      (known : bound v.id) : Node.Scoped bound ⟨i, .assign v ⟨j, .const number⟩⟩ := by
    refine Node.scoped_mk.2 ⟨by simpa [Shape.uses] using known, fun vs c member ↦ ?_⟩
    cases List.mem_singleton.1 member
    exact plain rfl rfl
  induction h generalizing bound with
  | layer x below ih =>
    rw [Node.scoped_mk, Shape.uses_map, Shape.scopes_map] at within ⊢
    refine ⟨within.1, fun vs c member ↦ ?_⟩
    obtain ⟨⟨vs, y⟩, inside, eq⟩ := List.mem_map.1 member
    cases eq
    have child : y ∈ x.children := by
      rw [← x.map_snd_scopes]
      exact List.mem_map_of_mem (f := Prod.snd) inside
    have source : (vs, y.1) ∈ x.scopes.map fun (vs, a) ↦ (vs, a.1) :=
      List.mem_map_of_mem (f := fun (vs, a) ↦ (vs, a.1)) inside
    exact ih y child (within.2 vs y.1 source) fun id inside ↦ .inr (known id inside)
  | raise given =>
    refine Node.scoped_mk.2 ⟨nofun, fun vs c member ↦ ?_⟩
    cases List.mem_singleton.1 member
    exact Node.scoped_mk.2 ⟨by simpa [Shape.uses] using known _ given, nofun⟩
  | jump given given' =>
    refine Node.scoped_mk.2 ⟨nofun, fun vs c member ↦ ?_⟩
    obtain ⟨m, inside, eq⟩ := List.mem_map.1 member
    cases eq
    rcases List.mem_pair.1 inside with rfl | rfl
    · exact mark (.inr (known _ given))
    · exact plain rfl rfl
  | ret value given given' given'' ih =>
    have value := (Node.scoped_mk.1 within).2 [] _ (List.mem_singleton.2 rfl)
    refine Node.scoped_mk.2 ⟨nofun, fun vs c member ↦ ?_⟩
    obtain ⟨m, inside, eq⟩ := List.mem_map.1 member
    cases eq
    simp only [List.mem_cons, List.not_mem_nil, or_false] at inside
    rcases inside with rfl | rfl | rfl
    · refine Node.scoped_mk.2 ⟨by simpa [Shape.uses] using known _ given,
        fun vs c member ↦ ?_⟩
      cases List.mem_singleton.1 member
      exact (ih value fun id inside ↦ .inr (known id inside)).mono fun id inside ↦ .inr inside
    · exact mark (.inr (known _ given'))
    · exact plain rfl rfl
  | retUnit given given' given'' =>
    refine Node.scoped_mk.2 ⟨nofun, fun vs c member ↦ ?_⟩
    obtain ⟨m, inside, eq⟩ := List.mem_map.1 member
    cases eq
    simp only [List.mem_cons, List.not_mem_nil, or_false] at inside
    rcases inside with rfl | rfl | rfl
    · refine Node.scoped_mk.2 ⟨by simpa [Shape.uses] using known _ given,
        fun vs c member ↦ ?_⟩
      cases List.mem_singleton.1 member
      exact plain rfl rfl
    · exact mark (.inr (known _ given'))
    · exact plain rfl rfl

/-- What can be come back to in a tree can be come back to in the copy, if what was given is
fresh. -/
theorem ready {keeps : SymbolId → Prop} (h : Edits given places n n')
    (below : ∀ m ∈ n.walk, m.Ready keeps) (fresh : ∀ id ∈ given ++ places, id ∉ n.symbols) :
    ∀ m ∈ n'.walk, m.Ready keeps := by
  have plain {i : NodeId} {sh : Shape Node} (operands : sh.operands = [])
      (other : (sh.kind == .region || sh.kind == .lock) = false)
      (below : ∀ c ∈ sh.children, ∀ m ∈ c.walk, m.Ready keeps) :
      ∀ m ∈ Node.walk ⟨i, sh⟩, m.Ready keeps := by
    obtain ⟨region, lock⟩ := Bool.or_eq_false_iff.1 other
    exact Node.forall_walk_mk.2
      ⟨.of_plain operands (beq_eq_false_iff_ne.1 region) (beq_eq_false_iff_ne.1 lock), below⟩
  have leaf {i : NodeId} {sh : Shape Node} (children : sh.children = [])
      (operands : sh.operands = []) (other : (sh.kind == .region || sh.kind == .lock) = false) :
      ∀ m ∈ Node.walk ⟨i, sh⟩, m.Ready keeps :=
    plain operands other (by simp [children])
  have mark {i j : NodeId} {v : Variable} {number : Literal} :
      ∀ m ∈ Node.walk ⟨i, .assign v ⟨j, .const number⟩⟩, m.Ready keeps :=
    plain rfl rfl fun c child ↦ by
      cases List.mem_singleton.1 child
      exact leaf rfl rfl rfl
  induction h with
  | @layer i i' x edits ih =>
    have fresh' : ∀ y ∈ x.children, ∀ id ∈ given ++ places, id ∉ y.1.symbols := by
      intro y child id known inside
      refine fresh id known ?_
      rw [Node.symbols_mk, Shape.children_map]
      exact List.mem_append_right _
        (List.mem_flatMap.2 ⟨_, List.mem_map_of_mem child, inside⟩)
    rw [Node.forall_walk_mk, Shape.children_map] at below ⊢
    refine ⟨below.1.rebuilt (fun y child ↦ (edits y child).containsAwait)
      (fun y child kept ↦ (edits y child).shape_of_kept kept) ?_,
      List.forall_mem_map.2 fun y child ↦ ih y child
        (below.2 y.1 (List.mem_map_of_mem child)) (fresh' y child)⟩
    -- Copies of siblings share no symbol but one of the source: what was given is fresh.
    intro y child z child' id inside inside'
    rcases (edits z child').symbols id inside' with old | new
    · exact old
    · exact absurd inside (fresh' y child id (List.mem_append.2 new))
  | raise =>
    exact plain rfl rfl fun c child ↦ by
      cases List.mem_singleton.1 child
      exact leaf rfl rfl rfl
  | jump =>
    refine plain rfl rfl fun c child ↦ ?_
    rcases List.mem_pair.1 child with rfl | rfl
    · exact mark
    · exact leaf rfl rfl rfl
  | @ret i j k l m o leave keep mk number v v' value known known' known'' ih =>
    have value := ih ((Node.forall_walk_mk.1 below).2 _ (List.mem_singleton.2 rfl))
      fun id inside found ↦ fresh id inside (by simpa [Node.symbols_mk, Shape.children,
        Shape.ownSymbols] using found)
    refine plain rfl rfl fun c child ↦ ?_
    simp only [Shape.children, List.mem_cons, List.not_mem_nil, or_false] at child
    rcases child with rfl | rfl | rfl
    · refine plain rfl rfl fun c child ↦ ?_
      cases List.mem_singleton.1 child
      exact value
    · exact mark
    · exact leaf rfl rfl rfl
  | retUnit =>
    refine plain rfl rfl fun c child ↦ ?_
    simp only [Shape.children, List.mem_cons, List.not_mem_nil, or_false] at child
    rcases child with rfl | rfl | rfl
    · refine plain rfl rfl fun c child ↦ ?_
      cases List.mem_singleton.1 child
      exact leaf rfl rfl rfl
    · exact mark
    · exact leaf rfl rfl rfl

end Edits

end Suspension
