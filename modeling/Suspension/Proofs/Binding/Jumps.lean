import Suspension.Proofs.Layout
import Suspension.Proofs.Preparation.Weight

/-!
# Jumps and labels

Every pass keeps the labels of a body where jumps find them: each is defined as often as before, and
what a pass adds is fresh. Jumps still lead where they led, but for those that a pass makes, and the
labels of those are in what it made (`Redirects`). So in a lowered body, as in the body it was made
from, every label is defined once and every jump leads to one.
-/

namespace Suspension

open Handlers Build Spill Steps

/-! ### How often a label is defined -/

/-- The weight that counts how often a layer defines a label. -/
def labelWeight (id : SymbolId) (sh : Shape Unit) : Nat :=
  sh.ownLabels.count id

theorem plain_labelWeight (id : SymbolId) : Plain (labelWeight id) := by
  intro sh plumbing
  cases sh <;> first | rfl | cases plumbing

theorem Node.count_labelsWithin (n : Node) (id : SymbolId) :
    n.labelsWithin.count id = n.weight (labelWeight id) := by
  induction n using Node.induction with
  | step n ih =>
    obtain ⟨i, sh⟩ := n
    have own : labelWeight id sh.form = sh.ownLabels.count id := by cases sh <;> rfl
    have below (ns : List Node)
        (h : ∀ n ∈ ns, n.labelsWithin.count id = n.weight (labelWeight id)) :
        (ns.flatMap labelsWithin).count id = total (Node.weight (labelWeight id)) ns := by
      induction ns with
      | nil => rfl
      | cons n ns more =>
        obtain ⟨head, tail⟩ := List.forall_mem_cons.1 h
        rw [List.flatMap_cons, List.count_append, head, more tail, total_cons]
    rw [labelsWithin_mk, List.count_append, weight_mk, own, below sh.children ih]

/-- Label nodes weigh as often as they define the label. -/
theorem total_labelWeight (id : SymbolId) (ls : List Label) :
    total (fun l ↦ labelWeight id (.label l)) ls = (ls.map Label.id).count id := by
  induction ls with
  | nil => rfl
  | cons l ls ih =>
    rw [total_cons, ih, List.map_cons, List.count_cons, labelWeight, Shape.ownLabels,
      List.count_singleton, Nat.add_comm]

/-- The preparation of a body adds fresh labels to it, each of them once. -/
theorem Node.prepare_labels {body prepared : Node} {s s' : Supply}
    (h : runs (body.prepare {}) s prepared s') : ∃ leaves : List Label,
      (leaves.map Label.id).Sublist (s.fresh s') ∧ ∀ id, prepared.labelsWithin.count id =
        body.labelsWithin.count id + (leaves.map Label.id).count id := by
  obtain ⟨spilled, s₁, spills, reduces⟩ := runs_prepare h
  obtain ⟨leaves, weighs⟩ := reduce_weighs reduces
  have fresh : (s₁.fresh s').Sublist (s.fresh s') := by
    rw [← Supply.fresh_append (spill_census spills).symbol_le weighs.symbol_le]
    exact List.sublist_append_right _ _
  refine ⟨leaves, weighs.fresh.trans fresh, fun id ↦ ?_⟩
  rw [count_labelsWithin, count_labelsWithin, weighs.weight (plain_labelWeight id),
    spill_weight (plain_labelWeight id) spills, total_labelWeight]

/-! ### Where jumps lead -/

/-- Trees that stand for some others: they have their labels, and jumps lead where they led or to a
label among the trees. -/
structure Redirects (parts ns : List Node) : Prop where
  labels : parts.flatMap Node.labelsWithin ⊆ ns.flatMap Node.labelsWithin
  targets : ∀ id ∈ ns.flatMap Node.targets,
    id ∈ parts.flatMap Node.targets ∨ id ∈ ns.flatMap Node.labelsWithin

namespace Redirects

variable {ps ps' bs ns ns' : List Node} {n : Node}

theorem refl (ns : List Node) : Redirects ns ns :=
  ⟨List.Subset.refl _, fun _ ↦ .inl⟩

theorem append (h : Redirects ps ns) (h' : Redirects ps' ns') :
    Redirects (ps ++ ps') (ns ++ ns') := by
  constructor
  · rw [List.flatMap_append, List.flatMap_append]
    exact List.append_subset.2 ⟨List.subset_append_of_subset_left _ h.labels,
      List.subset_append_of_subset_right _ h'.labels⟩
  · intro id inside
    simp only [List.flatMap_append, List.mem_append] at inside ⊢
    rcases inside with inside | inside
    · exact (h.targets id inside).imp .inl .inl
    · exact (h'.targets id inside).imp .inr .inr

theorem trans (h : Redirects ps bs) (h' : Redirects bs ns) : Redirects ps ns := by
  refine ⟨List.Subset.trans h.labels h'.labels, fun id inside ↦ ?_⟩
  rcases h'.targets id inside with old | new
  · exact (h.targets id old).imp_right fun inside ↦ h'.labels inside
  · exact .inr new

/-- A layer stands for what its children stand for, if it neither jumps nor defines a label. -/
theorem layer {i : NodeId} {sh : Shape Node} (labels : sh.ownLabels = [])
    (targets : sh.ownTargets = []) (h : Redirects ps sh.children) : Redirects ps [⟨i, sh⟩] := by
  have labels : Node.labelsWithin ⟨i, sh⟩ = sh.children.flatMap Node.labelsWithin := by
    rw [Node.labelsWithin_mk, labels, List.nil_append]
  have targets : Node.targets ⟨i, sh⟩ = sh.children.flatMap Node.targets := by
    rw [Node.targets_mk, targets, List.nil_append]
  constructor
  · rw [List.flatMap_singleton, labels]
    exact h.labels
  · rw [List.flatMap_singleton, List.flatMap_singleton, labels, targets]
    exact h.targets

/-- A layer whose children are replaced. -/
theorem congr {i j : NodeId} {sh sh' : Shape Node} (labels : sh'.ownLabels = sh.ownLabels)
    (targets : sh'.ownTargets = sh.ownTargets) (h : Redirects sh.children sh'.children) :
    Redirects [⟨i, sh⟩] [⟨j, sh'⟩] := by
  constructor
  · simp only [List.flatMap_singleton, Node.labelsWithin_mk, labels]
    exact List.append_subset.2 ⟨List.subset_append_left _ _,
      List.subset_append_of_subset_right _ h.labels⟩
  · intro id inside
    simp only [List.flatMap_singleton, Node.labelsWithin_mk, Node.targets_mk, targets,
      List.mem_append] at inside ⊢
    rcases inside with own | below
    · exact .inl (.inl own)
    · exact (h.targets id below).imp .inr .inr

/-- The order of the trees makes no difference. -/
theorem perm (h : Redirects ps ns) (parts : ps.Perm ps') (made : ns.Perm ns') :
    Redirects ps' ns' := by
  refine ⟨fun id inside ↦ ?_, fun id inside ↦ ?_⟩
  · rw [← (made.flatMap_right _).mem_iff]
    exact h.labels ((parts.flatMap_right _).mem_iff.2 inside)
  · rw [← (made.flatMap_right _).mem_iff] at inside ⊢
    rw [← (parts.flatMap_right _).mem_iff]
    exact h.targets id inside

/-- What stands for the children of a layer stands for the layer, if it neither jumps nor defines
a label. -/
theorem of_layer {i : NodeId} {sh : Shape Node} (labels : sh.ownLabels = [])
    (targets : sh.ownTargets = []) (h : Redirects sh.children ns) : Redirects [⟨i, sh⟩] ns := by
  refine ⟨?_, fun id inside ↦ ?_⟩
  · rw [List.flatMap_singleton, Node.labelsWithin_mk, labels]
    exact h.labels
  · rw [List.flatMap_singleton, Node.targets_mk, targets]
    exact h.targets id inside

/-- Trees one by one. -/
theorem row {xs : List (Node × Node × Unit)} (h : ∀ x ∈ xs, Redirects [x.1] [x.2.1]) :
    Redirects (xs.map Prod.fst) (xs.map (·.2.1)) := by
  induction xs with
  | nil => exact .refl []
  | cons x xs ih =>
    obtain ⟨head, tail⟩ := List.forall_mem_cons.1 h
    exact head.append (ih tail)

end Redirects

/-! ### Spilling -/

theorem Stores.redirects {os os' stores : List Node} {ds : List Variable}
    (h : Stores os ds stores os') : Redirects os (stores ++ os') := by
  induction h with
  | nil => exact .refl []
  | @stored o os os' stores ds i j temp awaits needs rest ih =>
    have assigned : Redirects [o] [⟨i, .assign temp o⟩] := .layer rfl rfl (.refl [o])
    have read : Redirects [] [⟨j, .var temp⟩] := .layer rfl rfl (.refl [])
    exact (assigned.append (read.append ih)).perm (.refl _) (by
      simpa using List.perm_middle.symm)
  | @left o os os' stores ds stays rest ih =>
    exact ((Redirects.refl [o]).append ih).perm (.refl _) (by simpa using List.perm_middle.symm)

theorem SpillsLayer.redirects {sh : Shape Node} {s s' : Supply} {n' : Node}
    (h : SpillsLayer sh s n' s') (i : NodeId) : Redirects [⟨i, sh⟩] [n'] := by
  cases h with
  | same j none symbol => exact .congr rfl rfl (.refl _)
  | @operands sh' os os' stores ds j _ _ same stored symbol_le names wrapped =>
    have source : sh.ownLabels = [] ∧ sh.ownTargets = [] ∧ sh.children = os := by
      cases same <;> exact ⟨rfl, rfl, rfl⟩
    have made : sh'.ownLabels = [] ∧ sh'.ownTargets = [] ∧ sh'.children = os' := by
      cases same <;> exact ⟨rfl, rfl, rfl⟩
    obtain ⟨labels, targets, children⟩ := source
    obtain ⟨labels', targets', children'⟩ := made
    have value : Redirects os' [⟨j, sh'⟩] := by
      refine .layer labels' targets' ?_
      rw [children']
      exact .refl os'
    refine .of_layer labels targets ?_
    rw [children]
    cases wrapped with
    | bare none =>
      subst none
      have all := stored.redirects
      rw [stored.eq_of_nil.1, List.nil_append] at all
      exact all.trans value
    | block k some =>
      exact stored.redirects.trans (.layer rfl rfl ((Redirects.refl stores).append value))

/-- Spilling leaves jumps and labels as they are. -/
theorem Node.spill_redirects {n n' : Node} {s s' : Supply} (h : runs n.spill s n' s') :
    Redirects [n] [n'] := by
  induction n using Node.induction generalizing s n' s' with
  | step n ih =>
    rw [spill_eq, runs_bind] at h
    obtain ⟨sh, s₁, children, step⟩ := h
    obtain ⟨x, source, rfl, threads⟩ := Runs.shape (f := spill)
      (Q := fun n _ n' _ (_ : Unit) ↦ Redirects [n] [n'])
      (fun a child _ _ _ run ↦ ⟨(), ih a child run⟩) children
    obtain ⟨i, shape⟩ := n
    obtain rfl : x.map Prod.fst = shape := source
    have rebuilt : Redirects [⟨i, x.map Prod.fst⟩] [⟨i, x.map (·.2.1)⟩] := by
      refine .congr (by cases x <;> rfl) (by simp) ?_
      rw [Shape.children_map, Shape.children_map]
      refine .row fun y member ↦ ?_
      obtain ⟨_, _, made⟩ := threads.of_mem member
      exact made
    exact rebuilt.trans ((runs_spillLayer step).redirects i)

/-! ### Moving handlers -/

section Pieces

variable {n : Node}

theorem IsMark.redirects {v : Variable} {value : Literal} (h : IsMark v value n) :
    Redirects [] [n] := by
  cases h
  exact .layer rfl rfl (.layer rfl rfl (.refl []))

theorem IsCopy.redirects {target source : Variable} (h : IsCopy target source n) :
    Redirects [] [n] := by
  cases h
  exact .layer rfl rfl (.layer rfl rfl (.refl []))

theorem IsRaise.redirects {v : Variable} (h : IsRaise v n) : Redirects [] [n] := by
  cases h
  exact .layer rfl rfl (.layer rfl rfl (.refl []))

theorem IsCatchAll.redirects {cap : Captured} {e : Variable} {c : Clause Node}
    (h : IsCatchAll cap e c) : Redirects [] c.children := by
  cases h with
  | mk i copies marks => exact .layer rfl rfl (copies.redirects.append marks.redirects)

/-- A copy with no label to lead to instead. -/
theorem Edits.redirects {given : List SymbolId} {n' : Node} (h : Edits given [] n n') :
    Redirects [n] [n'] := by
  refine ⟨?_, fun id inside ↦ .inl ?_⟩
  · rw [List.flatMap_singleton, List.flatMap_singleton, h.labelsWithin]
    exact List.Subset.refl _
  · rw [List.flatMap_singleton] at inside ⊢
    exact (h.targets id inside).resolve_right List.not_mem_nil

/-- A clause that is moved leaves its filter in place and takes its body along. -/
theorem MovesClauses.redirects {cap : Captured} {which : Variable} {k : Nat}
    {cs : List (Clause Node)} {m : Moved} {new : List Variable}
    (h : MovesClauses cap which k cs m new) : Redirects (cs.flatMap Clause.children)
      (m.clauses.flatMap Clause.children ++ m.cases.map Case.body) := by
  induction h with
  | nil => exact .refl []
  | @cons k c clause case cs m first rest v holds head tail ih =>
    have moved : Redirects c.children (clause.children ++ [case.body]) := by
      cases head with
      | @mk i i' j keep mark restore handler copies marks edits restores =>
        have note : Redirects [] [⟨i, .block [] [keep, mark]⟩] :=
          .layer rfl rfl (copies.redirects.append marks.redirects)
        have handles : Redirects [c.body]
            [⟨i', .block [] [restore, ⟨j, .assign cap.value handler⟩]⟩] :=
          .layer rfl rfl (restores.redirects.append (.layer rfl rfl edits.redirects))
        have all := (Redirects.refl c.filter.toList).append (note.append handles)
        simpa [Clause.children] using all
    rw [List.flatMap_cons, List.flatMap_cons, List.map_cons, ← List.singleton_append]
    exact (moved.append ih).perm (.refl _) (Adds.perm_interleave _ _ _ _)

/-- The end of a protected body has the label that exits lead to. -/
theorem IsInside.redirects {value inside : Node} {leave : Label} {left : List Leaving}
    (h : IsInside value leave left inside) : Redirects [value] [inside] ∧
      (leaveOf leave left).map Label.id ⊆ inside.labelsWithin := by
  cases h with
  | plain => exact ⟨.refl _, List.nil_subset _⟩
  | labelled i j some =>
    have label : Redirects [] [⟨j, .label leave⟩] := by
      refine ⟨List.nil_subset _, fun id inside ↦ ?_⟩
      simp [Node.targets_mk, Shape.children, Shape.ownTargets] at inside
    refine ⟨.layer rfl rfl ((Redirects.refl [value]).append label), ?_⟩
    rw [leaveOf, if_neg fun none ↦ some (List.isEmpty_iff.1 none)]
    simp [Node.labelsWithin_mk, Shape.children, Shape.ownLabels]

theorem ResumesExits.targets {exits : Exits} {k : Nat} {ls : List Leaving}
    {cases : List (Case Node)} (h : ResumesExits exits k ls cases) {among : SymbolId → Prop}
    (noted : Noted among ls) : ∀ id ∈ (cases.map Case.body).flatMap Node.targets, among id := by
  induction h with
  | nil => exact List.forall_mem_nil _
  | cons head tail ih =>
    rw [List.map_cons, List.flatMap_cons]
    refine List.forall_mem_append.2 ⟨?_, ih fun target member ↦
      noted target (List.mem_cons_of_mem _ member)⟩
    cases head with
    | jump i target =>
      have here := noted target List.mem_cons_self
      simpa [Node.targets_mk, Shape.children, Shape.ownTargets] using here
    | ret => simp [Node.targets_mk, Shape.children, Shape.ownTargets]

theorem DispatchesExits.targets {exits : Exits} {left : List Leaving} {dispatch : List Node}
    (h : DispatchesExits exits left dispatch) {among : SymbolId → Prop}
    (noted : Noted among left) : ∀ id ∈ dispatch.flatMap Node.targets, among id := by
  cases h with
  | none => exact List.forall_mem_nil _
  | switch i j some resumes =>
    have cases := resumes.targets noted
    simpa [Node.targets_mk, Shape.children, Shape.ownTargets] using cases

end Pieces

section Regions

variable {body n : Node} {cs : List (Clause Node)} {cleanup fault : Option Node} {s s' : Supply}

theorem MovesCaught.redirects {ids : List SymbolId} (h : MovesCaught body cs n ids) :
    Redirects (body :: cs.flatMap Clause.children) [n] := by
  cases h with
  | @mk i i₁ i₂ i₃ i₄ i₅ cap which m new start clauses starts =>
    have value : Redirects [body] [⟨i₂, .assign cap.value body⟩] := .layer rfl rfl (.refl _)
    have test : Redirects [] [⟨i₄, .var which⟩] := .layer rfl rfl (.refl [])
    have result : Redirects [] [⟨i₅, .var cap.value⟩] := .layer rfl rfl (.refl [])
    have region : Redirects (⟨i₂, .assign cap.value body⟩ :: m.clauses.flatMap Clause.children)
        [⟨i₁, .region ⟨i₂, .assign cap.value body⟩ m.clauses none none⟩] :=
      .layer rfl rfl (by simpa [Shape.children] using .refl _)
    have handle : Redirects (m.cases.map Case.body)
        [⟨i₃, .switch ⟨i₄, .var which⟩ m.cases none⟩] :=
      .layer rfl rfl (by simpa [Shape.children] using test.append (.refl _))
    have parts := (value.append clauses.redirects).trans (by simpa using region.append handle)
    have all := starts.redirects.append (parts.append result)
    simp only [List.append_nil] at all
    exact .layer rfl rfl all

theorem MovesFault.redirects {fault : Node} {ids : List SymbolId}
    (h : MovesFault body fault n ids) : Redirects [body, fault] [n] := by
  cases h with
  | @mk i i₁ i₂ i₃ i₄ i₅ i₆ cap e start again clause starts catches raises =>
    have value : Redirects [body] [⟨i₂, .assign cap.value body⟩] := .layer rfl rfl (.refl _)
    have test : Redirects [] [⟨i₄, .var cap.caught⟩] := .layer rfl rfl (.refl [])
    have result : Redirects [] [⟨i₆, .var cap.value⟩] := .layer rfl rfl (.refl [])
    have region : Redirects [body]
        [⟨i₁, .region ⟨i₂, .assign cap.value body⟩ [clause] none none⟩] :=
      .layer rfl rfl (by simpa [Shape.children] using value.append catches.redirects)
    have again : Redirects [fault] [⟨i₅, .block [] [fault, again]⟩] :=
      .layer rfl rfl ((Redirects.refl [fault]).append raises.redirects)
    have handle : Redirects [fault]
        [⟨i₃, .branch ⟨i₄, .var cap.caught⟩ ⟨i₅, .block [] [fault, _]⟩ none⟩] :=
      .layer rfl rfl (test.append again)
    exact .layer rfl rfl (starts.redirects.append (region.append (handle.append result)))

theorem MovesCleanup.redirects {cleanup : Node} {ids : List SymbolId}
    (h : MovesCleanup body cleanup n ids) : Redirects [body, cleanup] [n] := by
  cases h with
  | @mk i i₁ i₂ i₃ i₄ i₅ cap exits e start clear copied inside raises dispatch left clause named
      starts clears edits noted isInside catches again dispatches =>
    obtain ⟨within, leave⟩ := isInside.redirects
    have value : Redirects [copied] [⟨i₂, .assign cap.value copied⟩] := .layer rfl rfl (.refl _)
    have test : Redirects [] [⟨i₄, .var cap.caught⟩] := .layer rfl rfl (.refl [])
    have result : Redirects [] [⟨i₅, .var cap.value⟩] := .layer rfl rfl (.refl [])
    have branch : Redirects [] [⟨i₃, .branch ⟨i₄, .var cap.caught⟩ raises none⟩] :=
      .layer rfl rfl (test.append again.redirects)
    -- Exits that are noted lead to the end of the body, and from the dispatch to where they led.
    have exits : Redirects [body] (inside :: dispatch) := by
      have all := value.trans within
      refine ⟨?_, fun id member ↦ ?_⟩
      · have labels := all.labels
        simp only [List.flatMap_singleton, edits.labelsWithin] at labels
        rw [List.flatMap_singleton, List.flatMap_cons]
        exact List.subset_append_of_subset_left _ labels
      · simp only [List.flatMap_cons, List.flatMap_nil, List.append_nil, List.mem_append]
          at member ⊢
        rcases member with member | member
        · rcases all.targets id (by simpa using member) with old | new
          · rw [List.flatMap_singleton] at old
            exact (edits.targets id old).imp_right fun new ↦ .inl (leave new)
          · exact .inr (.inl (by simpa using new))
        · exact .inl (dispatches.targets (noted fun _ inside ↦ inside) id member)
    have region : Redirects [inside] [⟨i₁, .region inside [clause] none none⟩] :=
      .layer rfl rfl (by simpa [Shape.children] using
        (Redirects.refl [inside]).append catches.redirects)
    have parts : Redirects ([body] ++ [cleanup]) ([⟨i₁, .region inside [clause] none none⟩] ++
        [cleanup] ++ dispatch) := by
      refine (exits.append (.refl [cleanup])).trans ?_
      have all := (region.append (.refl [cleanup])).append (.refl dispatch)
      exact all.perm (by simpa using (List.perm_append_singleton cleanup dispatch).symm) (.refl _)
    have all := (starts.redirects.append clears.redirects).append
      (parts.append (branch.append result))
    refine .layer rfl rfl (all.perm (.refl _) ?_)
    simp [Shape.children]

theorem withClauses_redirects (h : runs (withClauses cs body) s n s') :
    Redirects (body :: cs.flatMap Clause.children) [n] := by
  rw [withClauses] at h
  split at h
  · rename_i none
    obtain ⟨rfl, rfl⟩ := runs_pure.1 h
    rw [List.isEmpty_iff.1 none]
    exact .refl [n]
  · split at h
    · obtain ⟨ids, moves, -⟩ := runs_reduceClauses h
      exact moves.redirects
    · obtain ⟨rfl, rfl⟩ := runs_build h
      exact .layer rfl rfl (by simpa [Shape.children] using .refl _)

theorem withCleanup_redirects (h : runs (withCleanup cleanup body) s n s') :
    Redirects (body :: cleanup.toList) [n] := by
  cases cleanup with
  | none =>
    obtain ⟨rfl, rfl⟩ := runs_pure.1 h
    exact .refl [n]
  | some part =>
    rw [withCleanup] at h
    split at h
    · obtain ⟨ids, moves, -⟩ := runs_reduceCleanup h
      exact moves.redirects
    · obtain ⟨rfl, rfl⟩ := runs_build h
      exact .layer rfl rfl (.refl [body, part])

theorem withFault_redirects (h : runs (withFault fault body) s n s') :
    Redirects (body :: fault.toList) [n] := by
  cases fault with
  | none =>
    obtain ⟨rfl, rfl⟩ := runs_pure.1 h
    exact .refl [n]
  | some part =>
    rw [withFault] at h
    split at h
    · obtain ⟨ids, moves, -⟩ := runs_reduceFault h
      exact moves.redirects
    · obtain ⟨rfl, rfl⟩ := runs_build h
      exact .layer rfl rfl (.refl [body, part])

/-- A region that is taken apart stands for its parts. -/
theorem reduceRegion_redirects (h : runs (reduceRegion body cs cleanup fault) s n s') :
    Redirects (body :: cs.flatMap Clause.children ++ cleanup.toList ++ fault.toList) [n] := by
  rw [reduceRegion_eq] at h
  split at h
  · obtain ⟨rfl, rfl⟩ := runs_build h
    exact .layer rfl rfl (.refl _)
  · simp only [runs_bind] at h
    obtain ⟨b₁, s₁, first, b₂, s₂, second, third⟩ := h
    have inner := ((withClauses_redirects first).append (.refl cleanup.toList)).trans
      (withCleanup_redirects second)
    exact (inner.append (.refl fault.toList)).trans (withFault_redirects third)

end Regions

/-- Moving handlers redirects jumps, and no label is lost. -/
theorem Node.reduce_redirects {n n' : Node} {s s' : Supply}
    (h : runs n.reduceHandlers s n' s') : Redirects [n] [n'] := by
  induction n using Node.induction generalizing s n' s' with
  | step n ih =>
    obtain ⟨i, sh⟩ := n
    obtain ⟨x, s₁, rfl, threads, step⟩ := reduce_opens h
    have rebuilt : Redirects [⟨i, x.map Prod.fst⟩] [⟨i, x.map (·.2.1)⟩] := by
      refine .congr (by cases x <;> rfl) (by simp) ?_
      rw [Shape.children_map, Shape.children_map]
      refine .row fun y member ↦ ?_
      obtain ⟨_, _, run⟩ := threads.of_mem member
      exact ih y.1 (mem_children_map member) run
    refine rebuilt.trans ?_
    cases x with
    | region body clauses cleanup fault =>
      exact .of_layer rfl rfl (reduceRegion_redirects step)
    | _ =>
      obtain ⟨rfl, rfl⟩ := runs_build step
      exact .congr rfl rfl (.refl _)

/-- Jumps of a body that is prepared lead where they led, or to a label that was added. -/
theorem Node.prepare_redirects {body prepared : Node} {s s' : Supply}
    (h : runs (body.prepare {}) s prepared s') : Redirects [body] [prepared] := by
  obtain ⟨spilled, s₁, spills, reduces⟩ := runs_prepare h
  exact (spill_redirects spills).trans (reduce_redirects reduces)

/-! ### Expansions -/

/-- Settling keeps the jumps. -/
theorem Node.targets_settle (n : Node) : n.settle.targets = n.targets := by
  induction n using Node.induction with
  | step n ih =>
    have layer : (⟨n.id, n.shape.map settle⟩ : Node).targets = n.targets := by
      obtain ⟨i, sh⟩ := n
      rw [targets_mk, targets_mk, Node.shape, Shape.ownTargets_map, Shape.children_map,
        List.flatMap_map]
      exact congrArg _ (List.flatMap_congr fun c child ↦ ih c child)
    rw [← layer, settle_eq]
    generalize n.shape.map settle = sh
    cases sh with
    | block declared ns => rfl
    | await operand acquire result =>
      dsimp only
      split <;> simp [targets_mk, Shape.children, Shape.ownTargets]
    | region body clauses cleanup fault =>
      dsimp only
      split <;> simp [targets_mk, Shape.children, Shape.ownTargets]
    | _ => rfl

section Pieces

variable {c : Contract} {n : Node}

theorem IsUpdate.targets {value : Int64} (h : IsUpdate c value n) : n.targets = [] := by
  cases h
  rfl

theorem IsReturn.targets {label : Label} (h : IsReturn c label n) : n.targets = [label.id] := by
  cases h with
  | mk _ _ update => simp [Node.targets_mk, Shape.children, Shape.ownTargets, update.targets]

theorem IsSuspension.targets {p : Point} (h : IsSuspension c p n) : n.targets = [c.exit.id] := by
  cases h with
  | mk _ _ _ _ update => simp [Node.targets_mk, Shape.children, Shape.ownTargets, update.targets]

theorem IsOutcome.targets {p : Point} (h : IsOutcome p n) : n.targets = [] := by
  cases h <;> rfl

theorem Leads.targets {i j : Int64} {label : Label} (h : Leads c i n label j) :
    n.targets = [label.id] := by
  cases h with
  | back isReturn => exact isReturn.targets
  | into => rfl

theorem IsPoint.targets {acquire : Option String} {p : Point} {o : Node}
    (h : IsPoint c acquire p o n) : n.targets = o.targets ++ [c.exit.id] := by
  cases h with
  | mk _ _ i _ _ _ _ _ _ _ j suspension outcomes update =>
    have acquired : Node.targets ⟨i, Expand.acquireShape acquire o⟩ = o.targets := by
      cases acquire <;> simp [Node.targets_mk, Expand.acquireShape, Shape.children,
        Shape.ownTargets]
    have value : Node.targets ⟨j, p.valueShape⟩ = [] := by
      rw [Point.valueShape]
      cases p.result <;> rfl
    generalize (⟨i, Expand.acquireShape acquire o⟩ : Node) = a at acquired
    generalize (⟨j, p.valueShape⟩ : Node) = v at value
    simp [Node.targets_mk, Shape.children, Shape.ownTargets, acquired, value,
      suspension.targets, outcomes.targets, update.targets]

theorem IsGuarded.targets {part : Node} (h : IsGuarded c part n) : n.targets = part.targets := by
  cases h
  simp [Node.targets_mk, Shape.children, Shape.ownTargets]

theorem guarded_targets {part part' : Option Node} (h : Option.Rel (IsGuarded c) part part') :
    part'.toList.flatMap Node.targets = part.toList.flatMap Node.targets := by
  cases h with
  | none => rfl
  | some guarded => simp [guarded.targets]

end Pieces

section Expansions

variable {keeps : SymbolId → Prop} {c : Contract} {p e : Node} {X : Added}

/-- The cases of a table lead to labels that are added together with it. -/
theorem Twin.table_targets (h : Twin keeps c p e X) {id : SymbolId}
    (inside : id ∈ (X.table.map Case.body).flatMap Node.targets) :
    id ∈ X.labels.map Label.id := by
  obtain ⟨_, among, inside⟩ := List.mem_flatMap.1 inside
  obtain ⟨case, member, rfl⟩ := List.mem_map.1 among
  obtain ⟨label, among, _, leads⟩ := h.leads 0 member
  rw [leads.targets, List.mem_singleton] at inside
  exact inside ▸ List.mem_map_of_mem among

/-- Jumps of an expansion lead where they led in the settled tree, out of the body, or to a label
that was added. -/
theorem Twin.targets (h : Twin keeps c p e X) : ∀ id ∈ e.targets,
    id ∈ p.targets ∨ id = c.exit.id ∨ id ∈ X.labels.map Label.id := by
  induction h with
  | same x below kind closed undeclared kept ih =>
    intro id inside
    rw [Node.targets_mk, Shape.ownTargets_map, Shape.children_map, List.mem_append] at inside ⊢
    rcases inside with own | inside
    · exact .inl (.inl own)
    · obtain ⟨_, member, inside⟩ := List.mem_flatMap.1 inside
      obtain ⟨y, child, rfl⟩ := List.mem_map.1 member
      refine (ih y child id inside).imp (fun old ↦ .inr ?_) (Or.imp_right fun new ↦ ?_)
      · exact List.mem_flatMap.2 ⟨y.1, List.mem_map_of_mem child, old⟩
      · refine (List.map_subset _ ?_) new
        exact Added.labels_subset_join (List.mem_map_of_mem child)
  | point operand isPoint isReturn interest ih =>
    intro id inside
    rw [isPoint.targets, List.mem_append, List.mem_singleton] at inside
    simp only [Node.targets_mk, Shape.children, Shape.ownTargets, List.nil_append,
      List.flatMap_singleton, Added.append_labels, List.map_append, List.mem_append]
    rcases inside with inside | rfl
    · exact (ih id inside).imp_right (Or.imp_right .inl)
    · exact .inr (.inl rfl)
  | unitPoint operand isPoint isReturn interest ih =>
    intro id inside
    rw [isPoint.targets, List.mem_append, List.mem_singleton] at inside
    simp only [Node.targets_mk, Shape.children, Shape.ownTargets, List.nil_append,
      List.flatMap_cons, List.flatMap_nil, List.append_nil, Added.append_labels, List.map_append,
      List.mem_append]
    rcases inside with inside | rfl
    · exact (ih id inside).imp_right (Or.imp_right .inl)
    · exact .inr (.inl rfl)
  | @region i j k l body' body e X entry cs cleanup fault cleanup' fault' bodies suspends clauses
      parts guarded guarded' entered ih ihs ihs' =>
    intro id inside
    cases entered with
    | mk i₀ i₁ i₂ i₃ i₄ i₅ =>
      let rest := cs.flatMap Clause.children ++ (cleanup.toList ++ fault.toList)
      -- Parts of the region that do not suspend jump where they jumped.
      have others (inside : id ∈ (rest.map Prod.snd).flatMap Node.targets) :
          id ∈ (rest.map Prod.fst).flatMap Node.targets ∨ id = c.exit.id := by
        obtain ⟨_, among, inside⟩ := List.mem_flatMap.1 inside
        obtain ⟨y, member, rfl⟩ := List.mem_map.1 among
        have each := (List.mem_append.1 member).elim (ihs y) (ihs' y)
        refine (each id inside).imp (fun old ↦ ?_) fun new ↦ new.resolve_right List.not_mem_nil
        exact List.mem_flatMap.2 ⟨y.1, List.mem_map_of_mem member, old⟩
      have source : Node.targets ⟨i, .block [] [⟨j, .region ⟨k, .block [] [body']⟩
          (cs.map (Clause.map Prod.fst)) (cleanup.map Prod.fst) (fault.map Prod.fst)⟩]⟩ =
          body'.targets ++ (rest.map Prod.fst).flatMap Node.targets := by
        simp [rest, Node.targets_mk, Shape.children, Shape.ownTargets, Clause.flatMap_children,
          Option.toList_map]
      have made : Node.targets ⟨i₀, .block [] [⟨i₁, .label entry⟩, ⟨i₂, .region ⟨i₃, .block []
          [⟨i₄, .switch ⟨i₅, .var c.localState⟩ X.table none⟩, body]⟩
          (cs.map (Clause.map Prod.snd)) cleanup' fault'⟩]⟩ =
          (X.table.map Case.body).flatMap Node.targets ++
            (body.targets ++ (rest.map Prod.snd).flatMap Node.targets) := by
        simp [rest, Node.targets_mk, Shape.children, Shape.ownTargets, Clause.flatMap_children,
          Option.toList_map, guarded_targets guarded, guarded_targets guarded']
      rw [source]
      rw [made] at inside
      simp only [Added.ofRegion, List.map_append, List.mem_append] at inside ⊢
      rcases inside with dispatch | inside | inside
      · exact .inr (.inr (.inl (bodies.table_targets dispatch)))
      · exact (ih id inside).imp .inl (Or.imp_right .inl)
      · exact (others inside).imp .inr .inl

end Expansions

/-! ### Lowered bodies -/

theorem IsAssembled.targets {c : Contract} {body root : Node} {table : Table}
    (h : IsAssembled c body table root) : root.targets =
      (table.map Case.body).flatMap Node.targets ++ body.targets := by
  cases h
  simp [Node.targets_mk, Shape.children, Shape.ownTargets]

namespace Layout

variable {l : Lowered} (L : Layout l)

/-- The labels of a lowered body: those of the tree that was prepared, those that were added, and
the one to leave by. -/
theorem count_labels (id : SymbolId) : l.body.labelsWithin.count id =
    L.prepared.labelsWithin.count id + (L.added.labels.map Label.id).count id +
      [l.contract.exit.id].count id := by
  rw [L.assembled.labels L.twin.table_labels, List.count_append, L.twin.count_labels,
    Node.labelsWithin_settle]

/-- A lowered body defines no label twice, if the tree that was prepared does not. -/
theorem labels_nodup (distinct : L.prepared.labelsWithin.Nodup) : l.body.labelsWithin.Nodup := by
  rw [List.nodup_iff_count_le_one] at distinct ⊢
  intro id
  have new : (L.added.labels.map Label.id ++ [l.contract.exit.id]).Nodup := by
    have names := List.nodup_append.1 L.names
    refine List.nodup_append.2 ⟨(List.nodup_append.1 names.2.1).2.1, List.nodup_singleton _, ?_⟩
    rintro label inside _ exit rfl
    cases List.mem_singleton.1 exit
    exact names.2.2 _ (by simp [Contract.names]) _ (List.mem_append_right _ inside) rfl
  have once := List.nodup_iff_count_le_one.1 new id
  rw [List.count_append] at once
  rw [L.count_labels]
  by_cases old : id ∈ L.prepared.labelsWithin
  · -- What was added is apart from the tree that was prepared.
    have apart : id ∉ L.added.labels.map Label.id ++ [l.contract.exit.id] := by
      intro inside
      refine L.apart id ?_ (L.prepared.labelsWithin_symbols old)
      rcases List.mem_append.1 inside with added | exit
      · exact List.mem_append_right _ (List.mem_append_right _ added)
      · cases List.mem_singleton.1 exit
        exact List.mem_append_left _ (by simp [Contract.names])
    have none := List.count_eq_zero.2 apart
    rw [List.count_append] at none
    have := distinct id
    omega
  · rw [List.count_eq_zero.2 old]
    omega

/-- Jumps of a lowered body lead to labels of it, if those of the tree that was prepared do. -/
theorem targets_defined (closed : L.prepared.targets ⊆ L.prepared.labelsWithin) :
    l.body.targets ⊆ l.body.labelsWithin := by
  have defined {id : SymbolId} (h : id ∈ L.prepared.labelsWithin ∨ id = l.contract.exit.id ∨
      id ∈ L.added.labels.map Label.id) : id ∈ l.body.labelsWithin := by
    refine List.count_pos_iff.1 ?_
    rw [L.count_labels]
    rcases h with old | rfl | added
    · have := List.count_pos_iff.2 old
      omega
    · simp
    · have := List.count_pos_iff.2 added
      omega
  intro id inside
  rw [L.assembled.targets] at inside
  rcases List.mem_append.1 inside with dispatch | inside
  · exact defined (.inr (.inr (L.twin.table_targets dispatch)))
  · refine defined ((L.twin.targets id inside).imp_left fun old ↦ closed ?_)
    rwa [Node.targets_settle] at old

end Layout

/-- **Lowering keeps jumps and labels.** Where a body defines no label twice and every jump leads to
one of its labels, so it is in the lowered body. -/
theorem Node.LowersTo.labels {body : Node} {supply : Supply} {l : Lowered}
    (lowers : body.LowersTo supply l) (distinct : body.labelsWithin.Nodup)
    (closed : body.targets ⊆ body.labelsWithin) :
    l.body.labelsWithin.Nodup ∧ l.body.targets ⊆ l.body.labelsWithin := by
  obtain ⟨L, s, s', -, le, prepares, whole, -⟩ := lowers.layout
  obtain ⟨leaves, fresh, counts⟩ := prepare_labels prepares
  have redirects := prepare_redirects prepares
  have old : body.Older s := lowers.1.le le
  refine ⟨L.labels_nodup ?_, L.targets_defined fun id inside ↦ ?_⟩
  · rw [List.nodup_iff_count_le_one] at distinct ⊢
    intro id
    have once := List.nodup_iff_count_le_one.1 ((Supply.fresh_nodup whole).sublist fresh) id
    rw [counts]
    by_cases own : id ∈ body.labelsWithin
    · have new : id ∉ leaves.map Label.id := fun inside ↦ by
        have := old id (body.labelsWithin_symbols own)
        have := (Supply.mem_fresh whole (fresh.subset inside)).1
        omega
      rw [List.count_eq_zero.2 new]
      exact distinct id
    · rw [List.count_eq_zero.2 own]
      omega
  · rcases redirects.targets id (by simpa using inside) with target | label
    · have known : id ∈ body.labelsWithin := closed (by simpa using target)
      simpa using redirects.labels (by simpa using known)
    · simpa using label

end Suspension
