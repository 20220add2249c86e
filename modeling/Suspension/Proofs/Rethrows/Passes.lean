import Suspension.Proofs.Layout
import Suspension.Proofs.Preparation.Reduced
import Suspension.Proofs.Rethrows.Handled

/-!
# Passes and bare rethrows

Where every bare rethrow of a body has an exception to raise, the same is so in the lowered body
(`Node.LowersTo.body_handled`). Behind a region no exception is being handled, so a rethrow in a
handler body that is moved there raises a variable instead (`rethrowAs_handled`). The clauses of a
region inside the moved body are left as they are: their bodies have exceptions of their own, and in
their filters no rethrow stands. The other passes leave rethrows where they are, and handle nothing
anew.
-/

namespace Suspension

open Handlers Build Steps Spill

/-! ### Spilling -/

section Spilling

variable {b : Bool}

/-- Storing operands keeps rethrows handled. -/
theorem Stores.handled {os os' stores : List Node} {ds : List Variable}
    (h : Stores os ds stores os') (handled : ∀ o ∈ os, o.Handled b) :
    ∀ n ∈ stores ++ os', n.Handled b := by
  induction h with
  | nil => exact handled
  | stored i j temp awaits needs rest ih =>
    obtain ⟨head, tail⟩ := List.forall_mem_cons.1 handled
    obtain ⟨stores, operands⟩ := List.forall_mem_append.1 (ih tail)
    have store : Node.Handled b ⟨i, .assign temp _⟩ :=
      .calm rfl (List.forall_mem_singleton.2 head)
    have use : Node.Handled b ⟨j, .var temp⟩ := .leaf rfl rfl
    exact List.forall_mem_append.2 ⟨List.forall_mem_cons.2 ⟨store, stores⟩,
      List.forall_mem_cons.2 ⟨use, operands⟩⟩
  | left stays rest ih =>
    obtain ⟨head, tail⟩ := List.forall_mem_cons.1 handled
    obtain ⟨stores, operands⟩ := List.forall_mem_append.1 (ih tail)
    exact List.forall_mem_append.2 ⟨stores, List.forall_mem_cons.2 ⟨head, operands⟩⟩

/-- Spilling a layer keeps rethrows handled. -/
theorem SpillsLayer.handled {i : NodeId} {sh : Shape Node} {s s' : Supply} {n' : Node}
    (h : SpillsLayer sh s n' s') (handled : Node.Handled b ⟨i, sh⟩) : n'.Handled b := by
  cases h with
  | same => exact handled.renumber
  | @operands sh' os os' stores ds j _ _ same stored _ _ wrapped =>
    have operands : ∀ o ∈ os, o.Handled b := by
      cases same <;> exact handled.child rfl
    obtain ⟨stores, operands⟩ := List.forall_mem_append.1 (stored.handled operands)
    have value : Node.Handled b ⟨j, sh'⟩ := by
      cases same <;> exact .calm rfl operands
    cases wrapped with
    | bare => exact value
    | block =>
      refine .calm rfl (List.forall_mem_append.2 ⟨stores, ?_⟩)
      exact List.forall_mem_singleton.2 value

/-- Operands are stored where they stood. -/
theorem Node.spill_handled {n n' : Node} {s s' : Supply} (h : runs n.spill s n' s')
    (handled : n.Handled b) : n'.Handled b := by
  induction n using Node.induction generalizing s n' s' b with
  | step n ih =>
    rw [spill_eq, runs_bind] at h
    obtain ⟨sh, s₁, children, step⟩ := h
    obtain ⟨x, source, rfl, threads⟩ := Runs.shape (f := spill)
      (Q := fun n s n' s' (_ : Unit) ↦ runs n.spill s n' s')
      (fun a child _ _ _ run ↦ ⟨(), run⟩) children
    obtain ⟨i, shape⟩ := n
    obtain rfl : x.map Prod.fst = shape := source
    refine (runs_spillLayer step).handled (i := i) (handled.rebuilt fun y member b ↦ ?_)
    obtain ⟨_, _, run⟩ := threads.of_mem member
    exact ih y.1 (mem_children_map member) run

end Spilling

/-! ### Moved handlers -/

/-- A copy that notes its exits rethrows where the original does. -/
theorem Edits.handled {given places : List SymbolId} {n n' : Node} (h : Edits given places n n')
    {b : Bool} (handled : n.Handled b) : n'.Handled b := by
  induction h generalizing b with
  | layer x below ih =>
    exact handled.rebuilt fun y child b ↦ ih y child
  | ret value known known' known'' ih =>
    have value := ih (handled.child rfl _ List.mem_cons_self)
    simp [Node.handled_mk, Shape.placed, Shape.children, Place.handles, value]
  | _ => simp [Node.handled_mk, Shape.placed, Shape.children]

/-- **A moved body needs no exception to be handled around it**: its rethrows raise what was caught,
but for those in bodies of its own clauses. -/
theorem rethrowAs_handled {ex : Variable} {n n' : Node} {s s' : Supply}
    (h : runs (rethrowAs ex n) s n' s') (handled : n.Handled true) : n'.Handled false := by
  induction n using Node.induction generalizing s n' s' with
  | step n ih =>
    obtain ⟨i, sh⟩ := n
    rw [rethrowAs_eq] at h
    have layer (calm : sh.isCalm = true) (run : runs (do node (← sh.mapM (rethrowAs ex))) s n' s') :
        n'.Handled false := by
      rw [runs_bind] at run
      obtain ⟨sh', s₁, mapped, made⟩ := run
      obtain ⟨rfl, rfl⟩ := runs_build made
      obtain ⟨x, rfl, rfl, threads⟩ := Runs.shape (f := rethrowAs ex)
        (Q := fun n s n' s' (_ : Unit) ↦ runs (rethrowAs ex n) s n' s')
        (fun a child _ _ _ run ↦ ⟨(), run⟩) mapped
      have below := handled.child calm
      rw [Shape.isCalm_map] at calm
      refine .calm (by rwa [Shape.isCalm_map]) ?_
      rw [Shape.children_map, List.forall_mem_map] at below ⊢
      intro y member
      obtain ⟨_, _, run⟩ := threads.of_mem member
      exact ih y.1 (Node.mem_children_map member) run (below y member)
    cases sh with
    | raise value =>
      cases value with
      | none =>
        obtain ⟨⟨j, k, rfl⟩, -⟩ := runs_raiseCaptured h
        simp [Node.handled_mk, Shape.placed, Shape.children]
      | some value => exact layer rfl h
    | region body clauses cleanup fault =>
      simp only [Node.shape, runs_bind] at h
      obtain ⟨body', s₁, bodies, cleanup', s₂, cleanups, fault', s₃, faults, made⟩ := h
      obtain ⟨rfl, rfl⟩ := runs_build made
      obtain ⟨inside, own, parts⟩ := Node.handled_region.1 handled
      obtain ⟨inCleanup, inFault⟩ := List.forall_mem_append.1 parts
      have copied {part part' : Option Node} {s s' : Supply}
          (children : ∀ c ∈ part.toList, c ∈ Node.children ⟨i, .region body clauses cleanup fault⟩)
          (run : runs (part.mapM (rethrowAs ex)) s part' s')
          (handled : ∀ c ∈ part.toList, c.Handled true) : ∀ c ∈ part'.toList, c.Handled false := by
        obtain ⟨x, rfl, rfl, threads⟩ := Runs.option (f := rethrowAs ex)
          (Q := fun n s n' s' (_ : Unit) ↦ runs (rethrowAs ex n) s n' s')
          (fun a child _ _ _ run ↦ ⟨(), run⟩) run
        rw [Option.toList_map, List.forall_mem_map] at children handled ⊢
        intro y member
        obtain ⟨_, _, run⟩ := threads.of_mem member
        exact ih y.1 (children y member) run (handled y member)
      refine Node.handled_region.2 ⟨ih body List.mem_cons_self bodies inside, own,
        List.forall_mem_append.2 ⟨copied (fun c member ↦ ?_) cleanups inCleanup,
          copied (fun c member ↦ ?_) faults inFault⟩⟩
      · exact List.mem_append_left _ (List.mem_append_right _ member)
      · exact List.mem_append_right _ member
    | _ => exact layer rfl h

section Pieces

variable {n : Node} (b : Bool)

theorem IsMark.handled {v : Variable} {value : Literal} (h : IsMark v value n) : n.Handled b := by
  cases h
  simp [Node.handled_mk, Shape.placed, Shape.children]

theorem IsCopy.handled {target source : Variable} (h : IsCopy target source n) : n.Handled b := by
  cases h
  simp [Node.handled_mk, Shape.placed, Shape.children]

theorem IsRaise.handled {v : Variable} (h : IsRaise v n) : n.Handled b := by
  cases h
  simp [Node.handled_mk, Shape.placed, Shape.children]

/-- Clauses that stand in a region: nothing is handled yet in their filters. -/
def ClausesHandled (cs : List (Clause Node)) : Prop :=
  ∀ c ∈ cs, (∀ filter ∈ c.filter, filter.Handled false) ∧ c.body.Handled true

/-- There is no rethrow in a clause that catches everything. -/
theorem IsCatchAll.handled {cap : Captured} {e : Variable} {c : Clause Node}
    (h : IsCatchAll cap e c) : ClausesHandled [c] := by
  cases h with
  | mk i copies marks =>
    refine List.forall_mem_singleton.2 ⟨nofun, .calm rfl ?_⟩
    exact List.forall_mem_cons.2 ⟨copies.handled _, List.forall_mem_singleton.2 (marks.handled _)⟩

variable {b}

/-- A protected body is handled if its value is. -/
theorem IsInside.handled {value : Node} {leave : Label} {left : List Leaving}
    (h : IsInside value leave left n) (handled : value.Handled b) : n.Handled b := by
  cases h with
  | plain => exact handled
  | labelled i j some =>
    simp [Node.handled_mk, Shape.placed, Shape.children, Place.handles, handled]

/-- There is no rethrow in the cases for noted exits. -/
theorem ResumesExits.handled {exits : Exits} {k : Nat} {ls : List Leaving}
    {cases : List (Case Node)} (h : ResumesExits exits k ls cases) :
    ∀ c ∈ cases, c.body.Handled b := by
  induction h with
  | nil => exact List.forall_mem_nil _
  | cons head tail ih =>
    refine List.forall_mem_cons.2 ⟨?_, ih⟩
    cases head <;> simp [Node.handled_mk, Shape.placed, Shape.children]

/-- There is no rethrow in the dispatch of noted exits. -/
theorem DispatchesExits.handled {exits : Exits} {left : List Leaving} {dispatch : List Node}
    (h : DispatchesExits exits left dispatch) : ∀ d ∈ dispatch, d.Handled b := by
  cases h with
  | none => exact List.forall_mem_nil _
  | switch i j some resumes =>
    simpa [Node.handled_mk, Shape.placed, Shape.children, Place.handles] using resumes.handled

/-- A clause that is moved leaves a note in its place, and its body stands in no clause any more. -/
theorem moveClauses_handled {cap : Captured} {which : Variable} {k : Nat} {cs : List (Clause Node)}
    {s s' : Supply} {m : Moved} (h : runs (moveClauses cap which k cs) s m s')
    (handled : ClausesHandled cs) :
    ClausesHandled m.clauses ∧ ∀ c ∈ m.cases, c.body.Handled false := by
  induction cs generalizing k s m with
  | nil =>
    rw [moveClauses, runs_pure] at h
    obtain ⟨rfl, rfl⟩ := h
    exact ⟨List.forall_mem_nil _, List.forall_mem_nil _⟩
  | cons c cs ih =>
    obtain ⟨⟨filter, body⟩, handled⟩ := List.forall_mem_cons.1 handled
    rw [moveClauses_cons, runs_bind] at h
    obtain ⟨bound, s₁, -, h⟩ := h
    simp only [moveClause, runs_bind, runs_pure] at h
    obtain ⟨keep, s₂, copies, mark, s₃, marks, note, s₄, notes, handler, s₅, edits,
      restore, s₆, restores, value, s₇, assigns, whole, s₈, block, moved, s₉, more, rfl, rfl⟩ := h
    obtain ⟨rfl, -⟩ := runs_seq notes
    obtain ⟨rfl, -⟩ := runs_build assigns
    obtain ⟨rfl, -⟩ := runs_seq block
    obtain ⟨clauses, cases⟩ := ih more handled
    have note : Node.Handled true ⟨s₃.node, .block [] [keep, mark]⟩ :=
      .calm rfl (List.forall_mem_cons.2 ⟨(runs_assignVar copies).1.handled _,
        List.forall_mem_singleton.2 ((runs_assignConst marks).1.handled _)⟩)
    have value : Node.Handled false ⟨s₆.node, .assign cap.value handler⟩ :=
      .calm rfl (List.forall_mem_singleton.2 (rethrowAs_handled edits body))
    have whole : Node.Handled false ⟨s₇.node, .block [] [restore, ⟨s₆.node, _⟩]⟩ :=
      .calm rfl (List.forall_mem_cons.2 ⟨(runs_assignVar restores).1.handled _,
        List.forall_mem_singleton.2 value⟩)
    exact ⟨List.forall_mem_cons.2 ⟨⟨filter, note⟩, clauses⟩, List.forall_mem_cons.2 ⟨whole, cases⟩⟩

end Pieces

/-! ### Regions -/

section Regions

variable {b : Bool} {body n : Node} {cs : List (Clause Node)} {cleanup fault : Option Node}
  {s s' : Supply}

/-- Reducing clauses keeps rethrows handled. -/
theorem reduceClauses_handled (h : runs (reduceClauses body cs) s n s') (inside : body.Handled b)
    (own : ClausesHandled cs) : n.Handled b := by
  simp only [reduceClauses, runs_bind] at h
  obtain ⟨cap, s₁, -, which, s₂, -, moved, s₃, moves, start, s₄, starts, value, s₅, values, region,
    s₆, regions, test, s₇, tests, handle, s₈, handles, result, s₉, results, block⟩ := h
  obtain ⟨clauses, cases⟩ := moveClauses_handled moves own
  obtain ⟨rfl, -⟩ := runs_build values
  obtain ⟨rfl, -⟩ := runs_build regions
  obtain ⟨rfl, -⟩ := runs_build tests
  obtain ⟨rfl, -⟩ := runs_build handles
  obtain ⟨rfl, -⟩ := runs_build results
  obtain ⟨rfl, -⟩ := runs_build block
  have value : Node.Handled b ⟨s₄.node, .assign cap.value body⟩ :=
    .calm rfl (List.forall_mem_singleton.2 inside)
  have region : Node.Handled b ⟨s₅.node, .region ⟨s₄.node, _⟩ moved.clauses none none⟩ :=
    Node.handled_region.2 ⟨value, clauses, List.forall_mem_nil _⟩
  have test : Node.Handled b ⟨s₆.node, .var which⟩ := .leaf rfl rfl
  have handle : Node.Handled b ⟨s₇.node, .switch ⟨s₆.node, .var which⟩ moved.cases none⟩ := by
    refine .calm rfl (List.forall_mem_cons.2
      ⟨test, List.forall_mem_append.2 ⟨?_, List.forall_mem_nil _⟩⟩)
    exact List.forall_mem_map.2 fun c member ↦ (cases c member).anywhere b
  refine .calm rfl (List.forall_mem_cons.2 ⟨(runs_assignConst starts).1.handled _, ?_⟩)
  refine List.forall_mem_cons.2 ⟨region, List.forall_mem_cons.2 ⟨handle, ?_⟩⟩
  exact List.forall_mem_singleton.2 (.leaf rfl rfl)

/-- Moving a fault body keeps rethrows handled. -/
theorem MovesFault.handled {part : Node} {ids : List SymbolId} (h : MovesFault body part n ids)
    (inside : body.Handled b) (handled : part.Handled b) : n.Handled b := by
  cases h with
  | @mk i i₁ i₂ i₃ i₄ i₅ i₆ cap e start again clause starts catches raises =>
    have value : Node.Handled b ⟨i₂, .assign cap.value body⟩ :=
      .calm rfl (List.forall_mem_singleton.2 inside)
    have region : Node.Handled b ⟨i₁, .region ⟨i₂, .assign cap.value body⟩ [clause] none none⟩ :=
      Node.handled_region.2 ⟨value, catches.handled, List.forall_mem_nil _⟩
    have test : Node.Handled b ⟨i₄, .var cap.caught⟩ := .leaf rfl rfl
    have inner : Node.Handled b ⟨i₅, .block [] [part, again]⟩ := .calm rfl
      (List.forall_mem_cons.2 ⟨handled, List.forall_mem_singleton.2 (raises.handled b)⟩)
    have handle : Node.Handled b ⟨i₃, .branch ⟨i₄, .var cap.caught⟩ ⟨i₅, .block [] [part, again]⟩
        none⟩ :=
      .calm rfl (List.forall_mem_cons.2 ⟨test, List.forall_mem_singleton.2 inner⟩)
    refine .calm rfl (List.forall_mem_cons.2 ⟨starts.handled b, ?_⟩)
    refine List.forall_mem_cons.2 ⟨region, List.forall_mem_cons.2 ⟨handle, ?_⟩⟩
    exact List.forall_mem_singleton.2 (.leaf rfl rfl)

/-- Moving a finally body keeps rethrows handled. -/
theorem MovesCleanup.handled {part : Node} {ids : List SymbolId} (h : MovesCleanup body part n ids)
    (inside : body.Handled b) (handled : part.Handled b) : n.Handled b := by
  cases h with
  | @mk i i₁ i₂ i₃ i₄ i₅ cap exits e start clear copied inner raises dispatch left clause named
      starts clears edits noted isInside catches again dispatches =>
    have value : Node.Handled b ⟨i₂, .assign cap.value copied⟩ :=
      .calm rfl (List.forall_mem_singleton.2 (edits.handled inside))
    have region : Node.Handled b ⟨i₁, .region inner [clause] none none⟩ :=
      Node.handled_region.2 ⟨isInside.handled value, catches.handled, List.forall_mem_nil _⟩
    have test : Node.Handled b ⟨i₃, .branch ⟨i₄, .var cap.caught⟩ raises none⟩ :=
      .calm rfl (List.forall_mem_cons.2
        ⟨.leaf rfl rfl, List.forall_mem_singleton.2 (again.handled b)⟩)
    refine .calm rfl (List.forall_mem_append.2 ⟨List.forall_mem_append.2
      ⟨?_, dispatches.handled⟩, List.forall_mem_singleton.2 (.leaf rfl rfl)⟩)
    simp only [List.forall_mem_cons]
    exact ⟨starts.handled b, clears.handled b, region, handled, test, List.forall_mem_nil _⟩

theorem withClauses_handled (h : runs (withClauses cs body) s n s') (inside : body.Handled b)
    (own : ClausesHandled cs) : n.Handled b := by
  rw [withClauses] at h
  split at h
  · obtain ⟨rfl, rfl⟩ := runs_pure.1 h
    exact inside
  · split at h
    · exact reduceClauses_handled h inside own
    · obtain ⟨rfl, rfl⟩ := runs_build h
      exact Node.handled_region.2 ⟨inside, own, List.forall_mem_nil _⟩

theorem withCleanup_handled (h : runs (withCleanup cleanup body) s n s') (inside : body.Handled b)
    (handled : ∀ part ∈ cleanup.toList, part.Handled b) : n.Handled b := by
  cases cleanup with
  | none =>
    obtain ⟨rfl, rfl⟩ := runs_pure.1 h
    exact inside
  | some part =>
    rw [withCleanup] at h
    split at h
    · obtain ⟨ids, moves, hands⟩ := runs_reduceCleanup h
      exact moves.handled inside (List.forall_mem_singleton.1 handled)
    · obtain ⟨rfl, rfl⟩ := runs_build h
      exact Node.handled_region.2 ⟨inside, List.forall_mem_nil _, handled⟩

theorem withFault_handled (h : runs (withFault fault body) s n s') (inside : body.Handled b)
    (handled : ∀ part ∈ fault.toList, part.Handled b) : n.Handled b := by
  cases fault with
  | none =>
    obtain ⟨rfl, rfl⟩ := runs_pure.1 h
    exact inside
  | some part =>
    rw [withFault] at h
    split at h
    · obtain ⟨ids, moves, hands⟩ := runs_reduceFault h
      exact moves.handled inside (List.forall_mem_singleton.1 handled)
    · obtain ⟨rfl, rfl⟩ := runs_build h
      exact Node.handled_region.2 ⟨inside, List.forall_mem_nil _, handled⟩

/-- Reducing a region keeps rethrows handled. -/
theorem reduceRegion_handled {i : NodeId} (h : runs (reduceRegion body cs cleanup fault) s n s')
    (handled : Node.Handled b ⟨i, .region body cs cleanup fault⟩) : n.Handled b := by
  obtain ⟨inside, own, parts⟩ := Node.handled_region.1 handled
  rw [reduceRegion_eq] at h
  split at h
  · obtain ⟨rfl, rfl⟩ := runs_build h
    exact handled.renumber
  · simp only [runs_bind] at h
    obtain ⟨b₁, s₁, first, b₂, s₂, second, third⟩ := h
    obtain ⟨cleanups, faults⟩ := List.forall_mem_append.1 parts
    have inner := withClauses_handled first inside own
    exact withFault_handled third (withCleanup_handled second inner cleanups) faults

/-- Handlers are moved with what their rethrows raise. -/
theorem Node.reduce_handled (h : runs body.reduceHandlers s n s') (handled : body.Handled b) :
    n.Handled b := by
  induction body using Node.induction generalizing s n s' b with
  | step body ih =>
    obtain ⟨i, sh⟩ := body
    obtain ⟨x, s₁, rfl, threads, step⟩ := reduce_opens h
    have reduced : Node.Handled b ⟨i, x.map (·.2.1)⟩ := handled.rebuilt fun y member b ↦ by
      obtain ⟨_, _, run⟩ := threads.of_mem member
      exact ih y.1 (mem_children_map member) run
    cases x with
    | region => exact reduceRegion_handled step reduced
    | _ =>
      obtain ⟨rfl, rfl⟩ := runs_build step
      exact reduced.renumber

end Regions

/-! ### Expansions -/

/-- Settling adds blocks, which handle nothing. -/
theorem Node.settle_handled {b : Bool} {n : Node} (handled : n.Handled b) : n.settle.Handled b := by
  induction n using Node.induction generalizing b with
  | step n ih =>
    obtain ⟨i, sh⟩ := n
    have layer : Node.Handled b ⟨i, sh.map settle⟩ := by
      have same : sh.map (fun c ↦ c) = sh := sh.map_id
      refine Handled.rebuilt (i := i) (f := fun c ↦ c) (same.symm ▸ handled) fun c child b ↦ ?_
      exact ih c child
    rw [settle_eq]
    dsimp only [Node.shape, Node.id]
    cases sh with
    | block declared ns => exact .calm rfl (layer.child rfl)
    | await operand acquire result =>
      have waits {j k : NodeId} : Node.Handled b ⟨j, .await ⟨k, .block [] [operand.settle]⟩ acquire
          result⟩ :=
        .calm rfl (List.forall_mem_singleton.2
          (.calm rfl (layer.child rfl)))
      simp only [Shape.map]
      split
      · exact .calm rfl (List.forall_mem_cons.2
          ⟨waits, List.forall_mem_singleton.2 (.leaf rfl rfl)⟩)
      · exact waits
    | region body clauses cleanup fault =>
      simp only [Shape.map]
      split
      · obtain ⟨inside, rest⟩ := handled_region.1 layer
        refine .calm rfl (List.forall_mem_singleton.2 (handled_region.2 ⟨?_, rest⟩))
        exact .calm rfl (List.forall_mem_singleton.2 inside)
      · exact layer
    | _ => exact layer

section Expansions

variable {b : Bool} {c : Contract} {n : Node}

theorem IsUpdate.handled {value : Int64} (h : IsUpdate c value n) (b : Bool) : n.Handled b := by
  cases h
  simp [Node.handled_mk, Shape.placed, Shape.children]

theorem IsReturn.handled {label : Label} (h : IsReturn c label n) (b : Bool) : n.Handled b := by
  cases h with
  | mk i j update =>
    simp [Node.handled_mk, Shape.placed, Shape.children, Place.handles, update.handled b]

theorem Leads.handled {i j : Int64} {label : Label} (h : Leads c i n label j) (b : Bool) :
    n.Handled b := by
  cases h with
  | back isReturn => exact isReturn.handled b
  | into => exact .leaf rfl rfl

theorem IsSuspension.handled {p : Point} (h : IsSuspension c p n) (b : Bool) : n.Handled b := by
  cases h with
  | mk i j k l update =>
    simp [Node.handled_mk, Shape.placed, Shape.children, Place.handles, update.handled b]

theorem IsOutcome.handled {p : Point} (h : IsOutcome p n) (b : Bool) : n.Handled b := by
  cases h <;> simp [Node.handled_mk, Shape.placed, Shape.children]

theorem Point.value_handled (p : Point) (i : NodeId) : Node.Handled b ⟨i, p.valueShape⟩ := by
  rw [valueShape]
  cases p.result <;> exact .leaf rfl rfl

/-- A suspend point rethrows what its operand does. -/
theorem IsPoint.handled {acquire : Option String} {p : Point} {o : Node}
    (h : IsPoint c acquire p o n) (operand : o.Handled b) : n.Handled b := by
  cases h with
  | mk i i₁ i₂ i₃ i₄ i₅ i₆ i₇ i₈ i₉ i₁₀ suspension outcomes update =>
    have acquired : Node.Handled b ⟨i₂, Expand.acquireShape acquire o⟩ := by
      cases acquire <;> exact .calm rfl (List.forall_mem_singleton.2 operand)
    have value := p.value_handled (b := b) i₁₀
    have suspension := suspension.handled b
    have outcomes := outcomes.handled b
    have update := update.handled b
    refine .calm rfl ?_
    simp only [Shape.children, List.forall_mem_cons]
    refine ⟨.calm rfl (List.forall_mem_singleton.2 acquired), ?_,
      .leaf rfl rfl, outcomes, ?_, update, value, List.forall_mem_nil _⟩
    · refine .calm rfl (List.forall_mem_cons.2
        ⟨?_, List.forall_mem_singleton.2 suspension⟩)
      simp [Node.handled_mk, Shape.placed, Shape.children]
    · exact .calm rfl (List.forall_mem_singleton.2 (.leaf rfl rfl))

/-- Guarding a part keeps rethrows handled. -/
theorem IsGuarded.handled {part : Node} (h : IsGuarded c part n) (handled : part.Handled b) :
    n.Handled b := by
  cases h
  simp [Node.handled_mk, Shape.placed, Shape.children, Place.handles, handled]

theorem guarded_handled {part part' : Option Node} (h : Option.Rel (IsGuarded c) part part')
    (handled : ∀ n ∈ part.toList, n.Handled b) : ∀ n ∈ part'.toList, n.Handled b := by
  cases h with
  | none => exact List.forall_mem_nil _
  | some guarded =>
    exact List.forall_mem_singleton.2 (guarded.handled (handled _ List.mem_cons_self))

/-- An expansion rethrows what the settled tree does. -/
theorem Twin.handled {keeps : SymbolId → Prop} {p e : Node} {X : Added} (h : Twin keeps c p e X)
    (handled : p.Handled b) : e.Handled b := by
  induction h generalizing b with
  | same x below kind closed undeclared kept ih =>
    exact handled.rebuilt fun y child b ↦ ih y child
  | point operand isPoint isReturn interest ih =>
    have inner := handled.child rfl _ List.mem_cons_self
    exact isPoint.handled (ih (inner.child rfl _ List.mem_cons_self))
  | unitPoint operand isPoint isReturn interest ih =>
    have wait := handled.child rfl _ List.mem_cons_self
    have inner := wait.child rfl _ List.mem_cons_self
    exact isPoint.handled (ih (inner.child rfl _ List.mem_cons_self))
  | @region i j k l body' body e X entry cs cleanup fault cleanup' fault' bodies suspends clauses
      parts guarded guarded' entered ih ihs ihs' =>
    obtain ⟨inside, handlers, last⟩ :=
      Node.handled_region.1 (handled.child rfl _ List.mem_cons_self)
    have body := ih (inside.child rfl _ List.mem_cons_self)
    have table : ∀ case ∈ X.table, case.body.Handled b := fun case member ↦ by
      obtain ⟨_, _, _, leads⟩ := bodies.leads 0 member
      exact leads.handled b
    have own : ClausesHandled (cs.map (Clause.map Prod.snd)) := by
      refine List.forall_mem_map.2 fun clause member ↦ ?_
      obtain ⟨filter, body⟩ := handlers (clause.map Prod.fst) (List.mem_map_of_mem member)
      have child {y : Node × Node} (child : y ∈ clause.children) {b : Bool} :
          y.1.Handled b → y.2.Handled b :=
        ihs y (List.mem_flatMap.2 ⟨clause, member, child⟩)
      refine ⟨fun found some ↦ ?_, child (by simp [Clause.children]) body⟩
      obtain ⟨y, has, rfl⟩ := Option.map_eq_some_iff.1 some
      exact child (by simp [Clause.children, has]) (filter y.1 (by simp [Clause.map, has]))
    have copies : ∀ y ∈ cleanup.toList ++ fault.toList, y.2.Handled b := by
      rw [Option.toList_map, Option.toList_map, ← List.map_append, List.forall_mem_map] at last
      exact fun y member ↦ ihs' y member (last y member)
    have copies {part : Option (Node × Node)}
        (among : part.toList ⊆ cleanup.toList ++ fault.toList) :
        ∀ n ∈ (part.map Prod.snd).toList, n.Handled b := by
      rw [Option.toList_map]
      exact List.forall_mem_map.2 fun y member ↦ copies y (among member)
    cases entered with
    | mk i₀ i₁ i₂ i₃ i₄ i₅ =>
      have dispatch : Node.Handled b ⟨i₄, .switch ⟨i₅, .var c.localState⟩ X.table none⟩ := by
        refine .calm rfl (List.forall_mem_cons.2 ⟨.leaf rfl rfl, ?_⟩)
        exact List.forall_mem_append.2 ⟨List.forall_mem_map.2 table, List.forall_mem_nil _⟩
      refine .calm rfl (List.forall_mem_cons.2 ⟨.leaf rfl rfl,
        List.forall_mem_singleton.2 (Node.handled_region.2 ⟨?_, own, List.forall_mem_append.2
          ⟨guarded_handled guarded (copies (List.subset_append_left _ _)),
            guarded_handled guarded' (copies (List.subset_append_right _ _))⟩⟩)⟩)
      exact .calm rfl (List.forall_mem_cons.2
        ⟨dispatch, List.forall_mem_singleton.2 body⟩)

/-- A body is handled if what it is assembled of is. -/
theorem IsAssembled.handled {body root : Node} {table : Table}
    (h : IsAssembled c body table root) (cases : ∀ case ∈ table, case.body.Handled b)
    (inside : body.Handled b) : root.Handled b := by
  cases h with
  | mk i i₁ i₂ i₃ i₄ i₅ i₆ i₇ =>
    have leaf {i : NodeId} {v : Variable} : Node.Handled b ⟨i, .var v⟩ := .leaf rfl rfl
    refine .calm rfl ?_
    simp only [Shape.children, List.forall_mem_cons]
    refine ⟨.calm rfl (List.forall_mem_singleton.2 leaf),
      .calm rfl (List.forall_mem_cons.2 ⟨leaf, List.forall_mem_append.2
        ⟨List.forall_mem_map.2 cases, List.forall_mem_singleton.2 (.leaf rfl rfl)⟩⟩),
      .calm rfl (List.forall_mem_singleton.2 inside), .leaf rfl rfl, List.forall_mem_nil _⟩

end Expansions

/-- A body that is lowered is accepted, so its bare rethrows have an exception to raise unless one
of them stands in a filter. -/
theorem Node.LowersTo.handled {body : Node} {supply : Supply} {l : Lowered}
    (lowers : body.LowersTo supply l)
    (filters : ∀ o ∈ body.occurrences, o.node.shape = .raise none → .filter ∉ o.above) :
    body.Handled false := by
  obtain ⟨-, s', -, lowered⟩ := lowers
  exact handled_of_check (runs_lower lowered).1 filters

/-- **Lowering leaves no bare rethrow without a handler.** -/
theorem Node.LowersTo.body_handled {body : Node} {supply : Supply} {l : Lowered}
    (lowers : body.LowersTo supply l) (handled : body.Handled false) : l.body.Handled false := by
  obtain ⟨L, s, s', -, -, prepares, -⟩ := lowers.layout
  obtain ⟨spilled, s₁, spills, reduces⟩ := runs_prepare prepares
  have prepared := reduce_handled reduces (spill_handled spills handled)
  refine L.assembled.handled (fun case member ↦ ?_) (L.twin.handled (settle_handled prepared))
  obtain ⟨_, _, _, leads⟩ := L.twin.leads 0 member
  exact leads.handled false

end Suspension
