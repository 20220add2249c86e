import Suspension.Proofs.Preparation.Reduction

/-!
# Handler bodies that do not suspend

The reduction leaves no suspend point in the handler bodies of a region, whatever tree it is given
(`Node.reduce_reduced`). It goes from the leaves up, so a region is taken apart when its parts are
reduced already. What it becomes is built from regions whose own handler bodies are notes of an
exception, and from copies of the parts, and a copy has suspend points where the original has them.
-/

namespace Suspension

open Handlers Build

namespace Shape

variable {α β : Type}

/-- The bodies of a layer that handle exits: those of clauses, the finally body and the fault body.
Filters are none of them. -/
def handlerBodies : Shape α → List α
  | .region _ clauses cleanup fault => clauses.map Clause.body ++ cleanup.toList ++ fault.toList
  | _ => []

theorem handlerBodies_map (f : α → β) (sh : Shape α) :
    (sh.map f).handlerBodies = sh.handlerBodies.map f := by
  cases sh <;> simp [handlerBodies, map, Option.toList_map, Function.comp_def, Clause.map]

/-- The bodies of handlers are children. -/
theorem mem_handlerBodies {sh : Shape α} {a : α} (h : a ∈ sh.handlerBodies) : a ∈ sh.children := by
  cases sh with
  | region body clauses cleanup fault =>
    simp only [handlerBodies, children, List.cons_append, List.mem_append, List.mem_cons,
      List.mem_map, List.mem_flatMap] at h ⊢
    obtain (⟨c, member, rfl⟩ | inCleanup) | inFault := h
    · exact .inr (.inl (.inl ⟨c, member, List.mem_append_right _ List.mem_cons_self⟩))
    · exact .inr (.inl (.inr inCleanup))
    · exact .inr (.inr inFault)
  | _ => cases h

end Shape

namespace Node

/-- No handler body of a tree suspends. -/
def Reduced (n : Node) : Prop :=
  ∀ m ∈ n.walk, ∀ body ∈ m.shape.handlerBodies, body.containsAwait = false

/-- A tree is reduced if no body of a handler suspends and its children are reduced. -/
theorem reduced_mk {i : NodeId} {sh : Shape Node} : Reduced ⟨i, sh⟩ ↔
    (∀ body ∈ sh.handlerBodies, body.containsAwait = false) ∧ ∀ c ∈ sh.children, c.Reduced :=
  forall_walk_mk

end Node

/-- Copies of handler bodies are reduced where the originals are. -/
theorem Edits.reduced {given places : List SymbolId} {n n' : Node} (h : Edits given places n n')
    (reduced : n.Reduced) : n'.Reduced := by
  induction h with
  | layer x below ih =>
    rw [Node.reduced_mk, Shape.handlerBodies_map, Shape.children_map, List.forall_mem_map,
      List.forall_mem_map] at reduced ⊢
    refine ⟨fun y member ↦ ?_, fun y member ↦ ih y member (reduced.2 y member)⟩
    rw [(below y (Shape.mem_handlerBodies member)).containsAwait]
    exact reduced.1 y member
  | ret value known known' known'' ih =>
    simp only [Node.reduced_mk, Shape.handlerBodies, Shape.children, Option.toList_some,
      List.forall_mem_cons] at reduced
    simp [Node.reduced_mk, Shape.handlerBodies, Shape.children, ih reduced.2.1]
  | _ => simp [Node.reduced_mk, Shape.handlerBodies, Shape.children]

/-! ### Pieces -/

section Pieces

variable {n : Node}

theorem IsMark.reduced {v : Variable} {value : Literal} (h : IsMark v value n) : n.Reduced := by
  cases h
  simp [Node.reduced_mk, Shape.handlerBodies, Shape.children]

theorem IsCopy.reduced {target source : Variable} (h : IsCopy target source n) : n.Reduced := by
  cases h
  simp [Node.reduced_mk, Shape.handlerBodies, Shape.children]

theorem IsRaise.reduced {v : Variable} (h : IsRaise v n) : n.Reduced := by
  cases h
  simp [Node.reduced_mk, Shape.handlerBodies, Shape.children]

/-- A note of an exception does not suspend. -/
theorem IsCopy.note {target source v : Variable} {value : Literal} {i : NodeId} {keep mark : Node}
    (copies : IsCopy target source keep) (marks : IsMark v value mark) :
    Node.containsAwait ⟨i, .block [] [keep, mark]⟩ = false ∧
      Node.Reduced ⟨i, .block [] [keep, mark]⟩ := by
  have reduced := copies.reduced
  have reduced' := marks.reduced
  cases copies
  cases marks
  refine ⟨rfl, ?_⟩
  rw [Node.reduced_mk]
  exact ⟨nofun, List.forall_mem_cons.2 ⟨reduced, List.forall_mem_singleton.2 reduced'⟩⟩

/-- A clause that catches everything does not suspend. -/
theorem IsCatchAll.reduced {cap : Captured} {e : Variable} {c : Clause Node}
    (h : IsCatchAll cap e c) : c.body.containsAwait = false ∧
      ∀ part ∈ c.children, part.Reduced := by
  cases h with
  | mk i copies marks =>
    obtain ⟨quiet, reduced⟩ := copies.note (i := i) marks
    exact ⟨quiet, List.forall_mem_singleton.2 reduced⟩

/-- A protected body is reduced if its value is. -/
theorem IsInside.reduced {value : Node} {leave : Label} {left : List Leaving}
    (h : IsInside value leave left n) (reduced : value.Reduced) : n.Reduced := by
  cases h with
  | plain => exact reduced
  | labelled i j some => simp [Node.reduced_mk, Shape.handlerBodies, Shape.children, reduced]

/-- The cases for noted exits are reduced. -/
theorem ResumesExits.reduced {exits : Exits} {k : Nat} {ls : List Leaving}
    {cases : List (Case Node)} (h : ResumesExits exits k ls cases) :
    ∀ c ∈ cases, c.body.Reduced := by
  induction h with
  | nil => exact nofun
  | cons head tail ih =>
    refine List.forall_mem_cons.2 ⟨?_, ih⟩
    cases head <;> simp [Node.reduced_mk, Shape.handlerBodies, Shape.children]

/-- The dispatch of noted exits is reduced. -/
theorem DispatchesExits.reduced {exits : Exits} {left : List Leaving} {dispatch : List Node}
    (h : DispatchesExits exits left dispatch) : ∀ d ∈ dispatch, d.Reduced := by
  cases h with
  | none => exact nofun
  | switch i j some resumes =>
    simpa [Node.reduced_mk, Shape.handlerBodies, Shape.children] using resumes.reduced

/-- A clause that is moved leaves a note in its place, and takes its body along. -/
theorem MovesClauses.reduced {cap : Captured} {which : Variable} {k : Nat}
    {cs : List (Clause Node)} {m : Moved} {new : List Variable}
    (h : MovesClauses cap which k cs m new)
    (parts : ∀ part ∈ cs.flatMap Clause.children, part.Reduced) :
    (∀ c ∈ m.clauses, c.body.containsAwait = false ∧ ∀ part ∈ c.children, part.Reduced) ∧
      ∀ c ∈ m.cases, c.body.Reduced := by
  induction h with
  | nil => exact ⟨nofun, nofun⟩
  | @cons k c clause case cs m first rest v holds head tail ih =>
    rw [List.flatMap_cons, List.forall_mem_append] at parts
    obtain ⟨clauses, cases⟩ := ih parts.2
    have own := List.forall_mem_append.1 parts.1
    cases head with
    | mk i i' j copies marks edits restores =>
      obtain ⟨quiet, note⟩ := copies.note (i := i) marks
      have handler := edits.reduced (own.2 _ List.mem_cons_self)
      refine ⟨List.forall_mem_cons.2 ⟨⟨quiet, ?_⟩, clauses⟩, List.forall_mem_cons.2 ⟨?_, cases⟩⟩
      · exact List.forall_mem_append.2 ⟨own.1, List.forall_mem_singleton.2 note⟩
      · simp [Node.reduced_mk, Shape.handlerBodies, Shape.children, restores.reduced, handler]

end Pieces

/-! ### Regions -/

section Regions

variable {body n : Node} {cs : List (Clause Node)} {cleanup fault : Option Node} {s s' : Supply}

/-- A region stays reduced if its handler bodies are quiet. -/
theorem Node.Reduced.region {i : NodeId} (reduced : body.Reduced)
    (clauses : ∀ c ∈ cs, c.body.containsAwait = false ∧ ∀ part ∈ c.children, part.Reduced)
    (cleanups : ∀ part ∈ cleanup.toList ++ fault.toList,
      part.containsAwait = false ∧ part.Reduced) :
    Node.Reduced ⟨i, .region body cs cleanup fault⟩ := by
  rw [Node.reduced_mk, Shape.handlerBodies, Shape.children, List.append_assoc, List.cons_append,
    List.cons_append, List.append_assoc]
  constructor
  · refine List.forall_mem_append.2 ⟨?_, fun part member ↦ (cleanups part member).1⟩
    exact List.forall_mem_map.2 fun c member ↦ (clauses c member).1
  · refine List.forall_mem_cons.2 ⟨reduced, List.forall_mem_append.2 ⟨?_, ?_⟩⟩
    · intro part inside
      obtain ⟨c, member, inside⟩ := List.mem_flatMap.1 inside
      exact (clauses c member).2 part inside
    · exact fun part member ↦ (cleanups part member).2

/-- Any other layer is reduced if its children are. -/
theorem Node.Reduced.plain {i : NodeId} {sh : Shape Node} (other : sh.handlerBodies = [])
    (below : ∀ c ∈ sh.children, c.Reduced) : Node.Reduced ⟨i, sh⟩ := by
  rw [Node.reduced_mk, other]
  exact ⟨nofun, below⟩

/-- A region whose clauses were moved is reduced if its parts are. -/
theorem MovesCaught.reduced {ids : List SymbolId} (h : MovesCaught body cs n ids)
    (reduced : body.Reduced) (parts : ∀ part ∈ cs.flatMap Clause.children, part.Reduced) :
    n.Reduced := by
  cases h with
  | @mk i i₁ i₂ i₃ i₄ i₅ cap which m new start clauses starts =>
    obtain ⟨notes, cases⟩ := clauses.reduced parts
    have value : Node.Reduced ⟨i₂, .assign cap.value body⟩ :=
      .plain rfl (List.forall_mem_singleton.2 reduced)
    have region : Node.Reduced ⟨i₁, .region ⟨i₂, .assign cap.value body⟩ m.clauses none none⟩ :=
      value.region notes nofun
    have handle : Node.Reduced ⟨i₃, .switch ⟨i₄, .var which⟩ m.cases none⟩ := by
      refine .plain rfl (List.forall_mem_cons.2 ⟨.plain rfl nofun, ?_⟩)
      exact List.forall_mem_append.2 ⟨List.forall_mem_map.2 cases, nofun⟩
    refine .plain rfl (List.forall_mem_cons.2 ⟨starts.reduced, List.forall_mem_cons.2 ⟨region, ?_⟩⟩)
    exact List.forall_mem_cons.2 ⟨handle, List.forall_mem_singleton.2 (.plain rfl nofun)⟩

/-- A region whose fault body was moved is reduced if its parts are. -/
theorem MovesFault.reduced {part : Node} {ids : List SymbolId} (h : MovesFault body part n ids)
    (reduced : body.Reduced) (handler : part.Reduced) : n.Reduced := by
  cases h with
  | @mk i i₁ i₂ i₃ i₄ i₅ i₆ cap e start again clause starts catches raises =>
    have value : Node.Reduced ⟨i₂, .assign cap.value body⟩ :=
      .plain rfl (List.forall_mem_singleton.2 reduced)
    have region : Node.Reduced ⟨i₁, .region ⟨i₂, .assign cap.value body⟩ [clause] none none⟩ :=
      value.region (List.forall_mem_singleton.2 catches.reduced) nofun
    have inner : Node.Reduced ⟨i₅, .block [] [part, again]⟩ :=
      .plain rfl (List.forall_mem_cons.2 ⟨handler, List.forall_mem_singleton.2 raises.reduced⟩)
    have handle : Node.Reduced ⟨i₃, .branch ⟨i₄, .var cap.caught⟩ ⟨i₅, .block [] [part, again]⟩
        none⟩ :=
      .plain rfl (List.forall_mem_cons.2 ⟨.plain rfl nofun, List.forall_mem_singleton.2 inner⟩)
    refine .plain rfl (List.forall_mem_cons.2 ⟨starts.reduced, List.forall_mem_cons.2 ⟨region, ?_⟩⟩)
    exact List.forall_mem_cons.2 ⟨handle, List.forall_mem_singleton.2 (.plain rfl nofun)⟩

/-- A region whose finally body was moved is reduced if its parts are. -/
theorem MovesCleanup.reduced {part : Node} {ids : List SymbolId} (h : MovesCleanup body part n ids)
    (reduced : body.Reduced) (handler : part.Reduced) : n.Reduced := by
  cases h with
  | @mk i i₁ i₂ i₃ i₄ i₅ cap exits e start clear copied inside raises dispatch left clause named
      starts clears edits noted isInside catches again dispatches =>
    have value : Node.Reduced ⟨i₂, .assign cap.value copied⟩ :=
      .plain rfl (List.forall_mem_singleton.2 (edits.reduced reduced))
    have region : Node.Reduced ⟨i₁, .region inside [clause] none none⟩ :=
      (isInside.reduced value).region (List.forall_mem_singleton.2 catches.reduced) nofun
    have test : Node.Reduced ⟨i₃, .branch ⟨i₄, .var cap.caught⟩ raises none⟩ :=
      .plain rfl (List.forall_mem_cons.2
        ⟨.plain rfl nofun, List.forall_mem_singleton.2 again.reduced⟩)
    refine .plain rfl (List.forall_mem_append.2 ⟨List.forall_mem_append.2
      ⟨?_, dispatches.reduced⟩, List.forall_mem_singleton.2 (.plain rfl nofun)⟩)
    simp only [List.forall_mem_cons]
    exact ⟨starts.reduced, clears.reduced, region, handler, test, nofun⟩

theorem withClauses_reduced (h : runs (withClauses cs body) s n s') (reduced : body.Reduced)
    (parts : ∀ part ∈ cs.flatMap Clause.children, part.Reduced) : n.Reduced := by
  rw [withClauses] at h
  split at h
  · obtain ⟨rfl, rfl⟩ := runs_pure.1 h
    exact reduced
  · split at h
    · obtain ⟨ids, moves, hands⟩ := runs_reduceClauses h
      exact moves.reduced reduced parts
    · rename_i free
      obtain ⟨rfl, rfl⟩ := runs_build h
      refine reduced.region (fun c member ↦ ⟨?_, fun part inside ↦ ?_⟩)
        (List.forall_mem_nil _)
      · simpa using List.any_eq_false.1 (Bool.eq_false_iff.2 free) c member
      · exact parts part (List.mem_flatMap_of_mem member inside)

theorem withCleanup_reduced (h : runs (withCleanup cleanup body) s n s') (reduced : body.Reduced)
    (handler : ∀ part ∈ cleanup.toList, part.Reduced) : n.Reduced := by
  cases cleanup with
  | none =>
    obtain ⟨rfl, rfl⟩ := runs_pure.1 h
    exact reduced
  | some part =>
    replace handler := List.forall_mem_singleton.1 handler
    rw [withCleanup] at h
    split at h
    · obtain ⟨ids, moves, hands⟩ := runs_reduceCleanup h
      exact moves.reduced reduced handler
    · rename_i free
      obtain ⟨rfl, rfl⟩ := runs_build h
      exact reduced.region (List.forall_mem_nil _)
        (List.forall_mem_singleton.2 ⟨Bool.eq_false_iff.2 free, handler⟩)

theorem withFault_reduced (h : runs (withFault fault body) s n s') (reduced : body.Reduced)
    (handler : ∀ part ∈ fault.toList, part.Reduced) : n.Reduced := by
  cases fault with
  | none =>
    obtain ⟨rfl, rfl⟩ := runs_pure.1 h
    exact reduced
  | some part =>
    replace handler := List.forall_mem_singleton.1 handler
    rw [withFault] at h
    split at h
    · obtain ⟨ids, moves, hands⟩ := runs_reduceFault h
      exact moves.reduced reduced handler
    · rename_i free
      obtain ⟨rfl, rfl⟩ := runs_build h
      exact reduced.region (List.forall_mem_nil _)
        (List.forall_mem_singleton.2 ⟨Bool.eq_false_iff.2 free, handler⟩)

/-- A region whose parts are reduced is reduced, or taken apart until it is. -/
theorem reduceRegion_reduced (h : runs (reduceRegion body cs cleanup fault) s n s')
    (parts : ∀ part ∈ (Shape.region body cs cleanup fault).children, part.Reduced) :
    n.Reduced := by
  rw [Shape.children, List.append_assoc, List.cons_append, List.forall_mem_cons,
    List.forall_mem_append, List.forall_mem_append] at parts
  obtain ⟨reduced, clauses, cleanups, faults⟩ := parts
  rw [reduceRegion_eq] at h
  split at h
  · rename_i free
    simp only [Bool.not_eq_true', Bool.or_eq_false_iff, List.any_eq_false, Bool.not_eq_true] at free
    obtain ⟨⟨quiet, quiet'⟩, quiet''⟩ := free
    obtain ⟨rfl, rfl⟩ := runs_build h
    refine reduced.region (fun c member ↦ ⟨quiet c member, fun part inside ↦ ?_⟩) ?_
    · exact clauses part (List.mem_flatMap_of_mem member inside)
    · have still {o : Option Node} (quiet : o.any Node.containsAwait = false)
          (reduced : ∀ part ∈ o.toList, part.Reduced) :
          ∀ part ∈ o.toList, part.containsAwait = false ∧ part.Reduced := by
        intro part member
        rw [Option.mem_toList.1 member] at quiet
        exact ⟨quiet, reduced part member⟩
      exact List.forall_mem_append.2 ⟨still quiet' cleanups, still quiet'' faults⟩
  · simp only [runs_bind] at h
    obtain ⟨b₁, s₁, first, b₂, s₂, second, third⟩ := h
    have inner := withClauses_reduced first reduced clauses
    exact withFault_reduced third (withCleanup_reduced second inner cleanups) faults

end Regions

/-- **The reduction leaves no suspend point in a handler body.** This holds of every tree, legal or
not, and of every region in the result, those included that stand for other regions. -/
theorem Node.reduce_reduced {n n' : Node} {s s' : Supply} (h : runs n.reduceHandlers s n' s') :
    n'.Reduced := by
  induction n using Node.induction generalizing s n' s' with
  | step n ih =>
    obtain ⟨i, sh⟩ := n
    obtain ⟨x, s₁, rfl, threads, step⟩ := reduce_opens h
    have below : ∀ c ∈ (x.map (·.2.1)).children, c.Reduced := by
      rw [Shape.children_map, List.forall_mem_map]
      intro y member
      obtain ⟨_, _, run⟩ := threads.of_mem member
      exact ih y.1 (mem_children_map member) run
    cases x with
    | region body clauses cleanup fault => exact reduceRegion_reduced step below
    | _ =>
      obtain ⟨rfl, rfl⟩ := runs_build step
      exact .plain rfl below

end Suspension
