import Mathlib.Data.List.Perm.Basic
import Suspension.Proofs.Preparation.Regions

/-!
# Bodies without suspending handlers

Moving handler bodies out of their regions keeps what a pass has to keep (`Node.reduce_census`), and
leaves no suspend point in a handler (`Node.reduce_ready`). A region is taken apart in up to three
steps, from the inside out; `Relocates` is what one of them keeps of the layer it stands for, and
two steps in a row are one for the whole layer (`Relocates.nest`).
-/

namespace Suspension

open Handlers Build

/-- What a step that takes a layer apart keeps of it. -/
structure Relocates (sh : Shape Node) (s : Supply) (n : Node) (s' : Supply) : Prop where
  reshapes : Reshapes false sh s n s'
  hoistable : ∀ c ∈ sh.children, c.hoistable ⊆ n.hoistable
  ready : ∀ {keeps : SymbolId → Prop}, s'.Whole → Node.Older ⟨0, sh⟩ s →
    (∀ c ∈ sh.children, ∀ m ∈ c.walk, m.Ready keeps) → ∀ m ∈ n.walk, m.Ready keeps

theorem Supply.Hands.apart {s s' : Supply} {ids : List SymbolId} (h : s.Hands ids s')
    (whole : s'.Whole) {id : SymbolId} (new : id ∈ ids) {n : Node} (old : n.Older s) :
    id ∉ n.symbols := by
  intro inside
  have := old id inside
  have := (Supply.mem_fresh whole (h.2 ▸ new)).1
  omega

/-- A tree built around copies of the children of a layer takes the place of the layer. -/
theorem Builds.relocates {sh : Shape Node} {s s' : Supply} {n : Node}
    {known declared ids given places : List SymbolId} {parts : List Node}
    (built : Builds known [] declared parts n) (hands : s.Hands ids s')
    (notAwait : sh.kind ≠ .await) {zs : List (Node × Node)}
    (sources : (zs.map Prod.fst).Perm sh.children)
    (results : (zs.map Prod.snd).Perm parts) (edits : ∀ z ∈ zs, Edits given places z.1 z.2)
    (givens : ∀ id ∈ given, id ∈ ids ∧ id ∈ declared) (leaves : ∀ id ∈ places, id ∈ ids)
    (names : ∀ id ∈ known, id ∈ ids ∨ id ∈ sh.ownSymbols ∨ id ∈ sh.children.flatMap Node.symbols)
    (counts : ∀ id, declared.count id ≤
      ((sh.declared ++ sh.binders).map Variable.id).count id + ids.count id)
    (binds : ∀ vs c, (vs, c) ∈ sh.scopes → ∀ id ∈ vs.map Variable.id, id ∈ declared) :
    Relocates sh s n s' := by
  have source (z : Node × Node) (member : z ∈ zs) : z.1 ∈ sh.children :=
    sources.mem_iff.1 (List.mem_map_of_mem member)
  have result (p : Node) (member : p ∈ parts) : ∃ z ∈ zs, z.2 = p :=
    List.mem_map.1 (results.mem_iff.2 member)
  have fresh {id : SymbolId} (whole : s'.Whole) {z : Node × Node} (member : z ∈ zs)
      (old : Node.Older ⟨0, sh⟩ s) (new : id ∈ given ++ places) : id ∉ z.1.symbols := by
    refine hands.apart whole ?_ (old.child (source z member))
    rcases List.mem_append.1 new with new | new
    · exact (givens id new).1
    · exact leaves id new
  -- Copies stand in the tree in an order of their own, so sums go over `sources` and `results`.
  refine ⟨⟨hands.1, ?_, fun id inside ↦ ?_, fun name called ↦ ?_, fun id ↦ ?_,
    fun {bound i} within ↦ ?_⟩, fun c child ↦ ?_, fun whole old below ↦ ?_⟩
  · have awaits := Edits.any_children fun z member ↦ (edits z member).containsAwait
    rw [built.awaits, ← results.any_eq, awaits, sources.any_eq, Kind.beq_eq_decide,
      decide_eq_false notAwait, Bool.false_or]
  · rw [← hands.2]
    rcases built.symbols id inside with own | below
    · exact (names id own).elim .inr .inl
    · obtain ⟨p, member, found⟩ := List.mem_flatMap.1 below
      obtain ⟨z, inside, rfl⟩ := result p member
      rcases (edits z inside).symbols id found with old | new | new
      · exact .inl (.inr (List.mem_flatMap.2 ⟨z.1, source z inside, old⟩))
      · exact .inr (givens id new).1
      · exact .inr (leaves id new)
  · rw [built.calls] at called
    obtain ⟨p, member, found⟩ := List.mem_flatMap.1 called
    obtain ⟨z, inside, rfl⟩ := result p member
    rw [(edits z inside).calls] at found
    exact List.mem_append_right _ (List.mem_flatMap.2 ⟨z.1, source z inside, found⟩)
  · have below := Edits.flatMap_children fun z member ↦ (edits z member).declared
    have parts' : (parts.flatMap Node.declared).count id =
        (sh.children.flatMap Node.declared).count id := by
      rw [← (results.flatMap_right _).count_eq, below, (sources.flatMap_right _).count_eq]
    have plain : Node.names false = Node.declared := funext fun n ↦ List.append_nil _
    have := counts id
    have := built.names id
    simp only [plain, ← hands.2, parts'] at *
    omega
  · refine built.scopes nofun fun p member ↦ ?_
    obtain ⟨z, inside, rfl⟩ := result p member
    refine (edits z inside).inScope ?_ fun id new ↦ .inl (givens id new).2
    obtain ⟨⟨vs, c⟩, scope, eq⟩ := List.mem_map.1 (sh.map_snd_scopes ▸ source z inside)
    cases eq
    exact ((Node.scoped_mk.1 within).2 vs _ scope).mono fun id inside ↦
      inside.imp_left (binds vs _ scope id)
  · obtain ⟨z, inside, rfl⟩ := List.mem_map.1 (sources.mem_iff.2 child)
    rw [← (edits z inside).hoistable]
    exact built.hoistable z.2 (results.mem_iff.1 (List.mem_map_of_mem inside))
  · refine built.ready fun p member ↦ ?_
    obtain ⟨z, inside, rfl⟩ := result p member
    exact (edits z inside).ready (below z.1 (source z inside)) fun id new ↦
      fresh whole inside old new

/-! ### Pieces -/

section Pieces

variable {known free : List SymbolId} {n : Node}

theorem IsMark.builds {v : Variable} {value : Literal} (h : IsMark v value n) (own : v.id ∈ known)
    (bound : v.id ∈ free) : Builds known free [] [] n := by
  cases h
  exact .assign own bound (.const value)

theorem IsCopy.builds {target source : Variable} (h : IsCopy target source n)
    (own : target.id ∈ known) (own' : source.id ∈ known) (bound : target.id ∈ free)
    (bound' : source.id ∈ free) : Builds known free [] [] n := by
  cases h
  exact .assign own bound (.var own' bound')

theorem IsRaise.builds {v : Variable} (h : IsRaise v n) (own : v.id ∈ known)
    (bound : v.id ∈ free) : Builds known free [] [] n := by
  cases h
  exact .raise (.var own bound)

/-- A value kept behind a clause that catches everything. -/
theorem IsCatchAll.builds {cap : Captured} {e : Variable} {c : Clause Node} {parts : List Node}
    {i : NodeId} {inside : Node} (h : IsCatchAll cap e c)
    (value : Builds known free [] parts inside)
    (own : ∀ id ∈ [cap.ex.id, cap.caught.id, e.id], id ∈ known)
    (bound : ∀ id ∈ [cap.ex.id, cap.caught.id], id ∈ free) :
    Builds known free [] parts ⟨i, .region inside [c] none none⟩ := by
  obtain @⟨j, keep, mark, copies, marks⟩ := h
  have built := @Builds.region known free i inside parts
    [⟨some e, none, (⟨j, .block [] [keep, mark]⟩, [])⟩] value (by simpa using own e.id (by simp)) ?_
    (by simp [Clause.children])
  · simpa [Clause.children, Clause.map] using built
  · intro c member y child
    cases List.mem_singleton.1 member
    cases List.mem_singleton.1 child
    have weak : free ⊆ e.id :: free := List.subset_cons_self _ _
    have keeps := copies.builds (own _ (by simp)) (own _ (by simp)) (weak (bound _ (by simp)))
      List.mem_cons_self
    exact .block (.cons keeps (.cons (marks.builds (own _ (by simp)) (weak (bound _ (by simp))))
      .nil))

/-- The end of a protected body. -/
theorem IsInside.builds {value inside : Node} {leave : Label} {left : List Leaving}
    {parts : List Node} (h : IsInside value leave left inside)
    (built : Builds known free [] parts value) (own : leave.id ∈ known) :
    Builds known free [] parts inside := by
  cases h with
  | plain => exact built
  | labelled i j =>
    have row := Builds.block (i := i) (.cons built (.cons (Builds.label (i := j) own) .nil))
    simpa using row

theorem ResumesExits.builds {exits : Exits} {k : Nat} {ls : List Leaving} {cases : List (Case Node)}
    (h : ResumesExits exits k ls cases) (noted : Noted (· ∈ known) ls)
    (own : exits.retval.id ∈ known) (bound : exits.retval.id ∈ free) :
    ∀ c ∈ cases, Builds known free [] [] c.body := by
  induction h with
  | nil => exact nofun
  | cons head tail ih =>
    refine List.forall_mem_cons.2 ⟨?_, ih fun target member ↦
      noted target (List.mem_cons_of_mem _ member)⟩
    cases head with
    | jump => exact .goto (noted _ List.mem_cons_self)
    | ret => exact .ret (.var own bound)

theorem DispatchesExits.builds {exits : Exits} {ls : List Leaving} {dispatch : List Node}
    (h : DispatchesExits exits ls dispatch) (noted : Noted (· ∈ known) ls)
    (own : exits.retval.id ∈ known) (own' : exits.pending.id ∈ known)
    (bound : exits.retval.id ∈ free) (bound' : exits.pending.id ∈ free) :
    Builds.Row known free dispatch (dispatch.map fun _ ↦ []) := by
  cases h with
  | none => exact .nil
  | @switch i j left cases _ resumes =>
    have below := resumes.builds noted own bound
    have built := @Builds.switch known free i _ [] (cases.map (Case.map fun m ↦ (m, [])))
      (.var (i := j) own' bound') (List.forall_mem_map.2 below)
    have same : (cases.map (Case.map fun m ↦ (m, ([] : List Node)))).map (Case.map Prod.fst) =
        cases := by
      rw [List.map_map]
      exact List.map_id _
    have none : (cases.map (Case.map fun m ↦ (m, ([] : List Node)))).flatMap
        (fun c ↦ c.body.2) = [] := List.flatMap_eq_nil_iff.2 (List.forall_mem_map.2 fun _ _ ↦ rfl)
    rw [same, none] at built
    exact .cons built .nil

/-- Clauses that only note what they caught are built around their filters. -/
theorem MovesClauses.clauses {cap : Captured} {which : Variable} {k : Nat} {cs : List (Clause Node)}
    {m : Moved} {new : List Variable} (h : MovesClauses cap which k cs m new)
    (own : ∀ v ∈ cap.ex :: which :: m.bound, v.id ∈ known) (bound : cap.ex.id ∈ free)
    (bound' : which.id ∈ free) :
    ∃ xs : List (Clause (Node × List Node)), xs.map (Clause.map Prod.fst) = m.clauses ∧
      (xs.flatMap Clause.children).flatMap Prod.snd = cs.flatMap (fun c ↦ c.filter.toList) ∧
      xs.filterMap Clause.binder = m.bound ∧
      ∀ x ∈ xs, ∀ y ∈ x.children,
        Builds known (x.binder.toList.map Variable.id ++ free) [] y.2 y.1 := by
  induction h with
  | nil => exact ⟨[], rfl, rfl, rfl, nofun⟩
  | @cons k c _ _ cs m first rest v _ head tail ih =>
    obtain ⟨xs, eq, parts, binders, below⟩ := ih fun w member ↦ own w (by
      simp only [List.mem_cons] at member ⊢
      tauto)
    cases head with
    | @mk i i' j keep mark restore handler copies marks edits restores =>
      have weak : free ⊆ v.id :: free := List.subset_cons_self _ _
      have keeps := copies.builds (own _ (by simp)) (own _ (by simp)) (weak bound)
        List.mem_cons_self
      have note : Builds known (v.id :: free) [] [] ⟨i, .block [] [keep, mark]⟩ :=
        .block (.cons keeps (.cons (marks.builds (own _ (by simp)) (weak bound')) .nil))
      refine ⟨⟨some v, c.filter.map fun f ↦ (f, [f]), (⟨i, .block [] [keep, mark]⟩, [])⟩ :: xs,
        ?_, ?_, ?_, List.forall_mem_cons.2 ⟨?_, below⟩⟩
      · simp [Clause.map, eq, Function.comp_def]
      · have single : (c.filter.map fun f ↦ (f, [f])).toList.flatMap Prod.snd =
          c.filter.toList := by
          cases c.filter <;> rfl
        simp only [List.flatMap_cons, List.flatMap_append, List.flatMap_nil, List.append_nil,
          Clause.children, parts, single]
      · simp [binders]
      · intro y child
        rcases List.mem_append.1 child with filter | body
        · obtain ⟨f, -, rfl⟩ := Option.map_eq_some_iff.1 (Option.mem_toList.1 filter)
          exact .part _ _ f
        · cases List.mem_singleton.1 body
          exact note

/-- The cases that handle what was caught are built around copies of the handler bodies. -/
theorem MovesClauses.cases {cap : Captured} {which : Variable} {k : Nat} {cs : List (Clause Node)}
    {m : Moved} {new : List Variable} (h : MovesClauses cap which k cs m new)
    (own : ∀ v ∈ cap.ex :: cap.value :: m.bound, v.id ∈ known ∧ v.id ∈ free) :
    ∃ (xs : List (Case (Node × List Node))) (zs : List (Node × Node)),
      xs.map (Case.map Prod.fst) = m.cases ∧ xs.flatMap (fun x ↦ x.body.2) = zs.map Prod.snd ∧
      zs.map Prod.fst = cs.map Clause.body ∧ (∀ z ∈ zs, Edits [cap.ex.id] [] z.1 z.2) ∧
      ∀ x ∈ xs, Builds known free [] x.body.2 x.body.1 := by
  induction h with
  | nil => exact ⟨[], [], rfl, rfl, rfl, nofun, nofun⟩
  | @cons k c _ _ cs m first rest v _ head tail ih =>
    obtain ⟨xs, zs, eq, parts, sources, edits, below⟩ := ih fun w member ↦ own w (by
      simp only [List.mem_cons] at member ⊢
      tauto)
    cases head with
    | @mk i i' j keep mark restore handler copies marks edit restores =>
      have restored := restores.builds (own _ (by simp)).1 (own _ (by simp)).1 (own _ (by simp)).2
        (own _ (by simp)).2
      have value : Builds known free [] [handler] ⟨j, .assign cap.value handler⟩ :=
        .assign (own _ (by simp)).1 (own _ (by simp)).2 (.part _ _ handler)
      have body : Builds known free [] [handler]
          ⟨i', .block [] [restore, ⟨j, .assign cap.value handler⟩]⟩ :=
        .block (.cons restored (.cons value .nil))
      exact ⟨⟨_, (_, [handler])⟩ :: xs, (c.body, handler) :: zs, by rw [List.map_cons, eq]; rfl,
        by rw [List.flatMap_cons, parts]; rfl, by rw [List.map_cons, sources]; rfl,
        List.forall_mem_cons.2 ⟨edit, edits⟩, List.forall_mem_cons.2 ⟨body, below⟩⟩

/-- The variables that hold exceptions are those that the clauses bind, and new ones. -/
theorem MovesClauses.bound_perm {cap : Captured} {which : Variable} {k : Nat}
    {cs : List (Clause Node)} {m : Moved} {new : List Variable}
    (h : MovesClauses cap which k cs m new) :
    m.bound.Perm (cs.filterMap Clause.binder ++ new) := by
  induction h with
  | nil => exact .refl _
  | @cons k c _ _ cs m first rest v holds head tail ih =>
    obtain ⟨binder, filter, body⟩ := c
    cases holds with
    | own => exact ih.cons v
    | new => exact (ih.cons v).trans List.perm_middle.symm

end Pieces

/-! ### Steps -/

/-- The scopes of the parts of a region. -/
theorem Shape.mem_binders_of_scope {body : Node} {clauses : List (Clause Node)}
    {cleanup fault : Option Node} {vs : List Variable} {c : Node}
    (h : (vs, c) ∈ (Shape.region body clauses cleanup fault).scopes) {id : SymbolId}
    (inside : id ∈ vs.map Variable.id) :
    id ∈ (clauses.filterMap Clause.binder).map Variable.id := by
  simp only [Shape.scopes, List.mem_cons, List.mem_append, List.mem_flatMap, List.mem_map,
    Prod.mk.injEq, List.cons_append] at h
  rcases h with ⟨rfl, -⟩ | ⟨clause, member, _, -, rfl, -⟩ | ⟨_, -, rfl, -⟩
  · cases inside
  · obtain ⟨v, binds, rfl⟩ := List.mem_map.1 inside
    exact List.mem_map_of_mem (List.mem_filterMap.2 ⟨clause, member, Option.mem_toList.1 binds⟩)
  · cases inside

theorem MovesFault.relocates {body fault n : Node} {ids : List SymbolId} {s s' : Supply}
    (h : MovesFault body fault n ids) (hands : s.Hands ids s') :
    Relocates (.region body [] none (some fault)) s n s' := by
  cases h with
  | @mk i i₁ i₂ i₃ i₄ i₅ i₆ cap e start again clause starts catches raises =>
    let known := [cap.ex.id, cap.caught.id, cap.value.id, e.id]
    let free := [cap.ex, cap.caught, cap.value].map Variable.id
    have read {i : NodeId} {v : Variable} (member : v ∈ [cap.ex, cap.caught, cap.value]) :
        Builds known free [] [] ⟨i, .var v⟩ := by
      refine .var ?_ (List.mem_map_of_mem member)
      exact List.mem_append_left [e.id] (List.mem_map_of_mem (f := Variable.id) member)
    have value : Builds known free [] [body] ⟨i₂, .assign cap.value body⟩ :=
      .assign (by simp [known]) (by simp [free]) (.part _ _ body)
    have region : Builds known free [] [body]
        ⟨i₁, .region ⟨i₂, .assign cap.value body⟩ [clause] none none⟩ :=
      catches.builds value (by simp [known]) (by simp [free])
    have raises : Builds known free [] [] again :=
      raises.builds (by simp [known]) (by simp [free])
    have handle : Builds known free [] [fault]
        ⟨i₃, .branch ⟨i₄, .var cap.caught⟩ ⟨i₅, .block [] [fault, again]⟩ none⟩ :=
      .branch (read (by simp)) (.block (.cons (.part _ _ fault) (.cons raises .nil)))
    have result : Builds known free [] [] ⟨i₆, .var cap.value⟩ := read (by simp)
    have built := @Builds.declaring known i [cap.ex, cap.caught, cap.value] _ _
      (.cons (starts.builds (by simp [known]) (by simp)) (.cons region (.cons handle
        (.cons result .nil)))) (by simp [known])
    refine @Builds.relocates _ s s' _ known _ _ [] [] _ built hands nofun
      [(body, body), (fault, fault)] (.refl _) (.refl _) ?_ nofun nofun
      (fun id own ↦ .inl own) ?_ ?_
    · simp [Edits.refl]
    · intro id
      exact Nat.le_add_left_of_le (List.Sublist.count_le id (by simp))
    · intro vs c scope id inside
      cases Shape.mem_binders_of_scope scope inside

theorem MovesCleanup.relocates {body cleanup n : Node} {ids : List SymbolId} {s s' : Supply}
    (h : MovesCleanup body cleanup n ids) (hands : s.Hands ids s') :
    Relocates (.region body [] (some cleanup) none) s n s' := by
  cases h with
  | @mk i i₁ i₂ i₃ i₄ i₅ cap exits e start clear copied inside raises dispatch left clause named
      starts clears edits noted isInside catches again dispatches =>
    let ids := [cap.ex.id, cap.caught.id, cap.value.id, exits.leave.id, exits.pending.id,
      exits.retval.id, e.id]
    let known := ids ++ body.symbols
    let declared := [cap.ex, cap.caught, cap.value, exits.pending, exits.retval]
    have own {id : SymbolId} (member : id ∈ ids) : id ∈ known := List.mem_append_left _ member
    have noted : Noted (· ∈ known) left := noted fun id inside ↦
      List.mem_append_right _ (body.targets_symbols inside)
    -- From the inside out: the copy of the body, the region around it, what follows the region.
    have value : Builds known (declared.map Variable.id) [] [copied]
        ⟨i₂, .assign cap.value copied⟩ :=
      .assign (own (by simp [ids])) (by simp [declared]) (.part _ _ copied)
    have region : Builds known (declared.map Variable.id) [] [copied]
        ⟨i₁, .region inside [clause] none none⟩ := by
      refine catches.builds (isInside.builds value (own (by simp [ids]))) ?_ (by simp [declared])
      intro id member
      refine own ?_
      simp only [List.mem_cons, List.not_mem_nil, or_false] at member
      rcases member with rfl | rfl | rfl <;> simp [ids]
    have raised : Builds known (declared.map Variable.id) [] []
        ⟨i₃, .branch ⟨i₄, .var cap.caught⟩ raises none⟩ :=
      .branch (.var (own (by simp [ids])) (by simp [declared]))
        (again.builds (own (by simp [ids])) (by simp [declared]))
    have result : Builds known (declared.map Variable.id) [] [] ⟨i₅, .var cap.value⟩ :=
      .var (own (by simp [ids])) (by simp [declared])
    have front : Builds.Row known (declared.map Variable.id)
        [start, clear, ⟨i₁, .region inside [clause] none none⟩, cleanup,
          ⟨i₃, .branch ⟨i₄, .var cap.caught⟩ raises none⟩] [[], [], [copied], [cleanup], []] :=
      .cons (starts.builds (own (by simp [ids])) (by simp [declared]))
        (.cons (clears.builds (own (by simp [ids])) (by simp [declared]))
          (.cons region (.cons (.part _ _ cleanup) (.cons raised .nil))))
    have middle : Builds.Row known (declared.map Variable.id) dispatch (dispatch.map fun _ ↦ []) :=
      dispatches.builds noted (own (by simp [ids])) (own (by simp [ids]))
      (by simp [declared]) (by simp [declared])
    have row := List.rel_append (List.rel_append front middle) (.cons result .nil)
    have sublist : (declared.map Variable.id).Sublist ids := by simp [declared, ids]
    have built := Builds.declaring (i := i) declared row fun id member ↦ own (sublist.subset member)
    rw [show List.flatten _ = [copied, cleanup] by simp] at built
    refine @Builds.relocates _ s s' _ known _ _ exits.variables
      ((leaveOf exits.leave left).map Label.id) _ built hands nofun
      [(body, copied), (cleanup, cleanup)] (.refl _) (.refl _) ?_ ?_ ?_ ?_ ?_ ?_
    · simp [edits, Edits.refl]
    · intro id member
      simp only [Exits.variables, List.mem_cons, List.not_mem_nil, or_false] at member
      rcases member with rfl | rfl <;> simp [declared]
    · intro id member
      rw [leaveOf] at member
      split at member
      · cases member
      · cases List.mem_singleton.1 member
        simp
    · intro id member
      refine (List.mem_append.1 member).imp_right fun inside ↦ .inr ?_
      exact List.mem_flatMap.2 ⟨body, List.mem_cons_self, inside⟩
    · exact fun id ↦ Nat.le_add_left_of_le (sublist.count_le id)
    · intro vs c scope id inside
      cases Shape.mem_binders_of_scope scope inside

/-- Filters and bodies of clauses are their children. -/
theorem Clause.children_perm {α : Type} (cs : List (Clause α)) :
    (cs.flatMap (fun c ↦ c.filter.toList) ++ cs.map Clause.body).Perm
      (cs.flatMap Clause.children) := by
  rw [List.map_eq_flatMap]
  exact List.flatMap_append_perm cs (fun c ↦ c.filter.toList) fun c ↦ [c.body]

theorem MovesCaught.relocates {body n : Node} {cs : List (Clause Node)} {ids : List SymbolId}
    {s s' : Supply} (h : MovesCaught body cs n ids) (hands : s.Hands ids s')
    (quiet : ∀ c ∈ cs, ∀ filter ∈ c.filter, filter.containsAwait = false) :
    Relocates (.region body cs none none) s n s' := by
  cases h with
  | @mk i i₁ i₂ i₃ i₄ i₅ cap which m new start clauses starts =>
    let ids := cap.ex.id :: cap.caught.id :: cap.value.id :: which.id :: new.map Variable.id
    let known := ids ++ (cs.filterMap Clause.binder).map Variable.id
    let declared := cap.ex :: which :: cap.value :: m.bound
    let free := declared.map Variable.id
    -- A variable in the tree is the binder of a clause or was handed out for one without.
    have perm := clauses.bound_perm
    have own {v : Variable} (member : v ∈ declared) : v.id ∈ known := by
      simp only [declared, List.mem_cons, perm.mem_iff, List.mem_append] at member
      rcases member with rfl | rfl | rfl | binder | fresh
      · simp [known, ids]
      · simp [known, ids]
      · simp [known, ids]
      · exact List.mem_append_right _ (List.mem_map_of_mem binder)
      · refine List.mem_append_left _ (List.mem_append_right [cap.ex.id, cap.caught.id,
          cap.value.id, which.id] (List.mem_map_of_mem fresh))
    have bound {v : Variable} (member : v ∈ declared) : v.id ∈ free := List.mem_map_of_mem member
    have ex : cap.ex ∈ declared := by simp [declared]
    have index : which ∈ declared := by simp [declared]
    have kept : cap.value ∈ declared := by simp [declared]
    have bounds {v : Variable} (member : v ∈ m.bound) : v ∈ declared := by simp [declared, member]
    obtain ⟨xs, eq, filters, binders, below⟩ :=
      @MovesClauses.clauses known free cap which 0 cs m new clauses
        (by simpa [own ex, own index] using fun v member ↦ own (bounds member)) (bound ex)
      (bound index)
    obtain ⟨ys, zs, eq', results, sources, edits, below'⟩ :=
      @MovesClauses.cases known free cap which 0 cs m new clauses
        (by simpa [own ex, own kept, bound ex, bound kept] using
          fun v member ↦ ⟨own (bounds member), bound (bounds member)⟩)
    have value : Builds known free [] [body] ⟨i₂, .assign cap.value body⟩ :=
      .assign (own kept) (bound kept) (.part _ _ body)
    -- What is left in the clauses are filters, which do not suspend.
    have silent : ∀ y ∈ xs.flatMap Clause.children, y.2.any Node.containsAwait = false := by
      intro y child
      refine List.any_eq_false.2 fun f part ↦ ?_
      have filter : f ∈ cs.flatMap fun c ↦ c.filter.toList :=
        filters ▸ List.mem_flatMap.2 ⟨y, child, part⟩
      obtain ⟨c, member, found⟩ := List.mem_flatMap.1 filter
      rw [quiet c member f (Option.mem_toList.1 found)]
      exact Bool.false_ne_true
    have region := Builds.region (i := i₁) xs value (by
      rw [binders]
      exact fun v member ↦ own (bounds member)) below silent
    have test : Builds known free [] [] ⟨i₄, .var which⟩ := .var (own index) (bound index)
    have handle := Builds.switch (i := i₃) ys test below'
    rw [eq, filters] at region
    rw [eq', results] at handle
    have result : Builds known free [] [] ⟨i₅, .var cap.value⟩ := .var (own kept) (bound kept)
    have built := Builds.declaring (i := i) declared
      (.cons (starts.builds (own index) (bound index))
      (.cons region (.cons handle (.cons result .nil)))) (List.forall_mem_map.2 fun v ↦ own)
    rw [show List.flatten _ = body :: (cs.flatMap (fun c ↦ c.filter.toList) ++ zs.map Prod.snd) by
      simp] at built
    refine @Builds.relocates _ s s' _ known _ _ [cap.ex.id] [] _ built hands (by rintro ⟨⟩)
      ((body, body) :: ((cs.flatMap fun c ↦ c.filter.toList).map (fun f ↦ (f, f)) ++ zs))
      ?_ ?_ ?_ ?_ ?_ ?_ ?_ ?_
    · simpa [Shape.children, Function.comp_def, sources] using Clause.children_perm cs
    · simp [Function.comp_def]
    · refine List.forall_mem_cons.2 ⟨.refl _ _ body, fun z member ↦ ?_⟩
      rcases List.mem_append.1 member with filter | handler
      · obtain ⟨f, -, rfl⟩ := List.mem_map.1 filter
        exact .refl _ _ f
      · exact edits z handler
    · simp [declared]
    · exact List.forall_mem_nil _
    · exact fun id member ↦ (List.mem_append.1 member).imp_right .inl
    · intro id
      have := (perm.map Variable.id).count_eq id
      rw [List.map_append, List.count_append] at this
      simp only [declared, Shape.declared, Shape.binders, List.nil_append, List.map_cons,
        List.count_cons, this]
      omega
    · intro vs c scope id inside
      obtain ⟨v, binder, rfl⟩ := List.mem_map.1 (Shape.mem_binders_of_scope scope inside)
      exact bound (bounds (perm.mem_iff.2 (List.mem_append_left new binder)))

/-! ### Steps in a row -/

/-- A step that does nothing. -/
theorem Relocates.nothing (body : Node) (s : Supply) :
    Relocates (.region body [] none none) s body s where
  reshapes := by
    refine ⟨Nat.le_refl _, ?_, fun id inside ↦ .inl (.inr ?_), fun name called ↦ ?_, fun id ↦ ?_,
      fun within ↦ ?_⟩
    · simp [Shape.children, Kind.beq_eq_decide, Shape.kind]
    · simpa [Shape.children] using inside
    · simpa [Shape.children, Shape.ownCalls] using called
    · simp [Shape.children, Shape.declared, Shape.binders]
    · exact ((Node.scoped_mk.1 within).2 [] body List.mem_cons_self).mono fun id inside ↦
        inside.resolve_left List.not_mem_nil
  hoistable c child := by
    cases List.mem_singleton.1 child
    exact List.Subset.refl _
  ready _ _ below := below body List.mem_cons_self

/-- A region that stays, as nothing in its handlers suspends. -/
theorem Relocates.stays {body : Node} {cs : List (Clause Node)} {cleanup fault : Option Node}
    {s : Supply} {n : Node} {s' : Supply}
    (h : runs (node (.region body cs cleanup fault)) s n s')
    (quiet : ∀ part ∈ (Shape.region body cs cleanup fault).handlers, part.containsAwait = false) :
    Relocates (.region body cs cleanup fault) s n s' := by
  obtain ⟨rfl, rfl⟩ := runs_build h
  refine ⟨.node _ _ rfl, fun c child v inside ↦ ?_, fun _ _ below ↦ ?_⟩
  · rw [Node.hoistable_mk]
    exact List.mem_append_left _ (List.mem_flatMap.2 ⟨c, child, inside⟩)
  · refine Node.forall_walk_mk.2 ⟨⟨⟨⟨?_, nofun⟩, fun split ↦ ?_⟩, ?_⟩, below⟩
    · rintro body clauses cleanup fault ⟨⟩ clause member filter found
      refine quiet filter (List.mem_append_left _ (List.mem_append_left _
        (List.mem_flatMap.2 ⟨clause, member, List.mem_append_left _ ?_⟩)))
      exact Option.mem_toList.2 found
    · simp [Node.shape, Shape.operands] at split
    · rintro body clauses cleanup fault ⟨⟩
      exact quiet

/-! ### A step around the outcome of a step -/

section Nest

variable {body b n : Node} {cs : List (Clause Node)} {s s₁ s' : Supply}
variable {cleanup fault cleanup' fault' cleanup'' fault'' : Option Node}

/-- The children of a region whose parts are split among two steps. -/
theorem Shape.children_nest (body : Node) (cs : List (Clause Node))
    (parts : cleanup''.toList ++ fault''.toList =
      cleanup.toList ++ fault.toList ++ (cleanup'.toList ++ fault'.toList)) :
    (region body cs cleanup'' fault'').children =
      (region body cs cleanup fault).children ++ (cleanup'.toList ++ fault'.toList) := by
  simp [Shape.children, parts]

/-- The scopes of a region whose parts are split among two steps. -/
theorem Shape.scopes_nest (body : Node) (cs : List (Clause Node))
    (parts : cleanup''.toList ++ fault''.toList =
      cleanup.toList ++ fault.toList ++ (cleanup'.toList ++ fault'.toList)) :
    (region body cs cleanup'' fault'').scopes = (region body cs cleanup fault).scopes ++
      (cleanup'.toList ++ fault'.toList).map fun c ↦ ([], c) := by
  simp only [Shape.scopes, parts, List.map_append, List.append_assoc]

/-- A region without clauses has its body and its parts. -/
theorem Shape.children_around :
    (region b [] cleanup' fault').children = b :: (cleanup'.toList ++ fault'.toList) := by
  simp [Shape.children]

/-- In a region without clauses nothing is bound. -/
theorem Shape.scopes_around : (region b [] cleanup' fault').scopes =
    ([], b) :: (cleanup'.toList ++ fault'.toList).map fun c ↦ ([], c) := by
  simp [Shape.scopes]

/-- Two steps in a row rebuild the layer whose parts they share. -/
theorem Reshapes.nest (first : Reshapes false (.region body cs cleanup fault) s b s₁)
    (second : Reshapes false (.region b [] cleanup' fault') s₁ n s')
    (parts : cleanup''.toList ++ fault''.toList =
      cleanup.toList ++ fault.toList ++ (cleanup'.toList ++ fault'.toList)) :
    Reshapes false (.region body cs cleanup'' fault'') s n s' := by
  obtain ⟨le, awaits, symbols, calls, names, inScope⟩ := first
  obtain ⟨le', awaits', symbols', calls', names', inScope'⟩ := second
  have children := Shape.children_nest body cs parts
  have scopes := Shape.scopes_nest body cs parts
  have fresh := Supply.fresh_append le le'
  -- The number of a name is the same in the layer as in the one of the first step.
  change ∀ id, _ ≤ List.count id (((Shape.region body cs cleanup'' fault'').declared ++
    (Shape.region body cs cleanup'' fault'').binders).map Variable.id) + _ + _ at names
  rw [Shape.children_around] at awaits' symbols' calls' names'
  refine ⟨Nat.le_trans le le', ?_, fun id inside ↦ ?_, ?_, fun id ↦ ?_, fun {bound i} within ↦ ?_⟩
  · change b.containsAwait = (Shape.region body cs cleanup fault).children.any _ at awaits
    change n.containsAwait = (b :: (cleanup'.toList ++ fault'.toList)).any _ at awaits'
    change n.containsAwait = (Shape.region body cs cleanup'' fault'').children.any _
    simp only [awaits', children, List.any_cons, List.any_append, awaits]
  · rw [children, ← fresh, List.flatMap_append, List.mem_append, List.mem_append]
    rcases symbols' id inside with (own | below) | new
    · cases own
    · rw [List.flatMap_cons, List.mem_append] at below
      rcases below with below | below
      · rcases symbols id below with (own | below) | new
        · exact .inl (.inl own)
        · exact .inl (.inr (.inl below))
        · exact .inr (.inl new)
      · exact .inl (.inr (.inr below))
    · exact .inr (.inr new)
  · change n.calls ⊆ (Shape.region body cs cleanup'' fault'').children.flatMap Node.calls
    rw [children, List.flatMap_append]
    change n.calls ⊆ (b :: (cleanup'.toList ++ fault'.toList)).flatMap Node.calls at calls'
    rw [List.flatMap_cons] at calls'
    exact List.Subset.trans calls' (List.append_subset.2
      ⟨List.subset_append_of_subset_left _ calls, List.subset_append_right _ _⟩)
  · have first := names id
    have second := names' id
    rw [show ((Shape.region b [] cleanup' fault').declared ++
        (Shape.region b [] cleanup' fault').binders).map Variable.id = [] from rfl,
      List.count_nil, List.flatMap_cons, List.count_append] at second
    rw [children, ← fresh, List.flatMap_append, List.count_append, List.count_append]
    omega
  · rw [Node.scoped_mk] at within
    refine @inScope' bound i (Node.scoped_mk.2 ⟨List.forall_mem_nil _, fun vs c member ↦ ?_⟩)
    rw [Shape.scopes_around] at member
    rcases List.mem_cons.1 member with head | tail
    · cases head
      have inside : Node.Scoped bound ⟨i, .region body cs cleanup fault⟩ :=
        Node.scoped_mk.2 ⟨List.forall_mem_nil _, fun vs c member ↦
          within.2 vs c (scopes ▸ List.mem_append_left _ member)⟩
      exact (inScope inside).mono fun id ↦ .inr
    · exact within.2 vs c (scopes ▸ List.mem_append_right _ tail)

/-- What the second of two steps leaves is ready if the whole layer is. -/
theorem Relocates.nest_ready (first : Relocates (.region body cs cleanup fault) s b s₁)
    (second : Relocates (.region b [] cleanup' fault') s₁ n s')
    (parts : cleanup''.toList ++ fault''.toList =
      cleanup.toList ++ fault.toList ++ (cleanup'.toList ++ fault'.toList))
    {keeps : SymbolId → Prop} (whole : s'.Whole)
    (old : Node.Older ⟨0, .region body cs cleanup'' fault''⟩ s)
    (below : ∀ c ∈ (Shape.region body cs cleanup'' fault'').children,
      ∀ m ∈ c.walk, m.Ready keeps) : ∀ m ∈ n.walk, m.Ready keeps := by
  obtain ⟨⟨le, -, symbols, -, -, -⟩, -, ready⟩ := first
  obtain ⟨⟨le', -, -, -, -, -⟩, -, ready'⟩ := second
  have children := Shape.children_nest body cs parts
  have own : ∀ id ∈ (Shape.region body cs cleanup'' fault'').ownSymbols ++
      (Shape.region body cs cleanup'' fault'').children.flatMap Node.symbols,
      id.toNat < s.symbol := fun id inside ↦ old id (Node.symbols_mk 0 _ ▸ inside)
  rw [children, List.flatMap_append] at own
  -- What the first step leaves is made of symbols of the layer and of those it was handed.
  have older : b.Older s₁ := by
    intro id inside
    rcases symbols id inside with (here | below) | new
    · exact Nat.lt_of_lt_of_le (own id (List.mem_append_left _ here)) le
    · exact Nat.lt_of_lt_of_le
        (own id (List.mem_append_right _ (List.mem_append_left _ below))) le
    · exact (Supply.mem_fresh (Nat.le_trans le' whole) new).2
  refine ready' whole (fun id inside ↦ ?_) ?_
  · rw [Node.symbols_mk, Shape.children_around, List.flatMap_cons] at inside
    rcases List.mem_append.1 inside with none | inside
    · cases none
    · rcases List.mem_append.1 inside with here | there
      · exact older id here
      · exact Nat.lt_of_lt_of_le
          (own id (List.mem_append_right _ (List.mem_append_right _ there))) le
  · rw [Shape.children_around]
    refine List.forall_mem_cons.2 ⟨ready (Nat.le_trans le' whole) (fun id inside ↦ ?_)
      fun c child ↦ ?_, fun c child ↦ ?_⟩
    · rw [Node.symbols_mk] at inside
      refine own id ?_
      rcases List.mem_append.1 inside with here | there
      · exact List.mem_append_left _ here
      · exact List.mem_append_right _ (List.mem_append_left _ there)
    · exact below c (children ▸ List.mem_append_left _ child)
    · exact below c (children ▸ List.mem_append_right _ child)

/-- A step around the outcome of a step. -/
theorem Relocates.nest (first : Relocates (.region body cs cleanup fault) s b s₁)
    (second : Relocates (.region b [] cleanup' fault') s₁ n s')
    (parts : cleanup''.toList ++ fault''.toList =
      cleanup.toList ++ fault.toList ++ (cleanup'.toList ++ fault'.toList)) :
    Relocates (.region body cs cleanup'' fault'') s n s' := by
  refine ⟨first.reshapes.nest second.reshapes parts, fun c child ↦ ?_,
    first.nest_ready second parts⟩
  have hoistable := second.hoistable
  rw [Shape.children_around] at hoistable
  rw [Shape.children_nest body cs parts] at child
  rcases List.mem_append.1 child with here | there
  · exact List.Subset.trans (first.hoistable c here) (hoistable b List.mem_cons_self)
  · exact hoistable c (List.mem_cons_of_mem b there)

end Nest

/-! ### Regions and trees -/

/-- The clauses of a region around its body. -/
def Handlers.withClauses (clauses : List (Clause Node)) (body : Node) : Build Node :=
  if clauses.isEmpty then pure body
  else if clauses.any fun c ↦ c.body.containsAwait then reduceClauses body clauses
  else node (.region body clauses none none)

/-- The finally body of a region around the rest of it. -/
def Handlers.withCleanup : Option Node → Node → Build Node
  | none, body => pure body
  | some part, body =>
    if part.containsAwait then reduceCleanup body part else node (.region body [] (some part) none)

/-- The fault body of a region around the rest of it. -/
def Handlers.withFault : Option Node → Node → Build Node
  | none, body => pure body
  | some part, body =>
    if part.containsAwait then reduceFault body part else node (.region body [] none (some part))

theorem Handlers.reduceRegion_eq (body : Node) (clauses : List (Clause Node))
    (cleanup fault : Option Node) :
    reduceRegion body clauses cleanup fault =
      if !((clauses.any fun c ↦ c.body.containsAwait) || cleanup.any Node.containsAwait ||
        fault.any Node.containsAwait) then
        node (.region body clauses cleanup fault)
      else (do withFault fault (← withCleanup cleanup (← withClauses clauses body))) := by
  have push {α β : Type} {c : Bool} (x y : Build α) (k : α → Build β) :
      (if c then x else y) >>= k = if c then x >>= k else y >>= k := by
    cases c <;> rfl
  rw [reduceRegion]
  simp only [withClauses, push, pure_bind]
  cases cleanup <;> cases fault <;> simp only [withCleanup, withFault, push, pure_bind, bind_pure]

section Parts

variable {body n : Node} {cs : List (Clause Node)} {cleanup fault : Option Node} {s s' : Supply}

/-- Clauses that do not suspend, and whose filters do not. -/
theorem Clause.quiet_of_bodies (free : (cs.any fun c ↦ c.body.containsAwait) = false)
    (quiet : ∀ c ∈ cs, ∀ filter ∈ c.filter, filter.containsAwait = false) :
    ∀ part ∈ cs.flatMap Clause.children, part.containsAwait = false := by
  intro part child
  obtain ⟨c, member, inside⟩ := List.mem_flatMap.1 child
  rcases List.mem_append.1 inside with filter | body
  · exact quiet c member part (Option.mem_toList.1 filter)
  · cases List.mem_singleton.1 body
    simpa using List.any_eq_false.1 free c member

theorem runs_withClauses (h : runs (withClauses cs body) s n s')
    (quiet : ∀ c ∈ cs, ∀ filter ∈ c.filter, filter.containsAwait = false) :
    Relocates (.region body cs none none) s n s' := by
  rw [withClauses] at h
  split at h
  · rename_i none
    obtain ⟨rfl, rfl⟩ := runs_pure.1 h
    rw [List.isEmpty_iff.1 none]
    exact .nothing n s'
  · split at h
    · obtain ⟨ids, moves, hands⟩ := runs_reduceClauses h
      exact moves.relocates hands quiet
    · rename_i free
      refine .stays h fun part member ↦ ?_
      rw [Shape.handlers, Option.toList_none, List.append_nil, List.append_nil] at member
      exact Clause.quiet_of_bodies (Bool.eq_false_iff.2 free) quiet part member

theorem runs_withCleanup (h : runs (withCleanup cleanup body) s n s') :
    Relocates (.region body [] cleanup none) s n s' := by
  cases cleanup with
  | none =>
    obtain ⟨rfl, rfl⟩ := runs_pure.1 h
    exact .nothing n s'
  | some part =>
    rw [withCleanup] at h
    split at h
    · obtain ⟨ids, moves, hands⟩ := runs_reduceCleanup h
      exact moves.relocates hands
    · rename_i free
      refine .stays h fun part member ↦ ?_
      cases List.mem_singleton.1 member
      exact Bool.eq_false_iff.2 free

theorem runs_withFault (h : runs (withFault fault body) s n s') :
    Relocates (.region body [] none fault) s n s' := by
  cases fault with
  | none =>
    obtain ⟨rfl, rfl⟩ := runs_pure.1 h
    exact .nothing n s'
  | some part =>
    rw [withFault] at h
    split at h
    · obtain ⟨ids, moves, hands⟩ := runs_reduceFault h
      exact moves.relocates hands
    · rename_i free
      refine .stays h fun part member ↦ ?_
      cases List.mem_singleton.1 member
      exact Bool.eq_false_iff.2 free

/-- A region is taken apart as far as its handlers suspend. -/
theorem runs_reduceRegion (h : runs (reduceRegion body cs cleanup fault) s n s')
    (quiet : ∀ c ∈ cs, ∀ filter ∈ c.filter, filter.containsAwait = false) :
    Relocates (.region body cs cleanup fault) s n s' := by
  rw [reduceRegion_eq] at h
  split at h
  · rename_i free
    simp only [Bool.not_eq_true', Bool.or_eq_false_iff] at free
    refine .stays h fun part member ↦ ?_
    have still {o : Option Node} (free : o.any Node.containsAwait = false)
        (inside : part ∈ o.toList) :
        part.containsAwait = false := by
      rw [Option.mem_toList.1 inside] at free
      exact free
    rcases List.mem_append.1 member with member | inFault
    · rcases List.mem_append.1 member with inClause | inCleanup
      · exact Clause.quiet_of_bodies free.1.1 quiet part inClause
      · exact still free.1.2 inCleanup
    · exact still free.2 inFault
  · simp only [runs_bind] at h
    obtain ⟨b₁, s₁, first, b₂, s₂, second, third⟩ := h
    have inner : Relocates (.region body cs cleanup none) s b₂ s₂ :=
      (runs_withClauses first quiet).nest (runs_withCleanup second) (by simp)
    exact inner.nest (runs_withFault third) (by simp)

end Parts

/-! ### Trees -/

theorem Node.reduceHandlers_eq (n : Node) :
    n.reduceHandlers = (do
      match ← n.shape.mapM reduceHandlers with
      | .region body clauses cleanup fault => reduceRegion body clauses cleanup fault
      | shape => node shape) := by
  refine (Node.fold_eq _ _).trans ?_
  rw [← Shape.sequence_map]
  rfl

/-- What the reduction makes of a layer whose children are reduced. -/
theorem runs_reduceLayer {sh : Shape Node} {i : NodeId} {s s' : Supply} {n : Node}
    (h : runs (match sh with
      | .region body clauses cleanup fault => reduceRegion body clauses cleanup fault
      | shape => node shape) s n s') (legal : Node.Legal ⟨i, sh⟩) :
    (sh.kind ≠ .region ∧ n.shape = sh ∧ s'.symbol = s.symbol) ∨
      sh.kind = .region ∧ Relocates sh s n s' := by
  cases sh with
  | region body clauses cleanup fault =>
    exact .inr ⟨rfl, runs_reduceRegion h fun c member filter found ↦
      legal.filters rfl c member filter found⟩
  | _ =>
    obtain ⟨rfl, rfl⟩ := runs_build h
    exact .inl ⟨nofun, rfl, rfl⟩

/-- The children of a tree are reduced first, then its layer. -/
theorem Node.reduce_opens {i : NodeId} {sh : Shape Node} {n' : Node} {s s' : Supply}
    (h : runs (Node.reduceHandlers ⟨i, sh⟩) s n' s') :
    ∃ (x : Shape (Node × Node × Unit)) (s₁ : Supply), sh = x.map Prod.fst ∧
      Threads (fun n s n' s' (_ : Unit) ↦ runs n.reduceHandlers s n' s') x.children s s₁ ∧
      runs (match x.map (·.2.1) with
        | .region body clauses cleanup fault => reduceRegion body clauses cleanup fault
        | shape => node shape) s₁ n' s' := by
  rw [reduceHandlers_eq, runs_bind] at h
  obtain ⟨sh', s₁, children, step⟩ := h
  obtain ⟨x, source, rfl, threads⟩ := Runs.shape (f := reduceHandlers)
    (Q := fun n s n' s' (_ : Unit) ↦ runs n.reduceHandlers s n' s')
    (fun a child _ _ _ run ↦ ⟨(), run⟩) children
  exact ⟨x, s₁, source.symm, threads, step⟩

/-- The children of a legal tree are legal. -/
theorem Node.legal_below {i : NodeId} {x : Shape (Node × Node × Unit)}
    (legal : ∀ m ∈ Node.walk ⟨i, x.map Prod.fst⟩, m.Legal) :
    ∀ y ∈ x.children, ∀ m ∈ y.1.walk, m.Legal := by
  rw [forall_walk_mk, Shape.children_map] at legal
  exact fun y member ↦ legal.2 y.1 (List.mem_map_of_mem member)

/-- Moving handlers keeps what a pass has to keep. -/
theorem Node.reduce_census {n n' : Node} {s s' : Supply} (h : runs n.reduceHandlers s n' s')
    (legal : ∀ m ∈ n.walk, m.Legal) : Census false n s n' s' := by
  induction n using Node.induction generalizing s n' s' with
  | step n ih =>
    obtain ⟨i, sh⟩ := n
    obtain ⟨x, s₁, rfl, threads, step⟩ := reduce_opens h
    have threads := threads.mono (R := fun n s n' s' _ ↦ Census false n s n' s')
      fun y member _ _ run ↦ ih y.1 (mem_children_map member) run (legal_below legal y member)
    have here : Node.Legal ⟨i, x.map (·.2.1)⟩ :=
      (legal _ (mem_walk_self _)).rebuilt fun y member ↦ by
        obtain ⟨_, _, made⟩ := threads.of_mem member
        exact made.awaits
    refine Census.layer (Census.row threads) ?_
    rcases runs_reduceLayer step here with ⟨-, shape, symbol⟩ | ⟨-, moved⟩
    · obtain ⟨j, sh⟩ := n'
      obtain rfl : sh = x.map (·.2.1) := shape
      exact .node _ j symbol
    · exact moved.reshapes

/-- What the children of a tree become, and that the tree with them is legal. -/
theorem Node.reduce_rebuilt {i : NodeId} {x : Shape (Node × Node × Unit)} {s s₁ : Supply}
    (threads : Threads (fun n s n' s' (_ : Unit) ↦ runs n.reduceHandlers s n' s') x.children s s₁)
    (legal : ∀ m ∈ Node.walk ⟨i, x.map Prod.fst⟩, m.Legal) :
    (∀ y ∈ x.children, y.2.1.containsAwait = y.1.containsAwait) ∧
      Node.Legal ⟨i, x.map (·.2.1)⟩ := by
  have awaits : ∀ y ∈ x.children, y.2.1.containsAwait = y.1.containsAwait := fun y member ↦ by
    obtain ⟨_, _, run⟩ := threads.of_mem member
    exact (reduce_census run (legal_below legal y member)).awaits
  exact ⟨awaits, (legal _ (mem_walk_self _)).rebuilt awaits⟩

/-- What is hoisted in a body is hoisted when its handlers are moved. -/
theorem Node.reduce_hoistable {n n' : Node} {s s' : Supply} (h : runs n.reduceHandlers s n' s')
    (legal : ∀ m ∈ n.walk, m.Legal) : n.hoistable ⊆ n'.hoistable := by
  induction n using Node.induction generalizing s n' s' with
  | step n ih =>
    obtain ⟨i, sh⟩ := n
    have awaits := (reduce_census h legal).awaits
    obtain ⟨x, s₁, rfl, threads, step⟩ := reduce_opens h
    obtain ⟨-, here⟩ := reduce_rebuilt threads legal
    have below : ∀ y ∈ x.children, y.1.hoistable ⊆ y.2.1.hoistable := fun y member ↦ by
      obtain ⟨_, _, run⟩ := threads.of_mem member
      exact ih y.1 (mem_children_map member) run (legal_below legal y member)
    intro v inside
    rw [hoistable_mk, Shape.children_map, Shape.declared_map] at inside
    have child (c : v ∈ (x.children.map Prod.fst).flatMap hoistable) :
        ∃ y ∈ x.children.map (·.2.1), v ∈ y.hoistable := by
      obtain ⟨_, member, found⟩ := List.mem_flatMap.1 c
      obtain ⟨y, inside, rfl⟩ := List.mem_map.1 member
      exact ⟨y.2.1, List.mem_map_of_mem inside, below y inside found⟩
    rcases runs_reduceLayer step here with ⟨-, shape, -⟩ | ⟨region, moved⟩
    · obtain ⟨j, sh⟩ := n'
      obtain rfl : sh = x.map (·.2.1) := shape
      rw [hoistable_mk, awaits, Shape.children_map, Shape.declared_map]
      exact (List.mem_append.1 inside).elim
        (fun inside ↦ List.mem_append_left _ (List.mem_flatMap.2 (child inside)))
        (List.mem_append_right _)
    · have undeclared : x.declared = [] := by
        cases x with
        | region => rfl
        | _ => cases region
      rw [undeclared, ite_self, List.append_nil] at inside
      obtain ⟨y, member, found⟩ := child inside
      rw [← Shape.children_map] at member
      exact moved.hoistable y member found

/-- An operand that is kept is reduced to itself. -/
theorem Node.Kept.reduced {keeps : SymbolId → Prop} {n n' : Node} {s s' : Supply}
    (kept : n.Kept keeps) (h : runs n.reduceHandlers s n' s') : n'.shape = n.shape := by
  obtain ⟨i, sh⟩ := n
  obtain ⟨x, s₁, rfl, threads, step⟩ := reduce_opens h
  cases x with
  | var | const | defaultOf =>
    obtain ⟨rfl, rfl⟩ := runs_build step
    rfl
  | _ => exact kept.elim

/-- Bodies whose suspend points can be come back to but for those in handlers can be come back to
when handlers are moved. -/
theorem Node.reduce_ready {n n' : Node} {s s' : Supply} {keeps : SymbolId → Prop}
    (h : runs n.reduceHandlers s n' s') (fit : ∀ m ∈ n.walk, m.Fit keeps) (old : n.Older s)
    (whole : s'.Whole) : ∀ m ∈ n'.walk, m.Ready keeps := by
  induction n using Node.induction generalizing s n' s' with
  | step n ih =>
    obtain ⟨i, sh⟩ := n
    have legal : ∀ m ∈ walk ⟨i, sh⟩, m.Legal := fun m inside ↦ (fit m inside).toLegal
    obtain ⟨x, s₁, rfl, threads, step⟩ := reduce_opens h
    obtain ⟨awaits, here⟩ := reduce_rebuilt threads legal
    have child : ∀ y ∈ x.children, y.1 ∈ Node.children ⟨i, x.map Prod.fst⟩ :=
      fun y member ↦ mem_children_map member
    have le : s₁.symbol ≤ s'.symbol := by
      rcases runs_reduceLayer step here with ⟨-, -, symbol⟩ | ⟨-, moved⟩
      · exact Nat.le_of_eq symbol.symm
      · exact moved.reshapes.symbol_le
    have whole₁ : s₁.Whole := Nat.le_trans le whole
    have both := threads.mono (R := fun n s n' s' _ ↦ runs n.reduceHandlers s n' s' ∧
      Census false n s n' s') fun y member _ _ run ↦
        ⟨run, reduce_census run (legal_below legal y member)⟩
    obtain ⟨le₁, row⟩ := both.between (f := Supply.symbol) fun made ↦ made.2.symbol_le
    have kept : ∀ y ∈ x.children, y.1.Kept keeps → y.2.1.shape = y.1.shape := by
      intro y member kept
      obtain ⟨s₂, s₃, ⟨run, -⟩, -⟩ := row y member
      exact kept.reduced run
    -- A copy shares a symbol with a sibling only if its source does: the others are newer.
    have apart : ∀ y ∈ x.children, ∀ z ∈ x.children, ∀ id ∈ y.1.symbols, id ∈ z.2.1.symbols →
        id ∈ z.1.symbols := by
      intro y member z member' id inside inside'
      obtain ⟨s₂, s₃, ⟨-, census⟩, le₂, le₃⟩ := row z member'
      refine (census.symbols id inside').resolve_right fun new ↦ ?_
      have := old.child (child y member) id inside
      have := (Supply.mem_fresh (Nat.le_trans le₃ whole₁) new).1
      omega
    have older : ∀ y ∈ x.children, y.2.1.Older s₁ := by
      intro y member
      obtain ⟨s₂, s₃, ⟨-, census⟩, le₂, le₃⟩ := row y member
      exact (census.older ((old.child (child y member)).le le₂) (Nat.le_trans le₃ whole₁)).le le₃
    have ready : ∀ c ∈ (x.map (·.2.1)).children, ∀ m ∈ c.walk, m.Ready keeps := by
      rw [Shape.children_map]
      refine List.forall_mem_map.2 fun y member ↦ ?_
      obtain ⟨s₂, s₃, ⟨run, -⟩, le₂, le₃⟩ := row y member
      exact ih y.1 (child y member) run
        (fun m inside ↦ fit m (mem_walk_of_mem_children inside (child y member)))
        ((old.child (child y member)).le le₂) (Nat.le_trans le₃ whole₁)
    rcases runs_reduceLayer step here with ⟨plain, shape, -⟩ | ⟨-, moved⟩
    · obtain ⟨j, sh⟩ := n'
      obtain rfl : sh = x.map (·.2.1) := shape
      refine forall_walk_mk.2 ⟨⟨(fit _ (mem_walk_self _)).rebuilt awaits kept apart, ?_⟩, ready⟩
      intro body clauses cleanup fault eq
      rw [Node.shape] at eq
      rw [eq] at plain
      exact absurd rfl plain
    · refine moved.ready whole (fun id inside ↦ ?_) ready
      rw [symbols_mk, Shape.ownSymbols_map, Shape.children_map] at inside
      rcases List.mem_append.1 inside with own | below
      · refine Nat.lt_of_lt_of_le (old id ?_) le₁
        rw [symbols_mk, Shape.ownSymbols_map]
        exact List.mem_append_left _ own
      · obtain ⟨_, member, found⟩ := List.mem_flatMap.1 below
        obtain ⟨y, inside, rfl⟩ := List.mem_map.1 member
        exact older y inside id found

end Suspension
