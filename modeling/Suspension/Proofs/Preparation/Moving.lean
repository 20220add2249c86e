import Suspension.Proofs.Preparation.Edits

/-!
# Handler bodies out of their regions

What the handler reduction makes of a region, up to the numbers of nodes: clauses that suspend
become notes and the cases of a switch behind the region (`MovesClauses`), a finally body that
suspends stands behind a region that catches everything (`MovesCleanup`), and so does a fault body
(`MovesFault`). Runs of the reduction make these, and nothing else.
-/

namespace Suspension

open Handlers Build

/-! ### Copies of handler bodies -/

/-- Bare rethrows are renamed layer by layer, up to the bodies of clauses. -/
theorem Handlers.rethrowAs_eq (ex : Variable) (n : Node) :
    rethrowAs ex n = match n.shape with
      | .raise none => raiseCaptured ex
      | .region body clauses cleanup fault => do
        let body ← rethrowAs ex body
        let cleanup ← cleanup.mapM (rethrowAs ex)
        let fault ← fault.mapM (rethrowAs ex)
        node (.region body clauses cleanup fault)
      | sh => (do node (← sh.mapM (rethrowAs ex))) := by
  have option (o : Option Node) : (o.map (rethrowAs ex)).mapM id = o.mapM (rethrowAs ex) := by
    cases o <;> rfl
  obtain ⟨i, sh⟩ := n
  refine (Node.fold_eq _ _).trans ?_
  cases sh with
  | raise value => cases value <;> rfl
  | region body clauses cleanup fault =>
    simp only [Node.shape, ← option]
    rfl
  | _ =>
    simp only [Node.shape, ← Shape.sequence_map]
    rfl

/-- The captured exception is raised from its variable. -/
theorem runs_raiseCaptured {ex : Variable} {s s' : Supply} {n : Node}
    (h : runs (raiseCaptured ex) s n s') :
    (∃ i j, n = ⟨i, .raise (some ⟨j, .var ex⟩)⟩) ∧ s'.symbol = s.symbol := by
  cases h
  exact ⟨⟨_, _, rfl⟩, rfl⟩

/-- What no result in a row changes is not changed by the row. -/
theorem Threads.constant {α β γ σ : Type} {Q : α → σ → β → σ → γ → Prop} {f : σ → Nat}
    (same : ∀ {a s b s' g}, Q a s b s' g → f s' = f s) {xs : List (α × β × γ)} {s s' : σ}
    (h : Threads Q xs s s') : f s' = f s := by
  induction h with
  | nil => rfl
  | cons head _ ih => rw [ih, same head]

/-- A handler body, copied for its new place. -/
theorem runs_rethrowAs {ex : Variable} {n n' : Node} {s s' : Supply}
    (h : runs (rethrowAs ex n) s n' s') : Edits [ex.id] [] n n' ∧ s'.symbol = s.symbol := by
  induction n using Node.induction generalizing s n' s' with
  | step n ih =>
    have below : ∀ a ∈ n.shape.children, ∀ {s b s'}, runs (rethrowAs ex a) s b s' →
        ∃ _ : Unit, Edits [ex.id] [] a b ∧ s'.symbol = s.symbol :=
      fun a child _ _ _ run ↦ ⟨(), ih a child run⟩
    obtain ⟨i, sh⟩ := n
    dsimp only [Node.shape] at below
    rw [rethrowAs_eq] at h
    have rebuilt {sh' : Shape Node} {x : Shape (Node × Node × Unit)} {s₁ : Supply} {j : NodeId}
        (source : x.map Prod.fst = sh) (made : x.map (·.2.1) = sh')
        (threads : Threads (fun n (s : Supply) n' s' (_ : Unit) ↦
          Edits [ex.id] [] n n' ∧ s'.symbol = s.symbol) x.children s s₁) :
        Edits [ex.id] [] ⟨i, sh⟩ ⟨j, sh'⟩ ∧ s₁.symbol = s.symbol := by
      subst source made
      have edits := @Edits.layer [ex.id] [] i j (x.map fun y ↦ (y.1, y.2.1))
      rw [Shape.map_map, Shape.map_map, Shape.children_map] at edits
      refine ⟨edits (List.forall_mem_map.2 fun y member ↦ ?_), threads.constant (f := Supply.symbol)
        fun h ↦ h.2⟩
      obtain ⟨_, _, made, -⟩ := threads.of_mem member
      exact made
    have layer (run : runs (do node (← sh.mapM (rethrowAs ex))) s n' s') :
        Edits [ex.id] [] ⟨i, sh⟩ n' ∧ s'.symbol = s.symbol := by
      rw [runs_bind] at run
      obtain ⟨sh', s₁, mapped, made⟩ := run
      cases made
      obtain ⟨x, source, made, threads⟩ := Runs.shape (Q := fun n (s : Supply) n' s' (_ : Unit) ↦
        Edits [ex.id] [] n n' ∧ s'.symbol = s.symbol) below mapped
      obtain ⟨edits, symbol⟩ := @rebuilt _ _ _ s₁.node source made threads
      exact ⟨edits, symbol⟩
    cases sh with
    | raise value =>
      cases value with
      | none =>
        obtain ⟨⟨j, k, rfl⟩, symbol⟩ := runs_raiseCaptured h
        exact ⟨.raise List.mem_cons_self, symbol⟩
      | some value => exact layer h
    | region body clauses cleanup fault =>
      simp only [Node.shape, runs_bind] at h
      obtain ⟨body', s₁, bodies, cleanup', s₂, cleanups, fault', s₃, faults, made⟩ := h
      cases made
      obtain ⟨_, bodies⟩ := below body List.mem_cons_self bodies
      obtain ⟨x, rfl, rfl, cleanups'⟩ := Runs.option (Q := fun n (s : Supply) n' s' (_ : Unit) ↦
        Edits [ex.id] [] n n' ∧ s'.symbol = s.symbol)
        (fun a member ↦ below a (by simp [Shape.children, Option.mem_def.1 member])) cleanups
      obtain ⟨y, rfl, rfl, faults'⟩ := Runs.option (Q := fun n (s : Supply) n' s' (_ : Unit) ↦
        Edits [ex.id] [] n n' ∧ s'.symbol = s.symbol)
        (fun a member ↦ below a (by simp [Shape.children, Option.mem_def.1 member])) faults
      have symbol : s₃.symbol = s.symbol := by
        rw [faults'.constant (f := Supply.symbol) fun h ↦ h.2,
          cleanups'.constant (f := Supply.symbol) fun h ↦ h.2, bodies.2]
      refine ⟨?_, symbol⟩
      -- The clauses stay as they are: their rethrows are about exceptions of their own.
      have edits := @Edits.layer [ex.id] [] i s₃.node (.region (body, body')
        (clauses.map (Clause.map fun c ↦ (c, c))) (x.map fun y ↦ (y.1, y.2.1))
        (y.map fun y ↦ (y.1, y.2.1)))
      have whole (f : Node × Node → Node) (copy : ∀ c, f (c, c) = c) :
          Clause.map f ∘ Clause.map (fun c ↦ (c, c)) = fun c ↦ c := by
        funext c
        obtain ⟨_, filter, _⟩ := c
        cases filter <;> simp [Clause.map, copy]
      simp only [Shape.map, List.map_map, Option.map_map, whole Prod.fst fun _ ↦ rfl,
        whole Prod.snd fun _ ↦ rfl, List.map_id'] at edits
      refine edits fun z member ↦ ?_
      simp only [Shape.children, Clause.flatMap_children, Option.toList_map, List.mem_append,
        List.mem_cons, List.mem_map] at member
      rcases member with ((rfl | ⟨c, -, rfl⟩) | ⟨z, inside, rfl⟩) | ⟨z, inside, rfl⟩
      · exact bodies.1
      · exact .refl _ _ c
      · obtain ⟨_, _, made, -⟩ := cleanups'.of_mem inside
        exact made
      · obtain ⟨_, _, made, -⟩ := faults'.of_mem inside
        exact made
    | _ => exact layer h

/-- Exits are collected layer by layer. -/
theorem Handlers.collectExits_eq (own : List SymbolId) (exits : Exits) (n : Node) :
    collectExits own exits n = match n.shape with
      | .goto target =>
        if own.contains target.id then liftM (node (.goto target))
        else do
          let index ← indexOf (.jump target)
          let mark ← assignConst exits.pending (.int index)
          let leave ← node (.goto exits.leave)
          seq [mark, leave]
      | .ret value => do
        let value ← match value with
          | some value => collectExits own exits value
          | none => liftM empty
        let index ← indexOf .ret
        let keep ← node (.assign exits.retval value)
        let mark ← assignConst exits.pending (.int index)
        let leave ← node (.goto exits.leave)
        seq [keep, mark, leave]
      | sh => (do node (← sh.mapM (collectExits own exits))) := by
  obtain ⟨i, sh⟩ := n
  refine (Node.fold_eq _ _).trans ?_
  cases sh with
  | ret value => cases value <;> rfl
  | goto target => rfl
  | _ =>
    simp only [Node.shape, ← Shape.sequence_map]
    rfl

theorem runs_lift_collect {α : Type} {b : Build α} {r r' : List Leaving × Supply} {a : α} :
    runs (liftM b : Collect α) r a r' ↔ a = (b r.2).1 ∧ r' = (r.1, (b r.2).2) := by
  change (((b r.2).1, r.1), (b r.2).2) = ((a, r'.1), r'.2) ↔ _
  rw [Prod.mk.injEq, Prod.mk.injEq, and_assoc, @eq_comm _ _ a, Prod.ext_iff, @eq_comm _ _ r'.1,
    @eq_comm _ _ r'.2]

/-- Noted jumps lead to labels of a kind. -/
def Noted (among : SymbolId → Prop) (left : List Leaving) : Prop :=
  ∀ target, .jump target ∈ left → among target.id

/-- Looking up the number of an exit takes no symbol, and notes no other exit. -/
structure Indexes (l : Leaving) (r r' : List Leaving × Supply) : Prop where
  supply : r'.2 = r.2
  among : ∀ m ∈ r'.1, m ∈ r.1 ∨ m = l
  grows : r.1.length ≤ r'.1.length
  some : r'.1 ≠ []

/-- An exit has the index under which it was noted first. -/
theorem runs_indexOf {l : Leaving} {r r' : List Leaving × Supply} {i : Int64}
    (h : runs (indexOf l) r i r') : Indexes l r r' := by
  obtain ⟨seen, s⟩ := r
  obtain ⟨seen', s'⟩ := r'
  have run : (indexOf l).run seen s = ((i, seen'), s') := h
  rw [indexOf, StateT.run_bind, StateT.run_get, pure_bind] at run
  cases found : seen.findIdx? fun m ↦ l.same m with
  | some k =>
    rw [found] at run
    cases run
    refine ⟨rfl, fun m ↦ .inl, Nat.le_refl _, ?_⟩
    rintro rfl
    cases found
  | none =>
    rw [found] at run
    cases run
    exact ⟨rfl, fun m member ↦ by simpa using member, by simp, by simp⟩

/-- The variables that note an exit. -/
def Handlers.Exits.variables (exits : Exits) : List SymbolId :=
  [exits.pending.id, exits.retval.id]

/-- The label that exits lead to, if there are any. -/
def leaveOf (leave : Label) (left : List Leaving) : List Label :=
  if left.isEmpty then [] else [leave]

theorem mem_leaveOf {leave : Label} {left : List Leaving} (some : left ≠ []) :
    leave.id ∈ (leaveOf leave left).map Label.id := by
  rw [leaveOf, if_neg fun none ↦ some (List.isEmpty_iff.1 none)]
  exact List.mem_cons_self

theorem leaveOf_subset (leave : Label) {left left' : List Leaving}
    (le : left.length ≤ left'.length) :
    (leaveOf leave left).map Label.id ⊆ (leaveOf leave left').map Label.id := by
  intro id inside
  rw [leaveOf] at inside
  split at inside
  · cases inside
  · rename_i some
    cases List.mem_singleton.1 inside
    refine mem_leaveOf fun none ↦ some ?_
    rw [none, List.length_nil] at le
    exact List.isEmpty_iff_length_eq_zero.2 (Nat.le_zero.1 le)

/-- A protected body is copied with its exits noted. -/
structure Collects (exits : Exits) (n : Node) (r : List Leaving × Supply) (n' : Node)
    (r' : List Leaving × Supply) : Prop where
  edits : Edits exits.variables ((leaveOf exits.leave r'.1).map Label.id) n n'
  symbol : r'.2.symbol = r.2.symbol
  grows : r.1.length ≤ r'.1.length
  noted : ∀ {among}, (∀ id ∈ n.targets, among id) → Noted among r.1 → Noted among r'.1

/-- Along a row of copies, jumps are noted that are in the row. -/
theorem Collects.noted_row {exits : Exits} {xs : List (Node × Node × Unit)}
    {r r' : List Leaving × Supply}
    (h : Threads (fun n r n' r' _ ↦ Collects exits n r n' r') xs r r')
    {among : SymbolId → Prop} (inside : ∀ x ∈ xs, ∀ id ∈ x.1.targets, among id)
    (noted : Noted among r.1) : Noted among r'.1 := by
  induction h with
  | nil => exact noted
  | cons head tail ih =>
    exact ih (fun x member ↦ inside x (List.mem_cons_of_mem _ member))
      (head.noted (inside _ List.mem_cons_self) noted)

/-- Collecting exits replaces each by a note of its index and a jump to the end. -/
theorem runs_collectExits {own : List SymbolId} {exits : Exits} {n n' : Node}
    {r r' : List Leaving × Supply} (h : runs (collectExits own exits n) r n' r') :
    Collects exits n r n' r' := by
  have pends : exits.pending.id ∈ exits.variables := by simp [Exits.variables]
  have returns : exits.retval.id ∈ exits.variables := by simp [Exits.variables]
  induction n using Node.induction generalizing r n' r' with
  | step n ih =>
    obtain ⟨i, sh⟩ := n
    rw [collectExits_eq] at h
    have layer (run : runs (do node (← sh.mapM (collectExits own exits)) : Collect Node) r n' r') :
        Collects exits ⟨i, sh⟩ r n' r' := by
      simp only [runs_bind, runs_lift_collect] at run
      obtain ⟨sh', r₁, mapped, rfl, rfl⟩ := run
      obtain ⟨x, rfl, rfl, threads⟩ := Runs.shape (Q := fun n r n' r' (_ : Unit) ↦
        Collects exits n r n' r') (fun a child _ _ _ run ↦ ⟨(), ih a child run⟩) mapped
      obtain ⟨grows, each⟩ := threads.between (f := fun r ↦ r.1.length) fun h ↦ h.grows
      have edits := @Edits.layer exits.variables ((leaveOf exits.leave r₁.1).map Label.id) i
        r₁.2.node (x.map fun y ↦ (y.1, y.2.1))
      rw [Shape.map_map, Shape.map_map, Shape.children_map] at edits
      refine ⟨edits (List.forall_mem_map.2 fun y member ↦ ?_),
        threads.constant (f := fun r ↦ r.2.symbol) (fun h ↦ h.symbol), grows,
        fun inside noted ↦ ?_⟩
      · obtain ⟨_, _, made, -, le⟩ := each y member
        exact made.edits.mono (leaveOf_subset exits.leave le)
      · refine Collects.noted_row threads (fun y member id own ↦ inside id ?_) noted
        rw [Node.targets_mk, Shape.children_map]
        exact List.mem_append_right _
          (List.mem_flatMap.2 ⟨_, List.mem_map_of_mem member, own⟩)
    cases sh with
    | goto target =>
      simp only [Node.shape] at h
      -- A jump to a label of the tree itself stays what it is.
      split at h
      · rw [runs_lift_collect] at h
        obtain ⟨rfl, rfl⟩ := h
        exact ⟨.layer (.goto target) (List.forall_mem_nil _), rfl, Nat.le_refl _, fun _ ↦ id⟩
      · simp only [runs_bind, runs_lift_collect] at h
        obtain ⟨index, r₁, number, mark, r₂, ⟨rfl, rfl⟩, leave, r₃, ⟨rfl, rfl⟩, rfl, rfl⟩ := h
        have indexes := runs_indexOf number
        have symbol : r₁.2.symbol = r.2.symbol := by rw [indexes.supply]
        refine ⟨.jump pends (mem_leaveOf indexes.some), symbol, indexes.grows,
          fun inside noted l member ↦ ?_⟩
        rcases indexes.among _ member with old | new
        · exact noted l old
        · cases new
          exact inside _ List.mem_cons_self
    | ret value =>
      cases value with
      | none =>
        simp only [Node.shape, runs_bind, runs_lift_collect] at h
        obtain ⟨unit, r₁, ⟨rfl, rfl⟩, index, r₂, number, keep, r₃, ⟨rfl, rfl⟩, mark, r₄, ⟨rfl, rfl⟩,
          leave, r₅, ⟨rfl, rfl⟩, rfl, rfl⟩ := h
        have indexes := runs_indexOf number
        have symbol : r₂.2.symbol = r.2.symbol := by
          rw [indexes.supply]
          rfl
        refine ⟨.retUnit returns pends (mem_leaveOf indexes.some), symbol, indexes.grows,
          fun inside noted l member ↦ ?_⟩
        exact noted l ((indexes.among _ member).resolve_right (by rintro ⟨⟩))
      | some value =>
        simp only [Node.shape, runs_bind, runs_lift_collect] at h
        obtain ⟨copy, r₁, copied, index, r₂, number, keep, r₃, ⟨rfl, rfl⟩, mark, r₄, ⟨rfl, rfl⟩,
          leave, r₅, ⟨rfl, rfl⟩, rfl, rfl⟩ := h
        have indexes := runs_indexOf number
        obtain ⟨edits, copies, grows, more⟩ := ih value (List.mem_singleton.2 rfl) copied
        have symbol : r₂.2.symbol = r.2.symbol := by rw [indexes.supply, copies]
        refine ⟨.ret (edits.mono (leaveOf_subset exits.leave indexes.grows)) returns pends
          (mem_leaveOf indexes.some), symbol, Nat.le_trans grows indexes.grows,
          fun inside noted l member ↦ ?_⟩
        have within : ∀ id ∈ value.targets, _ := fun id own ↦ inside id (by
          simpa [Node.targets_mk, Shape.children, Shape.ownTargets] using own)
        exact more within noted l ((indexes.among _ member).resolve_right (by rintro ⟨⟩))
    | _ => exact layer h

end Suspension
