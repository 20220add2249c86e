import Suspension.Proofs.Expansion.Books

/-!
# What the expansion makes of a tree

`Unfolds` relates a tree to its expansion, one constructor for each way in which the pass rebuilds a
node, and to what the expansion adds to its surroundings. Every run makes such a tree
(`Node.expand_unfolds`), wherever the suspend points stand: in the operand of another, in handlers,
in locks. What is to be said of expansions is read off the relation, by induction over it and with
no run.
-/

namespace Suspension

/-- A tree and its expansion, and what that adds to the surroundings. -/
inductive Unfolds (c : Contract) : Node → Node → Added → Prop
  /-- A block keeps its declarations where there is no suspend point in it, and has none
  otherwise. -/
  | block {i i' : NodeId} {declared : List Variable} (xs : List (Node × Node × Added))
    (below : ∀ y ∈ xs, Unfolds c y.1 y.2.1 y.2.2) :
    Unfolds c ⟨i, .block declared (xs.map Prod.fst)⟩
      ⟨i', .block (if (xs.map Prod.fst).any Node.containsAwait then [] else declared)
        (xs.map (·.2.1))⟩ (.join (xs.map (·.2.2)))
  /-- A suspend point is taken apart, around its expanded operand. -/
  | point {i : NodeId} {o o' e entry : Node} {acquire : Option String} {result : Ty} {X : Added}
    {p : Point} (below : Unfolds c o o' X) (isPoint : IsPoint c acquire p o' e)
    (isReturn : IsReturn c p.label entry) (interest : p.result = none ↔ result = .unit) :
    Unfolds c ⟨i, .await o acquire result⟩ e (X ++ .ofPoint p entry)
  /-- A region with suspend points is entered through a label, starts with the dispatch on them, and
  its finally and fault bodies are guarded. -/
  | region {i l : NodeId} {body : Node × Node × Added} {cs : List (Clause (Node × Node × Added))}
    {cleanup fault : Option (Node × Node × Added)} {cleanup' fault' : Option Node} {entry : Label}
    {e : Node} {X : Added}
    (below : ∀ y ∈ (Shape.region body cs cleanup fault).children, Unfolds c y.1 y.2.1 y.2.2)
    (parts : .join ((Shape.region body cs cleanup fault).children.map (·.2.2)) = X)
    (suspends : X.table ≠ []) (guarded : Option.Rel (IsGuarded c) (cleanup.map (·.2.1)) cleanup')
    (guarded' : Option.Rel (IsGuarded c) (fault.map (·.2.1)) fault')
    (entered : IsEntered c entry X.table body.2.1 (cs.map (Clause.map (·.2.1))) cleanup' fault' e) :
    Unfolds c ⟨i, (Shape.region body cs cleanup fault).map Prod.fst⟩ e
      (X.ofRegion entry ⟨l, .goto entry⟩)
  /-- Everything else keeps its form. -/
  | same {i i' : NodeId} (x : Shape (Node × Node × Added))
    (below : ∀ y ∈ x.children, Unfolds c y.1 y.2.1 y.2.2) (notBlock : x.kind ≠ .block)
    (notAwait : x.kind ≠ .await)
    (quiet : x.kind = .region → ∀ y ∈ x.children, y.1.containsAwait = false) :
    Unfolds c ⟨i, x.map Prod.fst⟩ ⟨i', x.map (·.2.1)⟩ (.join (x.children.map (·.2.2)))

/-- What a run of the expansion makes of a tree, and the books that it keeps. -/
structure Expands (c : Contract) (n : Node) (r : Expansion) (e : Node) (r' : Expansion)
    (X : Added) : Prop where
  unfolds : Unfolds c n e X
  adds : Adds [e] n.hoistable n.containsAwait X r r'

section Runs

open Expand

variable {c : Contract} {r r' : Expansion}

theorem Expands.of_threads {xs : List (Node × Node × Added)}
    (threads : Threads (Expands c) xs r r') : ∀ y ∈ xs, Unfolds c y.1 y.2.1 y.2.2 := by
  intro y member
  obtain ⟨_, _, made⟩ := threads.of_mem member
  exact made.unfolds

/-- The expansion of a region, given those of its parts. -/
theorem Expands.region {i : NodeId} {body : Node × Node × Added}
    {cs : List (Clause (Node × Node × Added))} {cleanup fault : Option (Node × Node × Added)}
    {r₁ : Expansion} {e : Node}
    (threads : Threads (Expands c) (Shape.region body cs cleanup fault).children
      { r with resumption := r.resumption.openRegion } r₁)
    (closing : runs
      (if r₁.resumption.closeRegion.1.isEmpty then
        Build.node ((Shape.region body cs cleanup fault).map (·.2.1))
      else Expand.entered c r₁.resumption.closeRegion.1 body.2.1 (cs.map (Clause.map (·.2.1)))
        (cleanup.map (·.2.1)) (fault.map (·.2.1)) : Expand Node)
      { r₁ with resumption := r₁.resumption.closeRegion.2 } e r') :
    ∃ X, Expands c ⟨i, (Shape.region body cs cleanup fault).map Prod.fst⟩ r e r' X := by
  have below := Expands.of_threads threads
  have adds := Adds.of_threads (·.adds) threads
  have results := Shape.children_map (·.2.1) (Shape.region body cs cleanup fault)
  rw [← results] at adds
  obtain ⟨hoistable, containsAwait⟩ := Node.books_of_parts i
    ((Shape.region body cs cleanup fault).map Prod.fst) nofun nofun
  rw [Shape.children_map] at hoistable containsAwait
  rw [← hoistable, ← containsAwait] at adds
  rcases adds.closing closing with
    ⟨-, suspends, cleanup', fault', entry, l, guarded, guarded', entered, books⟩ |
    ⟨quiet, -, ⟨j, rfl⟩, books⟩
  · exact ⟨_, .region below rfl suspends guarded guarded' entered, books⟩
  · refine ⟨_, .same _ below nofun nofun fun _ y member ↦ ?_, books⟩
    rw [containsAwait] at quiet
    exact Bool.eq_false_iff.2 (List.any_eq_false.1 quiet y.1 (List.mem_map_of_mem member))

/-- A run of the expansion takes a tree to what it unfolds to, and keeps its books. -/
theorem Node.expand_unfolds (n : Node) {e : Node} (run : runs (n.expand c) r e r') :
    ∃ X, Expands c n r e r' X := by
  induction n using Node.induction generalizing r e r' with
  | step n ih =>
    have below : ∀ a ∈ n.shape.children, ∀ {s b s'}, runs (a.expand c) s b s' →
        ∃ X, Expands c a s b s' X := fun a child _ _ _ run ↦ ih a child run
    clear ih
    obtain ⟨i, sh⟩ := n
    rw [Node.expand_eq] at run
    dsimp only [Node.shape] at below run
    -- Layers that the expansion rebuilds child by child.
    have layer (notBlock : sh.kind ≠ .block) (notAwait : sh.kind ≠ .await)
        (notRegion : sh.kind ≠ .region)
        (run : runs (do (Build.node (← sh.mapM (Node.expand c)) : Expand Node)) r e r') :
        ∃ X, Expands c ⟨i, sh⟩ r e r' X := by
      simp only [runs_bind, runs_node] at run
      obtain ⟨sh', r₁, mapped, rfl, rfl⟩ := run
      obtain ⟨x, rfl, rfl, threads⟩ := Runs.shape below mapped
      simp only [Shape.kind_map] at notBlock notAwait notRegion
      have adds := Adds.of_threads (·.adds) threads
      rw [← Shape.children_map, ← Shape.children_map] at adds
      obtain ⟨hoistable, containsAwait⟩ := Node.books_of_parts i (x.map Prod.fst)
        (by rwa [Shape.kind_map]) (by rwa [Shape.kind_map])
      rw [← hoistable, ← containsAwait] at adds
      exact ⟨_, .same x (Expands.of_threads threads) notBlock notAwait
        (fun isRegion ↦ absurd isRegion notRegion), adds.node⟩
    cases sh with
    | block declared ns =>
      simp only [Expand.block, runs_bind, runs_changeScopes, runs_node, List.mapM_map] at run
      obtain ⟨_, _, rfl, es, r₁, list, kept, _, exit, rfl, rfl⟩ := run
      have statements : ns.mapM ((fun s ↦ s) ∘ Node.expand c) = ns.mapM (Node.expand c) := rfl
      rw [statements] at list
      obtain ⟨xs, rfl, rfl, threads⟩ := Runs.list below list
      have suspends : Node.containsAwait ⟨i, .block declared (xs.map Prod.fst)⟩ =
          (xs.map Prod.fst).any Node.containsAwait := by
        rw [Node.containsAwait_eq]
        rfl
      obtain ⟨scopes, exited, rfl⟩ := runs_exitBlock.1 exit
      obtain ⟨declarations, closed⟩ := (Adds.of_threads (·.adds) threads).exitBlock exited
      refine ⟨.join (xs.map (·.2.2)), ?_, ?_⟩
      · rw [declarations]
        exact .block xs (Expands.of_threads threads)
      · rw [Node.hoistable_eq, suspends, declarations]
        exact @Adds.node (.block _ _) _ _ _ _ _ closed
    | await operand acquire result =>
      obtain ⟨o, r₁, p, entry, operandRun, isPoint, isReturn, interest, books⟩ :=
        runs_suspendPoint run
      obtain ⟨X, made⟩ := below operand (by simp [Shape.children]) operandRun
      refine ⟨_, .point made.unfolds isPoint isReturn interest, ?_⟩
      have adds := books made.adds
      rw [Node.hoistable_eq, Node.containsAwait_eq]
      simpa [Node.children, Node.shape, Shape.children, Node.kind, Shape.kind,
        Shape.declared] using adds
    | region body clauses cleanup fault =>
      obtain ⟨body', clauses', cleanup', fault', r₁, parts, closing⟩ := runs_region run
      obtain ⟨x, source, made, threads⟩ := Runs.shape below parts
      cases x <;> cases source
      cases made
      exact Expands.region threads closing
    | _ => exact layer (by rintro ⟨⟩) (by rintro ⟨⟩) (by rintro ⟨⟩) run

end Runs

/-! ### Trees without suspend points -/

section Quiet

variable {c : Contract} {n e : Node} {X : Added}

/-- Trees in a row that add nothing. -/
theorem Added.join_eq_empty {ys : List (Node × Node × Added)} (h : ∀ y ∈ ys, y.2.2 = {}) :
    join (ys.map (·.2.2)) = {} := by
  cases ys with
  | nil => rfl
  | cons y ys =>
    rw [List.map_cons, join_eq (List.forall_mem_map.2 fun z member ↦
      h z (List.mem_cons_of_mem y member))]
    exact h y List.mem_cons_self

/-- A tree without suspend points adds nothing. -/
theorem Unfolds.empty (h : Unfolds c n e X) (quiet : n.containsAwait = false) : X = {} := by
  have nothing {ys : List (Node × Node × Added)}
      (each : ∀ y ∈ ys, y.1.containsAwait = false → y.2.2 = {})
      (quiet : (ys.map Prod.fst).any Node.containsAwait = false) :
      Added.join (ys.map (·.2.2)) = {} := Added.join_eq_empty fun y member ↦
    each y member (Bool.eq_false_iff.2 (List.any_eq_false.1 quiet y.1 (List.mem_map_of_mem member)))
  induction h with
  | block xs below ih =>
    rw [Node.containsAwait_eq] at quiet
    exact nothing ih quiet
  | point =>
    rw [Node.containsAwait_eq] at quiet
    cases quiet
  | @region i _ body cs cleanup fault _ _ _ _ X below parts suspends _ _ _ ih =>
    rw [(Node.books_of_parts i ((Shape.region body cs cleanup fault).map Prod.fst) nofun nofun).2,
      Shape.children_map] at quiet
    rw [← parts, nothing ih quiet] at suspends
    exact absurd rfl suspends
  | same x below notBlock notAwait none ih =>
    rw [(Node.books_of_parts _ _ (by rwa [Shape.kind_map]) (by rwa [Shape.kind_map])).2,
      Shape.children_map] at quiet
    exact nothing ih quiet

/-- A tree that enters a table suspends. -/
theorem Unfolds.containsAwait (h : Unfolds c n e X) (suspends : X.table ≠ []) :
    n.containsAwait = true := by
  cases quiet : n.containsAwait with
  | true => rfl
  | false =>
    rw [h.empty quiet] at suspends
    exact absurd rfl suspends

end Quiet

end Suspension
