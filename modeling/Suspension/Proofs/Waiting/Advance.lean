import Suspension.Proofs.Waiting.Calls
import Suspension.Proofs.Waiting.Operands
import Suspension.Proofs.Waiting.Regions

/-!
# From place to place

A run in one piece and a session that are at corresponding places both go on to corresponding
places. What they do when they enter a part depends on the part (`Layout.Fits.enters`), and what
they do when they leave one on the tasks above (`Layout.Stacks.leaves`).
-/

namespace Suspension

open Steps Eval TransitionSystem Session

variable {l : Lowered}

/-- A region that suspends as data. -/
theorem Enclosed.exists_of_twin {keeps : SymbolId → Prop} {c : Contract} {i j k n : NodeId}
    {body' body e : Node} {X : Added} {entry : Label} {cs : List (Clause (Node × Node))}
    {cleanup fault : Option (Node × Node)} {cleanup' fault' : Option Node}
    (bodies : Twin keeps c body' body X) (suspends : X.table ≠ [])
    (clauses : ∀ y ∈ cs.flatMap Clause.children, Twin keeps c y.1 y.2 {})
    (parts : ∀ y ∈ cleanup.toList ++ fault.toList, Twin keeps c y.1 y.2 {})
    (guarded : Option.Rel (IsGuarded c) (cleanup.map Prod.snd) cleanup')
    (guarded' : Option.Rel (IsGuarded c) (fault.map Prod.snd) fault')
    (entered : IsEntered c entry X.table body (cs.map (Clause.map Prod.snd)) cleanup' fault' e) :
    ∃ D : Enclosed, D.Expands c keeps ∧ D.whole = ⟨i, .block [] [⟨j, .region ⟨k, .block [] [body']⟩
      (cs.map (Clause.map Prod.fst)) (cleanup.map Prod.fst) (fault.map Prod.fst)⟩]⟩ ∧
      D.whole' c = e ∧ D.total = X.ofRegion entry ⟨n, .goto entry⟩ := by
  obtain ⟨cl, firsts, seconds, cleans⟩ := Enclosed.exists_guard c guarded
  obtain ⟨ft, firsts', seconds', faults⟩ := Enclosed.exists_guard c guarded'
  cases entered with
  | mk i' i₁ i₂ i₃ i₄ i₅ =>
    refine ⟨⟨i, j, k, i', i₁, i₂, i₃, i₄, i₅, n, entry, body', body, X, cs, cl, ft⟩,
      ⟨bodies, suspends, clauses, fun y member ↦ ?_⟩, ?_, ?_, rfl⟩
    · rcases List.mem_append.1 member with clean | fault
      · obtain ⟨among, guard⟩ := cleans y clean
        exact ⟨parts _ (List.mem_append_left _ among), guard⟩
      · obtain ⟨among, guard⟩ := faults y fault
        exact ⟨parts _ (List.mem_append_right _ among), guard⟩
    · rw [firsts, firsts']
      rfl
    · rw [seconds, seconds']
      rfl

namespace Layout

variable {L : Layout l} {params : List SymbolId} {A : Scope} {k : Part} {K K' : List Steps.Task}
variable {σ τ : Frame} {s : Session} {m : Machine}

/-- The top of a lowered body holds no old label beside what is expanded. -/
theorem free_around (L : Layout l) {i j : NodeId} {declared : List Variable}
    {load dispatch exit : Node}
    (root : l.body = ⟨i, .block declared [load, dispatch, ⟨j, .ret (some L.expanded)⟩, exit]⟩)
    {label : SymbolId} (old : ¬ L.New label) :
    ∀ a ∈ [load, dispatch] ++ [exit], l.setting.labels a label = false := by
  intro a member
  have among : a ∈ l.body.children := by
    rw [root]
    simp only [List.mem_append, List.mem_cons, List.not_mem_nil, or_false] at member
    simp only [Node.children, Node.shape, Shape.children, List.mem_cons, List.not_mem_nil, or_false]
    tauto
  rw [labels_setting (L := L) (Node.mem_children_walk among (Node.mem_walk_self _)),
    Bool.eq_false_iff, ne_eq, List.contains_iff_mem]
  intro inside
  have table := L.twin.table_labels
  have exits : label ≠ l.contract.exit.id := by
    rintro rfl
    exact old (List.mem_append_left _ (by simp [Contract.names]))
  have assembled := L.assembled
  rw [root] at assembled
  cases assembled
  rw [List.flatMap_map] at table
  simp only [List.mem_append, List.mem_cons, List.not_mem_nil, or_false] at member
  rcases member with (rfl | rfl) | rfl <;>
    simp [Node.labelsWithin_mk, Shape.ownLabels, Shape.children, List.flatMap_map, table, exits]
      at inside

/-- The nodes that return the value of the tree hold the same old labels. -/
theorem labels_returned (fair : L.Fair params) {j j' : NodeId}
    (within : (⟨j', .ret (some L.expanded)⟩ : Node) ∈ l.body.walk) {label : SymbolId}
    (old : ¬ L.New label) : waiting.labels ⟨j, .ret (some L.prompt)⟩ label =
      l.setting.labels ⟨j', .ret (some L.expanded)⟩ label := by
  have fits := L.fits fair
  rw [labels_setting (L := L) within]
  refine Eq.trans ?_ ((fits.labels old).trans
    ((labels_setting (L := L) fits.within label).trans ?_))
  · simp [waiting, Node.labelsWithin_mk, Shape.ownLabels, Shape.children, prompt, Part.first,
      Part.settled]
  · simp [Node.labelsWithin_mk, Shape.ownLabels, Shape.children, Part.second]

/-- Both runs leave the tree as a whole: a value is returned, a jump may lead into the tree again,
and any other exit is the end. -/
theorem leaves_root (fair : L.Fair params) {i j : NodeId} (outer : OuterTasks L.expanded l.body K')
    {r r' : Outcome} (outcomes : Outcomes (fun label ↦ ¬ L.New label) (fun _ _ ↦ False) r r')
    (frames : Abreast (l.outlasts params) L.New l {} σ τ)
    (aboard : l.Aboard s ⟨m, ⟨.leave r', K', τ⟩⟩) :
    L.Advances params ⟨.leave r, [⟨⟨j, .ret (some L.prompt)⟩, .operand⟩,
        ⟨⟨i, .block [] [⟨j, .ret (some L.prompt)⟩]⟩, .statements []⟩], σ⟩
      ⟨m, ⟨.leave r', K', τ⟩⟩ := by
  have fits := L.fits fair
  have stack : L.Stacks params {} (.twin L.prepared.settle L.expanded L.added) _ _ :=
    .root i j outer
  obtain ⟨i', j', declared, load, dispatch, exit, root, rfl⟩ : ∃ i' j' declared load dispatch exit,
      l.body = ⟨i', .block declared [load, dispatch, ⟨j', .ret (some L.expanded)⟩, exit]⟩ ∧
        K' = [⟨⟨j', .ret (some L.expanded)⟩, .operand⟩, ⟨l.body, .statements [exit]⟩] := by
    generalize l.body = n at outer
    cases outer
    exact ⟨_, _, _, _, _, _, rfl, rfl⟩
  have split : Node.shape ⟨i, .block [] [⟨j, .ret (some L.prompt)⟩]⟩ =
      .block [] ([] ++ ⟨j, .ret (some L.prompt)⟩ :: []) := rfl
  have split' : l.body.shape =
      .block declared ([load, dispatch] ++ ⟨j', .ret (some L.expanded)⟩ :: [exit]) := by
    rw [root]
    rfl
  have within : (⟨j', .ret (some L.expanded)⟩ : Node) ∈ l.body.walk := by
    refine Node.mem_children_walk ?_ (Node.mem_walk_self _)
    rw [Node.children, split']
    simp [Shape.children]
  -- Behind the node that returns the value, an exit leaves the block or leads into the tree again.
  have falls {e e' : Exit}
      (outcomes : Outcomes (fun label ↦ ¬ L.New label) (fun _ _ ↦ False) (.error e : Outcome)
        (.error e'))
      (left : leaveTo waiting ⟨⟨j, .ret (some L.prompt)⟩, .operand⟩ r σ = give (.error e) σ)
      (left' : leaveTo l.setting ⟨⟨j', .ret (some L.expanded)⟩, .operand⟩ r' τ =
        give (.error e') τ) :
      L.Advances params ⟨.leave r, [⟨⟨j, .ret (some L.prompt)⟩, .operand⟩,
          ⟨⟨i, .block [] [⟨j, .ret (some L.prompt)⟩]⟩, .statements []⟩], σ⟩
        ⟨m, ⟨.leave r', [⟨⟨j', .ret (some L.expanded)⟩, .operand⟩, ⟨l.body, .statements [exit]⟩],
          τ⟩⟩ := by
    have unwinds : (system l.setting).Proceeds
        ⟨.leave r', [⟨⟨j', .ret (some L.expanded)⟩, .operand⟩, ⟨l.body, .statements [exit]⟩], τ⟩
        ⟨.leave (.error e'), [⟨l.body, .statements [exit]⟩], τ⟩ :=
      .of_next (congrArg (Move.on · _) left')
    rcases error_in_blocks (L := L) (σ := σ) (τ := τ) [] [exit] split split'
      (fun _ _ ↦ List.forall_mem_nil _) (fun label old ↦ free_around L root old)
      (fun label old ↦ labels_returned fair within old) outcomes with
      ⟨gives, gives', -⟩ | ⟨label, old, -, again, again'⟩
    · exact ⟨_, _, .trans_reaches (.of_next (congrArg (Move.on · _) left)) (reaches_over gives),
        aboard.proceeds rfl (unwinds.trans_reaches (reaches_over gives')),
        .finished outcomes frames.alike.host, aboard.serves⟩
    · exact ⟨_, _, .trans_reaches (.of_next (congrArg (Move.on · _) left))
          ((reaches_sibling again).trans (reaches_child rfl)),
        aboard.proceeds rfl
          (unwinds.trans_reaches ((reaches_sibling again').trans (reaches_child rfl))),
        .enter fits stack (fun _ eq ↦ Option.some.inj eq ▸ old) frames, aboard.serves⟩
  cases r with
  | ok v =>
    cases outcomes
    exact falls (.ret v) rfl rfl
  | error e =>
    obtain ⟨e', rfl⟩ := outcomes.of_error
    exact falls outcomes rfl rfl

section Advancing

variable (fair : L.Fair params) (discreet : ∀ d, driving.Reaches s.begins d → d.here.Discreet)

include fair discreet

/-- A tree and its expansion are entered. -/
theorem Fits.enters_twin {p e : Node} {X : Added} (fits : L.Fits params A (.twin p e X))
    (outer : L.Stacks params A (.twin p e X) K K') {seek : Option SymbolId}
    (found : Finds waiting p.prompt seek) (sought : ∀ label, seek = some label → ¬ L.New label)
    (frames : Abreast (l.outlasts params) L.New l A σ τ)
    (aboard : l.Aboard s ⟨m, ⟨.enter e seek, K', τ⟩⟩) :
    L.Advances params ⟨.enter p.prompt seek, K, σ⟩ ⟨m, ⟨.enter e seek, K', τ⟩⟩ := by
  have stands : Twin l.keeps l.contract p e X := fits.stands
  cases stands with
  | @same i i' x below kind closed undeclared kept =>
    have layered : Part.Layered l.keeps l.contract (.twin ⟨i, x.map Prod.fst⟩ ⟨i', x.map (·.2.1)⟩
      (.join (x.children.map (·.2.2)))) (x.map Part.ofTwin) :=
      .twin ⟨below, kind, closed, undeclared, kept⟩
    by_cases plain : (x.map Part.ofTwin).kind = .call
    · obtain ⟨callee, ys, calls⟩ : ∃ callee ys, x.map Part.ofTwin = .call callee ys := by
        cases x with
        | call callee ys => exact ⟨callee, _, rfl⟩
        | _ => cases plain
      rw [calls] at layered
      exact fits.enters_call discreet layered outer sought frames aboard
    · exact fits.enters_layer fair layered plain outer sought frames aboard
  | @point i j p' o e entry acquire ty X q operand isPoint isReturn interest =>
    exact enters_point fair fits operand (.value i j ty interest) isPoint isReturn outer found
      sought frames
      aboard
  | @unitPoint i j n u p' o e entry acquire ty X q operand isPoint isReturn interest =>
    exact enters_point fair fits operand (.unit i j n u ty interest) isPoint isReturn outer found
      sought frames aboard
  | @region i j n h body' body e X entry cs cleanup fault cleanup' fault' bodies suspends clauses
      parts guarded guarded' entered =>
    obtain ⟨D, expands, whole, rfl, total⟩ := Enclosed.exists_of_twin (i := i) (j := j) (k := n)
      (n := h) bodies suspends clauses parts guarded guarded' entered
    rw [← whole, ← total] at fits outer
    rw [← whole] at found ⊢
    exact enters_whole frames fits expands outer found sought aboard

/-- Both runs enter a part. -/
theorem Fits.enters (fits : L.Fits params A k) (outer : L.Stacks params A k K K')
    {seek : Option SymbolId} (found : Finds waiting k.first seek)
    (sought : ∀ label, seek = some label → ¬ L.New label)
    (frames : Abreast (l.outlasts params) L.New l A σ τ)
    (aboard : l.Aboard s ⟨m, ⟨.enter (k.second l.contract) seek, K', τ⟩⟩) :
    L.Advances params ⟨.enter k.first seek, K, σ⟩
      ⟨m, ⟨.enter (k.second l.contract) seek, K', τ⟩⟩ := by
  cases k with
  | twin p e X => exact fits.enters_twin fair discreet outer found sought frames aboard
  | region D => exact fits.enters_layer fair (.region fits.stands) nofun outer sought frames aboard
  | body D => exact enters_body frames fits outer found sought aboard
  | guarded p part g =>
    have passes : (system l.setting).Proceeds ⟨.enter g seek, K', τ⟩
        ⟨.enter part seek, ⟨g, .arm⟩ :: K', τ⟩ :=
      passes_guard frames fits found sought
    exact (fits.part.enters_twin fair discreet (.guarded fits outer) found sought frames
      (aboard.next passes.reaches)).of_reaches (.refl _) (aboard.reaches passes.reaches)

/-- Both runs leave to the tasks above. -/
theorem Stacks.leaves (outer : L.Stacks params A k K K') {r r' : Outcome}
    (outcomes : Outcomes (fun label ↦ ¬ L.New label) (fun _ _ ↦ False) r r')
    (yields : Yields k.first r σ) (frames : Abreast (l.outlasts params) L.New l A σ τ)
    (aboard : l.Aboard s ⟨m, ⟨.leave r', K', τ⟩⟩) :
    L.Advances params ⟨.leave r, K, σ⟩ ⟨m, ⟨.leave r', K', τ⟩⟩ := by
  induction outer with
  | root i j outer => exact leaves_root fair outer outcomes frames aboard
  | layer fits layered plain child stages outer ih =>
    exact fits.leaves_layer fair layered plain stages outer outcomes yields frames aboard
  | call fits layered given known left left' seeks sought ready outer ih =>
    exact fits.leaves_call discreet layered given known left left' seeks sought ready outer outcomes
      yields
      frames aboard
  | point fits inside tasks isPoint isReturn tasks' outer ih =>
    exact leaves_operand fair discreet fits inside tasks isPoint isReturn tasks' outer outcomes
      frames aboard
  | block fits inside outer ih => exact leaves_block frames outcomes fits inside outer aboard
  | inside fits outer ih => exact leaves_body frames outcomes fits outer aboard
  | @guarded A p part g K K' fits outer ih =>
    have passes : (system l.setting).Reaches ⟨.leave r', ⟨g, .arm⟩ :: K', τ⟩ ⟨.leave r', K', τ⟩ :=
      reaches_over rfl
    exact (ih yields frames (aboard.next passes)).of_reaches (.refl _) (aboard.reaches passes)

end Advancing

end Layout

end Suspension
