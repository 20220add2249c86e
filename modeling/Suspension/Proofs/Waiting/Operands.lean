import Suspension.Proofs.Waiting.Pairs

/-!
# Operands of suspend points

A suspend point stands in pieces of its own in both runs: in one it is a node that waits for a block
around its operand, in the other the operand is what an awaiter is acquired from, which is stored.
Both runs come to the operand and leave by it: with a value, the suspend point is left with the
outcome; a jump may lead into the operand again; everything else passes.
-/

namespace Suspension

open Steps Eval TransitionSystem Session

namespace Layout

variable {l : Lowered} {L : Layout l} {params : List SymbolId} {A : Scope} {K K' : List Steps.Task}
variable {σ τ : Frame} {s : Session} {m : Machine} {q : Point} {acquire : Option String}
variable {p p' e o entry : Node} {X : Added} {ts ts' : List Steps.Task}

/-! ### In one piece -/

namespace WaitTasks

/-- The tasks of a prompt tree. -/
theorem prompt {result : Option Variable} (h : WaitTasks acquire p' result p ts) :
    ∃ ts', WaitTasks acquire p'.prompt result p.prompt ts' := by
  cases h with
  | value i j ty interest =>
    have same : Node.prompt ⟨i, .await ⟨j, .block [] [p']⟩ acquire ty⟩ =
        ⟨i, .await ⟨j, .block [] [p'.prompt]⟩ acquire ty⟩ := by
      simp [Node.prompt_mk, Shape.map, Shape.prompt]
    rw [same]
    exact ⟨_, .value i j ty interest⟩
  | unit i j k u ty interest =>
    have same : Node.prompt ⟨i, .block [] [⟨j, .await ⟨k, .block [] [p']⟩ acquire ty⟩,
        ⟨u, .defaultOf .unit⟩]⟩ = ⟨i, .block [] [⟨j, .await ⟨k, .block [] [p'.prompt]⟩ acquire ty⟩,
          ⟨u, .defaultOf .unit⟩]⟩ := by
      simp [Node.prompt_mk, Shape.map, Shape.prompt]
    rw [same]
    exact ⟨_, .unit i j k u ty interest⟩

/-- The operand stands where the suspend point stands. -/
theorem place {result : Option Variable} (h : WaitTasks acquire p' result p ts)
    (place : L.Place params A p) : L.Place params A p' := by
  cases h with
  | value i j ty interest =>
    have block := place.child (z := ([], ⟨j, .block [] [p']⟩)) List.mem_cons_self
    exact block.child (z := ([], p')) List.mem_cons_self
  | unit i j k u ty interest =>
    have await := place.child (z := ([], ⟨j, .await ⟨k, .block [] [p']⟩ acquire ty⟩))
      List.mem_cons_self
    have block := await.child (z := ([], ⟨k, .block [] [p']⟩)) List.mem_cons_self
    exact block.child (z := ([], p')) List.mem_cons_self

/-- What is sought in a suspend point is sought in its operand. -/
theorem finds {result : Option Variable} (h : WaitTasks acquire o result p ts)
    {seek : Option SymbolId}
    (found : Finds waiting p seek) : Finds waiting o seek := by
  intro label eq
  have held : p.labelsWithin.contains label = true := found label eq
  cases h <;> simpa [Node.labelsWithin_mk, Shape.ownLabels, Shape.children, waiting] using held

/-- A suspend point is entered through to its operand. -/
theorem enters {result : Option Variable} (h : WaitTasks acquire o result p ts)
    {seek : Option SymbolId}
    (found : Finds waiting p seek) :
    (system waiting).Proceeds ⟨.enter p seek, K, σ⟩ ⟨.enter o seek, ts ++ K, σ⟩ := by
  have inside := h.finds found
  have waits (i j : NodeId) (ty : Ty) (K : List Steps.Task) : (system waiting).Proceeds
      ⟨.enter ⟨i, .await ⟨j, .block [] [o]⟩ acquire ty⟩ seek, K, σ⟩
      ⟨.enter o seek, ⟨⟨j, .block [] [o]⟩, .statements []⟩ ::
        ⟨⟨i, .await ⟨j, .block [] [o]⟩ acquire ty⟩, .operand⟩ :: K, σ⟩ :=
    .trans (.of_next rfl) (proceeds_only rfl rfl inside)
  cases h with
  | value i j ty interest => exact waits i j ty K
  | unit i j k u ty interest =>
    refine .trans ?_ (waits j k ty _)
    cases seek with
    | none => exact .of_next rfl
    | some label =>
      have split : Node.shape ⟨i, .block [] [⟨j, .await ⟨k, .block [] [o]⟩ acquire ty⟩,
          ⟨u, .defaultOf .unit⟩]⟩ = .block [] ([] ++ ⟨j, .await ⟨k, .block [] [o]⟩ acquire ty⟩ ::
            [⟨u, .defaultOf .unit⟩]) := rfl
      refine proceeds_sought rfl split (List.forall_mem_nil _) ?_
      show List.contains _ label = true
      have held : o.labelsWithin.contains label = true := inside label rfl
      simpa [Node.labelsWithin_mk, Shape.ownLabels, Shape.children] using held

/-- The innermost task is the block around the operand. -/
theorem head {result : Option Variable} (h : WaitTasks acquire o result p ts) :
    ∃ j ts', ts = ⟨⟨j, .block [] [o]⟩, .statements []⟩ :: ts' := by
  cases h <;> exact ⟨_, _, rfl⟩

/-- An exit that finds no label in the operand leaves a suspend point. -/
theorem passes {result : Option Variable} (h : WaitTasks acquire o result p ts) {e : Exit}
    (none : ∀ label, e = .jump label → waiting.labels o label = false) :
    (system waiting).Proceeds ⟨.leave (.error e), ts ++ K, σ⟩ ⟨.leave (.error e), K, σ⟩ := by
  have block {n c : Node} {rest : List Node} (statements : statementsOf n = c :: rest)
      (labels : ∀ a ∈ c :: rest, a.labelsWithin = [] ∨ a.labelsWithin = o.labelsWithin)
      {left : List Node} :
      leaveTo waiting ⟨n, .statements left⟩ (.error e) σ = give (.error e) σ := by
    cases e with
    | jump label =>
      have free := none label rfl
      show jumpInBlock waiting n label σ = _
      rw [jumpInBlock, statements, fromLabel_eq_nil]
      intro a member
      show a.labelsWithin.contains label = false
      rcases labels a member with nothing | same
      · rw [nothing]
        rfl
      · rw [same]
        exact free
    | _ => rfl
  have await {i : NodeId} {n : Node} {ty : Ty} :
      leaveTo waiting ⟨⟨i, .await n acquire ty⟩, .operand⟩ (.error e) σ = give (.error e) σ := rfl
  cases h with
  | value i j ty interest =>
    refine .trans_reaches (.of_next (congrArg (Move.on · _) (block rfl ?_))) (reaches_over await)
    exact List.forall_mem_singleton.2 (.inr rfl)
  | unit i j k u ty interest =>
    refine .trans_reaches (.of_next (congrArg (Move.on · _) (block rfl ?_)))
      ((reaches_over await).trans (reaches_over (block rfl ?_)))
    · exact List.forall_mem_singleton.2 (.inr rfl)
    · refine List.forall_mem_cons.2 ⟨.inr ?_, List.forall_mem_singleton.2 (.inl rfl)⟩
      simp [Node.labelsWithin_mk, Shape.ownLabels, Shape.children]

end WaitTasks

/-! ### In several -/

/-- The operand is entered through the assignment of its awaiter. -/
theorem reaches_operand {i j : NodeId} {v : Variable} {seek : Option SymbolId}
    (found : Finds l.setting o seek) : (system l.setting).Reaches
      ⟨.enter ⟨i, .assign v ⟨j, Expand.acquireShape acquire o⟩⟩ seek, K', τ⟩
      ⟨.enter o seek, ⟨⟨j, Expand.acquireShape acquire o⟩, acquireStage acquire⟩ ::
        ⟨⟨i, .assign v ⟨j, Expand.acquireShape acquire o⟩⟩, .operand⟩ :: K', τ⟩ := by
  cases acquire with
  | none => exact (reaches_child rfl).trans (reaches_child rfl)
  | some name =>
    refine (reaches_child rfl).trans (reaches_child ?_)
    show firstOperand l.setting _ [o] seek _ = _
    cases seek with
    | none => rfl
    | some label =>
      have place : Evaluator.soughtOperand? l.setting [o] (some label) = .ok (some 0) := by
        simp [Evaluator.soughtOperand?, List.findIdx?_cons, found label rfl]
      rw [firstOperand, place]
      rfl

theorem labelsWithin_assigned (i j : NodeId) (v : Variable) (acquire : Option String) (o : Node) :
    Node.labelsWithin ⟨i, .assign v ⟨j, Expand.acquireShape acquire o⟩⟩ = o.labelsWithin := by
  rw [Node.labelsWithin_mk, Shape.children, List.flatMap_singleton, labelsWithin_acquire]
  rfl

include L in
/-- The assignment of an awaiter holds what the operand holds. -/
theorem labels_assigned {i j : NodeId} {v : Variable}
    (within : (⟨i, .assign v ⟨j, Expand.acquireShape acquire o⟩⟩ : Node) ∈ l.body.walk)
    (label : SymbolId) :
    l.setting.labels ⟨i, .assign v ⟨j, Expand.acquireShape acquire o⟩⟩ label =
      l.setting.labels o label := by
  have inside : o ∈ l.body.walk := by
    refine Node.mem_children_walk ?_ (Node.mem_children_walk List.mem_cons_self within)
    rw [Node.children, Node.shape, Expand.children_acquireShape]
    exact List.mem_cons_self
  rw [labels_setting (L := L) within, labels_setting (L := L) inside, labelsWithin_assigned]

/-- Behind the operand of a suspend point no old label is held. -/
theorem free_behind {i j k : NodeId} {declared : List Variable} {v : Variable} {rest : List Node}
    (fits : L.Fits params A (.twin p ⟨i, .block declared
      (⟨j, .assign v ⟨k, Expand.acquireShape acquire o⟩⟩ :: rest)⟩ (X ++ .ofPoint q entry)))
    (isPoint : IsPoint l.contract acquire q o ⟨i, .block declared
      (⟨j, .assign v ⟨k, Expand.acquireShape acquire o⟩⟩ :: rest)⟩) {label : SymbolId}
    (old : ¬ L.New label) : ∀ a ∈ rest, l.setting.labels a label = false := by
  intro a member
  have within := Node.mem_children_walk (List.mem_cons_of_mem _ member) fits.within
  rw [labels_setting (L := L) within, Bool.eq_false_iff, ne_eq, List.contains_iff_mem]
  intro inside
  have labels := isPoint.labelsWithin
  rw [Node.labelsWithin_mk, Shape.children, List.flatMap_cons, labelsWithin_assigned] at labels
  have behind : rest.flatMap Node.labelsWithin = [q.label.id] := List.append_cancel_left labels
  have own : label = q.label.id := List.mem_singleton.1
    (behind ▸ List.mem_flatMap.2 ⟨a, member, inside⟩)
  refine old (fits.new _ (List.mem_append_right _ (List.mem_map.2 ⟨q.label, ?_, own.symm⟩)))
  exact List.mem_append_right _ List.mem_cons_self

/-- Both runs come to the operand of a suspend point. -/
theorem enters_point (fair : L.Fair params) {seek : Option SymbolId}
    (fits : L.Fits params A (.twin p e (X ++ .ofPoint q entry)))
    (operand : Twin l.keeps l.contract p' o X)
    (waits : WaitTasks acquire p' q.result p ts) (isPoint : IsPoint l.contract acquire q o e)
    (isReturn : IsReturn l.contract q.label entry)
    (outer : L.Stacks params A (.twin p e (X ++ .ofPoint q entry)) K K')
    (found : Finds waiting p.prompt seek) (sought : ∀ label, seek = some label → ¬ L.New label)
    (frames : Abreast (l.outlasts params) L.New l A σ τ)
    (aboard : l.Aboard s ⟨m, ⟨.enter e seek, K', τ⟩⟩) :
    L.Advances params ⟨.enter p.prompt seek, K, σ⟩ ⟨m, ⟨.enter e seek, K', τ⟩⟩ := by
  obtain ⟨ts, tasks⟩ := waits.prompt
  obtain ⟨field, results, bare⟩ := fits.of_point
  have point := isPoint
  cases point with
  | @mk i₀ i₁ i₂ i₃ i₄ i₅ i₆ i₇ i₈ i₉ i₁₀ suspend outcome run suspension outcomes update =>
  have within : (⟨i₁, .assign q.awaiter ⟨i₂, Expand.acquireShape acquire o⟩⟩ : Node) ∈
      l.body.walk :=
    Node.mem_children_walk List.mem_cons_self fits.within
  have inside : L.Fits params A (.twin p' o X) := by
    refine ⟨waits.place fits.place, (OperandTasks.mk i₀ i₁ i₂ _ _ _).within fits.within, operand,
      fun _ ↦ bare, (Added.Within.append X _).trans fits.adds⟩
  have finds := tasks.finds found
  have finds' := inside.finds finds sought
  -- The block declares the variable of the result, which only the second run has.
  have frames' : Abreast (l.outlasts params) L.New l A σ
      { τ with locals := τ.locals.declare q.result.toList } := by
    refine frames.declare_right bare (fun id ↦ fair.outlasts_old) (fun v member ↦ ?_)
      fun v member ↦ ?_
    · exact List.mem_append_right _ (List.mem_append_left _ (List.mem_append_right _
        (List.mem_map_of_mem (results v (Option.mem_toList.1 member)))))
    · exact L.added_apart.results v (results v (Option.mem_toList.1 member))
  let rest : List Node := [waitBranch q suspend i₃ i₄ i₅ i₆, ⟨i₇, .label q.label⟩, outcome,
    ⟨i₈, .assign q.awaiter ⟨i₉, .defaultOf .any⟩⟩, run, ⟨i₁₀, q.valueShape⟩]
  let assign : Node := ⟨i₁, .assign q.awaiter ⟨i₂, Expand.acquireShape acquire o⟩⟩
  let e : Node := ⟨i₀, .block q.result.toList (assign :: rest)⟩
  have step : (system l.setting).Proceeds ⟨.enter e seek, K', τ⟩ ⟨.enter assign seek,
      ⟨e, .statements rest⟩ :: K', { τ with locals := τ.locals.declare q.result.toList }⟩ := by
    cases seek with
    | none => exact .of_next rfl
    | some label =>
      have split : e.shape = .block q.result.toList ([] ++ assign :: rest) := rfl
      exact proceeds_sought rfl split (List.forall_mem_nil _)
        ((labels_assigned (L := L) within label).trans (finds' label rfl))
  exact ⟨_, _, tasks.enters found,
    aboard.proceeds rfl (step.trans_reaches (reaches_operand finds')), .enter inside
      (.point fits inside tasks isPoint isReturn (.mk i₀ i₁ i₂ q.result.toList q.awaiter rest)
      outer) sought frames', aboard.serves⟩

/-- Both runs leave the operand of a suspend point. -/
theorem leaves_operand (fair : L.Fair params) (discreet : ∀ d, driving.Reaches s.begins d →
      d.here.Discreet) (fits : L.Fits params A (.twin p e (X ++ .ofPoint q entry)))
    (inside : L.Fits params A (.twin p' o X))
    (tasks : WaitTasks acquire p'.prompt q.result p.prompt ts)
    (isPoint : IsPoint l.contract acquire q o e)
    (isReturn : IsReturn l.contract q.label entry) (tasks' : OperandTasks acquire o e ts')
    (outer : L.Stacks params A (.twin p e (X ++ .ofPoint q entry)) K K') {r r' : Outcome}
    (outcomes : Outcomes (fun label ↦ ¬ L.New label) (fun _ _ ↦ False) r r')
    (frames : Abreast (l.outlasts params) L.New l A σ τ)
    (aboard : l.Aboard s ⟨m, ⟨.leave r', ts' ++ K', τ⟩⟩) :
    L.Advances params ⟨.leave r, ts ++ K, σ⟩ ⟨m, ⟨.leave r', ts' ++ K', τ⟩⟩ := by
  have untold : Untold p.prompt.shape := by
    generalize p.prompt = n at tasks
    cases tasks <;> trivial
  cases r with
  | ok v =>
    cases outcomes
    obtain ⟨r, r', σ₁, m₁, τ₁, same, serves, after, left, left'⟩ :=
      leaves_point fair fits tasks isPoint isReturn tasks' outer aboard discreet frames
    exact ⟨_, _, left, left',
      .leave outer same.outcomes (Lockstep.yields_of_untold untold _ _) after, serves⟩
  | error ex =>
    obtain ⟨ex', rfl⟩ := outcomes.of_error
    obtain ⟨j, ts₁, rfl⟩ := tasks.head
    cases tasks' with
    | mk i i₁ i₂ declared v rest =>
    let assign : Node := ⟨i₁, .assign v ⟨i₂, Expand.acquireShape acquire o⟩⟩
    let e : Node := ⟨i, .block declared (assign :: rest)⟩
    have within : assign ∈ l.body.walk := Node.mem_children_walk List.mem_cons_self fits.within
    have unwinds : (system l.setting).Proceeds ⟨.leave (.error ex'),
        ⟨⟨i₂, Expand.acquireShape acquire o⟩, acquireStage acquire⟩ :: ⟨assign, .operand⟩ ::
          ⟨e, .statements rest⟩ :: K', τ⟩
          ⟨.leave (.error ex'), ⟨e, .statements rest⟩ :: K', τ⟩ := by
      cases acquire <;> exact .trans_reaches (.of_next rfl) (reaches_over rfl)
    have split : Node.shape ⟨j, .block [] [p'.prompt]⟩ = .block [] ([] ++ p'.prompt :: []) := rfl
    have split' : e.shape = .block declared ([] ++ assign :: rest) := rfl
    rcases error_in_blocks (L := L) (σ := σ) (τ := τ) [] rest split split'
      (fun _ _ ↦ List.forall_mem_nil _) (fun label old ↦ free_behind fits isPoint old)
      (fun label old ↦ (inside.labels old).trans (labels_assigned (L := L) within label).symm)
      outcomes with
      ⟨-, gives', none⟩ | ⟨label, old, holds, again, again'⟩
    · -- Nothing in the operand is sought, and both leave the suspend point.
      exact ⟨_, _, tasks.passes none,
        aboard.proceeds rfl (unwinds.trans_reaches (reaches_over gives')), .leave outer outcomes
          (Lockstep.yields_error _ _ _) frames, aboard.serves⟩
    · -- The operand holds the label, and both enter it again.
      have found : Finds l.setting o (some label) := fun _ eq ↦
        Option.some.inj eq ▸ (inside.labels old).symm.trans holds
      exact ⟨_, _, .of_next (congrArg (Move.on · _) again),
          aboard.proceeds rfl (unwinds.trans_reaches
            ((reaches_sibling again').trans (reaches_operand found))),
        .enter inside (.point fits inside tasks isPoint isReturn
          (.mk i i₁ i₂ declared v rest) outer) (fun _ eq ↦ Option.some.inj eq ▸ old) frames,
          aboard.serves⟩

end Layout

end Suspension
