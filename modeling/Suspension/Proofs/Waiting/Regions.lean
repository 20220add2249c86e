import Suspension.Proofs.Waiting.Pairs

/-!
# Regions that suspend

The expansion puts a block with an entry around a region that suspends, a dispatch in front of its
body, and a guard around the parts that run at its end. A body that is running passes all of them:
the entry is a label, the dispatch has no case for its state, and the guards let it through.
-/

namespace Suspension

open Steps Eval TransitionSystem Session

namespace Layout

variable {l : Lowered} {L : Layout l} {params : List SymbolId} {A : Scope} {K K' : List Steps.Task}
variable {σ τ : Frame} {s : Session} {m : Machine}

namespace Fits

variable {D : Enclosed}

/-- The region inside of its blocks. -/
theorem region (fits : L.Fits params A (.twin D.whole (D.whole' l.contract) D.total))
    (expands : D.Expands l.contract l.keeps) : L.Fits params A (.region D) where
  place := fits.place.child (z := ([], D.region)) List.mem_cons_self
  within := Node.mem_children_walk (List.mem_cons_of_mem _ List.mem_cons_self) fits.within
  stands := expands
  bare := fits.bare
  adds := fits.adds

/-- The body of a region behind its dispatch. -/
theorem body (fits : L.Fits params A (.body D)) :
    L.Fits params A (.twin D.body D.body' D.added) where
  place := fits.place.child (z := ([], D.body)) List.mem_cons_self
  within := Node.mem_children_walk (List.mem_cons_of_mem _ List.mem_cons_self) fits.within
  stands := fits.stands.bodies
  bare := fits.bare
  adds := fits.adds

/-- A part that runs at the end of a region, behind its guard. -/
theorem part {p part g : Node} (fits : L.Fits params A (.guarded p part g)) :
    L.Fits params A (.twin p part {}) where
  place := fits.place
  within := by
    obtain ⟨twin, guarded⟩ := fits.stands
    have within : g ∈ l.body.walk := fits.within
    cases guarded
    exact Node.mem_children_walk (List.mem_cons_of_mem _ List.mem_cons_self) within
  stands := fits.stands.1
  bare some := absurd rfl some
  adds := .nothing _

end Fits

/-- No case of a dispatch is for a body that is running. -/
theorem find?_running {cs : List (Case Node)}
    (states : cs.flatMap Case.tests ⊆ L.added.table.flatMap Case.tests) :
    cs.find? (fun c ↦ c.tests.contains running) = none := by
  refine List.find?_eq_none.2 fun c member selected ↦ L.running_not_mem (states ?_)
  exact List.mem_flatMap.2 ⟨c, member, List.contains_iff_mem.1 selected⟩

/-- The entry of a region is no old label. -/
theorem entry_free {D : Enclosed}
    (fits : L.Fits params A (.twin D.whole (D.whole' l.contract) D.total))
    {label : SymbolId} (old : ¬ L.New label) :
    l.setting.labels ⟨D.i₁, .label D.entry⟩ label = false := by
  have within : (⟨D.i₁, .label D.entry⟩ : Node) ∈ l.body.walk :=
    Node.mem_children_walk List.mem_cons_self fits.within
  rw [labels_setting (L := L) within, Bool.eq_false_iff, ne_eq, List.contains_iff_mem]
  intro inside
  obtain rfl : label = D.entry.id := by
    simpa [Node.labelsWithin_mk, Shape.ownLabels, Shape.children] using inside
  exact old (fits.new _ (List.mem_append_right _ (List.mem_map_of_mem
    (List.mem_append_right _ List.mem_cons_self))))

/-- The dispatch of a region defines no label. -/
theorem dispatch_free {D : Enclosed} (fits : L.Fits params A (.body D)) (label : SymbolId) :
    l.setting.labels (D.dispatch l.contract) label = false := by
  have within : D.dispatch l.contract ∈ l.body.walk :=
    Node.mem_children_walk List.mem_cons_self fits.within
  have table := fits.stands.bodies.table_labels
  rw [List.flatMap_map] at table
  rw [labels_setting (L := L) within]
  simp [Enclosed.dispatch, Node.labelsWithin_mk, Shape.ownLabels, Shape.children, List.flatMap_map,
    table]

section Entering

variable {D : Enclosed} {seek : Option SymbolId}
  (frames : Abreast (l.outlasts params) L.New l A σ τ)

include frames

/-- A region that suspends is entered through its block in both runs. -/
theorem enters_whole (fits : L.Fits params A (.twin D.whole (D.whole' l.contract) D.total))
    (expands : D.Expands l.contract l.keeps)
    (outer : L.Stacks params A (.twin D.whole (D.whole' l.contract) D.total) K K')
    (found : Finds waiting D.whole.prompt seek) (sought : ∀ label, seek = some label →
      ¬ L.New label)
    (aboard : l.Aboard s ⟨m, ⟨.enter (D.whole' l.contract) seek, K', τ⟩⟩) :
    L.Advances params ⟨.enter D.whole.prompt seek, K, σ⟩
      ⟨m, ⟨.enter (D.whole' l.contract) seek, K', τ⟩⟩ := by
  have shape : D.whole.prompt.shape = .block [] [D.region.prompt] := by
    rw [Enclosed.whole, Node.prompt_mk]
    rfl
  have inside := found.only shape
  have region := fits.region expands
  have step : (system l.setting).Proceeds ⟨.enter (D.whole' l.contract) seek, K', τ⟩
      ⟨.enter (D.region' l.contract) seek, ⟨D.whole' l.contract, .statements []⟩ :: K', τ⟩ := by
    cases seek with
    | none => exact .trans_reaches (.of_next rfl) ((reaches_value rfl).trans (reaches_sibling rfl))
    | some label =>
      have split : (D.whole' l.contract).shape =
        .block [] ([⟨D.i₁, .label D.entry⟩] ++ D.region' l.contract :: []) := rfl
      refine proceeds_sought rfl split (fun a member ↦ ?_) (region.finds inside sought label rfl)
      obtain rfl := List.mem_singleton.1 member
      exact entry_free fits (sought label rfl)
  exact ⟨_, _, proceeds_only rfl shape inside, aboard.proceeds rfl step,
    .enter region (.block fits region outer) sought frames, aboard.serves⟩

/-- The body of a region that suspends is entered in both runs. It is not dispatched, for no suspend
point has the state of a body that is running. -/
theorem enters_body (fits : L.Fits params A (.body D)) (outer : L.Stacks params A (.body D) K K')
    (found : Finds waiting D.inside.prompt seek) (sought : ∀ label, seek = some label →
      ¬ L.New label)
    (aboard : l.Aboard s ⟨m, ⟨.enter (D.inside' l.contract) seek, K', τ⟩⟩) :
    L.Advances params ⟨.enter D.inside.prompt seek, K, σ⟩
      ⟨m, ⟨.enter (D.inside' l.contract) seek, K', τ⟩⟩ := by
  have shape : D.inside.prompt.shape = .block [] [D.body.prompt] := by
    rw [Enclosed.inside, Node.prompt_mk]
    rfl
  have inside := found.only shape
  have body := fits.body
  have step : (system l.setting).Proceeds ⟨.enter (D.inside' l.contract) seek, K', τ⟩
      ⟨.enter D.body' seek, ⟨D.inside' l.contract, .statements []⟩ :: K', τ⟩ := by
    cases seek with
    | none =>
      -- The states of the region are among those of the whole, of which running is none.
      have suspends : (Part.body D).added.table ≠ [] := fits.stands.suspends
      have agrees : ∀ q ∈ A.held, l.keeps q.1 → lookup σ q.1 = some q.2 := fun q member _ ↦
        frames.alike.held q member
      obtain ⟨-, -, K₁, K₀, -, -, track⟩ := outer.tracked suspends agrees
      have passes : leaveTo l.setting ⟨D.dispatch l.contract, .test⟩
          (.ok (.int Suspension.running)) τ = give (.ok .unit) τ := by
        have unmatched : D.added.table.find? (fun c ↦ c.tests.contains Suspension.running) =
            none := by
          refine find?_running (L := L) fun i inside ↦ tests_of_track track ?_
          simpa [Enclosed.total, Added.ofRegion] using inside
        show enterArm _ (Evaluator.caseFor D.added.table none (.int Suspension.running)) τ = _
        rw [Evaluator.caseFor]
        simp only [Value.asInt?, unmatched]
        rfl
      exact .trans_reaches (.of_next rfl) ((reaches_child rfl).trans
        ((reaches_load frames.running.lookup_localState).trans ((reaches_over passes).trans
          (reaches_sibling rfl))))
    | some label =>
      have split : (D.inside' l.contract).shape =
        .block [] ([D.dispatch l.contract] ++ D.body' :: []) := rfl
      refine proceeds_sought rfl split (fun a member ↦ ?_) (body.finds inside sought label rfl)
      obtain rfl := List.mem_singleton.1 member
      exact dispatch_free fits label
  exact ⟨_, _, proceeds_only rfl shape inside, aboard.proceeds rfl step,
    .enter body (.inside fits outer) sought frames, aboard.serves⟩

/-- A body that is running passes the guard of a part. -/
theorem passes_guard {p part g : Node} (fits : L.Fits params A (.guarded p part g))
    (found : Finds waiting p.prompt seek) (sought : ∀ label, seek = some label → ¬ L.New label) :
    (system l.setting).Proceeds ⟨.enter g seek, K', τ⟩ ⟨.enter part seek, ⟨g, .arm⟩ :: K', τ⟩ := by
  have finds := fits.part.finds found sought
  have within : g ∈ l.body.walk := fits.within
  obtain ⟨-, guarded⟩ := fits.stands
  cases guarded with
  | mk i₁ i₂ i₃ i₄ =>
    cases seek with
    | none =>
      -- The guard asks whether the state is below zero, as it is while the body runs.
      have lets : leaveTo l.setting ⟨⟨i₂, .binary .lt ⟨i₃, .var l.contract.localState⟩
          ⟨i₄, .const (.int 0)⟩⟩, .operands [.int Suspension.running] []⟩ (.ok (.int 0)) τ =
          give (.ok (.bool true)) τ := rfl
      exact .trans_reaches (.of_next rfl) ((reaches_child rfl).trans
        ((reaches_load frames.running.lookup_localState).trans ((reaches_sibling rfl).trans
          ((reaches_value rfl).trans ((reaches_over lets).trans (reaches_sibling rfl))))))
    | some label =>
      refine .of_next ?_
      have free : l.setting.labels ⟨i₂, .binary .lt ⟨i₃, .var l.contract.localState⟩
          ⟨i₄, .const (.int 0)⟩⟩ label = false := by
        rw [labels_setting (L := L) (Node.mem_children_walk List.mem_cons_self within)]
        simp [Node.labelsWithin_mk, Shape.ownLabels, Shape.children]
      have holds : l.setting.labels part label = true := finds label rfl
      show (testOrArm l.setting _ _ [part] (some label) τ).on K' = _
      rw [testOrArm]
      simp only [Evaluator.soughtArm?, Option.bind_eq_bind, Option.bind_some, free, holds,
        List.find?_cons_of_pos, Bool.false_eq_true, if_false]
      rfl

end Entering

section Leaving

variable {D : Enclosed} (frames : Abreast (l.outlasts params) L.New l A σ τ) {r r' : Outcome}
variable (outcomes : Outcomes (fun label ↦ ¬ L.New label) (fun _ _ ↦ False) r r')

include frames outcomes

/-- Both runs leave to a block around a part, in front of which the expansion has something that
holds no old label. -/
theorem leaves_around {k z : Part} {a : Node} (shape : k.first.shape = .block [] [z.first])
    (shape' : (k.second l.contract).shape = .block [] [a, z.second l.contract])
    (free : ∀ label, ¬ L.New label → l.setting.labels a label = false) (fits : L.Fits params A z)
    (inner : L.Stacks params A z (⟨k.first, .statements []⟩ :: K)
      (⟨k.second l.contract, .statements []⟩ :: K')) (outer : L.Stacks params A k K K')
    (aboard : l.Aboard s ⟨m, ⟨.leave r', ⟨k.second l.contract, .statements []⟩ :: K', τ⟩⟩) :
    L.Advances params ⟨.leave r, ⟨k.first, .statements []⟩ :: K, σ⟩
      ⟨m, ⟨.leave r', ⟨k.second l.contract, .statements []⟩ :: K', τ⟩⟩ := by
  have untold : Untold k.first.shape := by
    rw [shape]
    trivial
  -- Nothing is sought again: both runs give the outcome on.
  have leaves {r r' : Outcome}
      (outcomes : Outcomes (fun label ↦ ¬ L.New label) (fun _ _ ↦ False) r r')
      (aboard : l.Aboard s ⟨m, ⟨.leave r', ⟨k.second l.contract, .statements []⟩ :: K', τ⟩⟩)
      (gives : leaveTo waiting ⟨k.first, .statements []⟩ r σ = give r σ)
      (gives' : leaveTo l.setting ⟨k.second l.contract, .statements []⟩ r' τ = give r' τ) :
      L.Advances params ⟨.leave r, ⟨k.first, .statements []⟩ :: K, σ⟩
        ⟨m, ⟨.leave r', ⟨k.second l.contract, .statements []⟩ :: K', τ⟩⟩ :=
    ⟨_, _, .of_next (congrArg (Move.on · K) gives),
      aboard.proceeds rfl (.of_next (congrArg (Move.on · K') gives')),
      .leave outer outcomes (Lockstep.yields_of_untold untold _ _) frames, aboard.serves⟩
  cases r with
  | ok v =>
    cases outcomes
    exact leaves (.value v) aboard rfl rfl
  | error e =>
    obtain ⟨e', rfl⟩ := outcomes.of_error
    have split : k.first.shape = .block [] ([] ++ z.first :: []) := shape
    have split' : (k.second l.contract).shape = .block [] ([a] ++ z.second l.contract :: []) :=
      shape'
    rcases error_in_blocks (L := L) (σ := σ) (τ := τ) [] [] split split'
      (fun _ _ ↦ List.forall_mem_nil _)
      (fun label old b member ↦ List.mem_singleton.1 member ▸ free label old)
      (fun label old ↦ fits.labels old) outcomes with
      ⟨gives, gives', -⟩ | ⟨label, old, -, again, again'⟩
    · exact leaves outcomes aboard gives gives'
    · exact ⟨_, _, .of_next (congrArg (Move.on · K) again),
        aboard.proceeds rfl (.of_next (congrArg (Move.on · K') again')),
        .enter fits inner (fun _ eq ↦ Option.some.inj eq ▸ old) frames, aboard.serves⟩

/-- Both runs leave a region that suspends. -/
theorem leaves_block (fits : L.Fits params A (.twin D.whole (D.whole' l.contract) D.total))
    (inside : L.Fits params A (.region D))
    (outer : L.Stacks params A (.twin D.whole (D.whole' l.contract) D.total) K K')
    (aboard : l.Aboard s ⟨m, ⟨.leave r', ⟨D.whole' l.contract, .statements []⟩ :: K', τ⟩⟩) :
    L.Advances params ⟨.leave r, ⟨D.whole.prompt, .statements []⟩ :: K, σ⟩
      ⟨m, ⟨.leave r', ⟨D.whole' l.contract, .statements []⟩ :: K', τ⟩⟩ := by
  have shape : D.whole.prompt.shape = .block [] [D.region.prompt] := by
    rw [Enclosed.whole, Node.prompt_mk]
    rfl
  exact leaves_around (k := .twin D.whole (D.whole' l.contract) D.total)
    (z := .region D) frames outcomes shape rfl (fun label ↦ entry_free fits) inside
    (.block fits inside outer) outer aboard

/-- Both runs leave the body of a region that suspends. -/
theorem leaves_body (fits : L.Fits params A (.body D)) (outer : L.Stacks params A (.body D) K K')
    (aboard : l.Aboard s ⟨m, ⟨.leave r', ⟨D.inside' l.contract, .statements []⟩ :: K', τ⟩⟩) :
    L.Advances params ⟨.leave r, ⟨D.inside.prompt, .statements []⟩ :: K, σ⟩
      ⟨m, ⟨.leave r', ⟨D.inside' l.contract, .statements []⟩ :: K', τ⟩⟩ := by
  have shape : D.inside.prompt.shape = .block [] [D.body.prompt] := by
    rw [Enclosed.inside, Node.prompt_mk]
    rfl
  exact leaves_around (k := .body D) (z := .twin D.body D.body' D.added) frames outcomes shape rfl
    (fun label _ ↦ dispatch_free fits label) fits.body (.inside fits outer) outer aboard

end Leaving

end Layout

end Suspension
