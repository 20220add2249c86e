import Suspension.Proofs.Waiting.Prompt

/-!
# Preparing bodies whose futures are completed at once

No pass asks for the number of steps that a future takes, so preparing the tree whose futures take
none makes the prepared tree whose futures take none (`Node.prepare_prompt`). Two bodies that are
the same except for such numbers are prepared to trees that are the same except for them, and so
they are when they are settled (`Node.settle_prompt`).
-/

namespace Suspension

open Build Handlers

/-! ### Handlers -/

theorem Node.labelsWithin_zeroed (n : Node) : n.zeroed.labelsWithin = n.labelsWithin := by
  obtain ⟨i, sh⟩ := n
  unfold zeroed
  split
  · rename_i k shape
    obtain rfl : sh = _ := shape
    rfl
  · rfl

theorem flatMap_modify {α β : Type} {f : α → List β} {g : α → α} (h : ∀ a, f (g a) = f a) (k : Nat)
    (as : List α) : (as.modify k g).flatMap f = as.flatMap f := by
  induction as generalizing k with
  | nil => simp
  | cons a as ih => cases k <;> simp [h, ih]

/-- A prompt tree has the labels of the tree. -/
theorem Node.labelsWithin_prompt (n : Node) : n.prompt.labelsWithin = n.labelsWithin := by
  induction n using Node.induction with
  | step n ih =>
    obtain ⟨i, sh⟩ := n
    have below : (sh.map prompt).children.flatMap labelsWithin =
        sh.children.flatMap labelsWithin := by
      rw [Shape.children_map, List.flatMap_map]
      exact List.flatMap_congr fun c child ↦ ih c child
    rw [prompt_mk, labelsWithin_mk, labelsWithin_mk]
    have own : (sh.map prompt).prompt.ownLabels = sh.ownLabels := by cases sh <;> rfl
    rw [own]
    congr 1
    rcases Shape.children_prompt (sh.map prompt) with same | ⟨callee, args, shape, same⟩
    · rw [same, below]
    · rw [same, flatMap_modify labelsWithin_zeroed, ← below, shape]
      rfl

section Rethrows

variable (ex : Variable)

theorem rethrowAs_zeroed (n : Node) :
    rethrowAs ex n.zeroed = Node.zeroed <$> rethrowAs ex n := by
  obtain ⟨i, sh⟩ := n
  cases sh with
  | const value => cases value <;> rfl
  | raise value =>
    cases value with
    | none => rfl
    | some value =>
      rw [Node.zeroed_of_kind (by rintro ⟨⟩), rethrowAs_eq]
      simp [Node.shape, Shape.mapM, node_zeroed]
  | _ =>
    rw [Node.zeroed_of_kind (by rintro ⟨⟩), rethrowAs_eq]
    simp [Node.shape, Shape.mapM, node_zeroed]

/-- Rethrows are renamed alike in a prompt tree. -/
theorem rethrowAs_prompt (n : Node) :
    rethrowAs ex n.prompt = Node.prompt <$> rethrowAs ex n := by
  induction n using Node.induction with
  | step n ih =>
    obtain ⟨i, sh⟩ := n
    -- Clauses are left alone, so of a region only the other parts are rebuilt.
    have option (o : Option Node) (h : ∀ c ∈ o.toList, c ∈ sh.children) :
        (o.map Node.prompt).mapM (rethrowAs ex) =
          Option.map Node.prompt <$> o.mapM (rethrowAs ex) := by
      cases o with
      | none => rfl
      | some c => simp [ih c (h c List.mem_cons_self)]
    rw [Node.prompt_mk, rethrowAs_eq, rethrowAs_eq]
    have layer : (do node (← (sh.map Node.prompt).prompt.mapM (rethrowAs ex))) =
        Node.prompt <$> (do node (← sh.mapM (rethrowAs ex)) : Build Node) := by
      have below : ∀ c ∈ sh.children, rethrowAs ex c.prompt = Node.prompt <$> rethrowAs ex c := ih
      rw [Shape.mapM_map_prompt (rethrowAs_zeroed ex) below]
      simp [node_prompt]
    cases sh with
    | raise value =>
      cases value with
      | none => rfl
      | some value => exact layer
    | region body clauses cleanup fault =>
      simp only [Node.shape, Shape.map, Shape.prompt]
      rw [ih body List.mem_cons_self,
        option cleanup fun c inside ↦ by simp [Shape.children, inside], option fault
          fun c inside ↦ by simp [Shape.children, inside]]
      have region (b : Node) (cl f : Option Node) := node_prompt (.region b clauses cl f)
      simp only [Shape.map, Shape.prompt] at region
      simp [region]
    | _ => exact layer

end Rethrows

/-- Clauses on both sides of a region, over prompt trees. -/
def Handlers.Moved.prompt (m : Moved) : Moved where
  bound := m.bound
  clauses := m.clauses.map (Clause.map Node.prompt)
  cases := m.cases.map (Case.map Node.prompt)

/-- Clauses are moved alike in a prompt tree. -/
theorem moveClauses_prompt (cap : Captured) (which : Variable) (k : Nat)
    (cs : List (Clause Node)) : moveClauses cap which k (cs.map (Clause.map Node.prompt)) =
      Moved.prompt <$> moveClauses cap which k cs := by
  induction cs generalizing k with
  | nil => rfl
  | cons c cs ih =>
    obtain ⟨binder, filter, body⟩ := c
    rw [List.map_cons, moveClauses, moveClauses]
    simp only [Clause.map, ih, rethrowAs_prompt]
    cases binder <;> rfl

/-- Clauses are reduced alike in a prompt tree. -/
theorem reduceClauses_prompt (body : Node) (cs : List (Clause Node)) :
    reduceClauses body.prompt (cs.map (Clause.map Node.prompt)) =
      Node.prompt <$> reduceClauses body cs := by
  funext s
  simp [reduceClauses, moveClauses_prompt, Moved.prompt, assignConst, bind_run, map_run, node_run,
    Node.prompt_mk, Shape.map, Shape.prompt]

/-- Fault bodies are reduced alike in a prompt tree. -/
theorem reduceFault_prompt (body fault : Node) :
    reduceFault body.prompt fault.prompt = Node.prompt <$> reduceFault body fault := by
  funext s
  simp [reduceFault, assignConst, raiseCaptured, catchAll, assignVar, seq, bind_run, map_run,
    node_run, Node.prompt_mk, Shape.map, Shape.prompt, Clause.map]

section Exits

variable (own : List SymbolId) (exits : Exits)

/-- What becomes of a layer whose exits are collected. -/
def collectLayer : Shape Node → Collect Node
  | .goto target =>
    if own.contains target.id then liftM (node (.goto target))
    else do
      let index ← indexOf (.jump target)
      let mark ← assignConst exits.pending (.int index)
      let leave ← node (.goto exits.leave)
      seq [mark, leave]
  | .ret value => do
    let value ← match value with
      | some value => pure value
      | none => liftM empty
    let index ← indexOf .ret
    let keep ← node (.assign exits.retval value)
    let mark ← assignConst exits.pending (.int index)
    let leave ← node (.goto exits.leave)
    seq [keep, mark, leave]
  | sh => liftM (node sh)

/-- Collecting exits keeps trees prompt. -/
theorem collectExits_promptPass : PromptPass (collectExits own exits) (collectLayer own exits) where
  eq n := by
    obtain ⟨i, sh⟩ := n
    rw [collectExits_eq]
    cases sh with
    | ret value =>
      cases value with
      | none => rfl
      | some value => simp [Node.shape, Shape.mapM, collectLayer]
    | goto target => rfl
    | _ => simp [Node.shape, Shape.mapM, collectLayer]
  constant k := rfl
  others sh h := by
    have lifted {sh : Shape Node} (h : ∀ k, sh ≠ .const (.int k)) :
        Node.zeroed <$> (liftM (node sh) : Collect Node) = liftM (node sh) := by
      rw [← liftM_map, node_zeroed h]
    cases sh with
    | goto target =>
      rw [collectLayer]
      split
      · exact lifted (by rintro _ ⟨⟩)
      · rfl
    | ret value => cases value <;> rfl
    | _ => exact lifted h
  layers sh := by
    have lifted (sh : Shape Node) : (liftM (node (sh.map Node.prompt).prompt) : Collect Node) =
        Node.prompt <$> liftM (node sh) := by
      rw [node_prompt, liftM_map]
    cases sh with
    | goto target =>
      simp only [Shape.map, Shape.prompt, collectLayer]
      split
      · exact lifted (.goto target)
      · rfl
    | ret value => cases value <;> rfl
    | _ => exact lifted _

/-- Exits are collected alike in a prompt tree. -/
theorem collectExits_prompt (n : Node) :
    collectExits own exits n.prompt = Node.prompt <$> collectExits own exits n :=
  (collectExits_promptPass own exits).prompt n

end Exits

/-- No future is made where the exits are carried out. -/
theorem resumeCases_prompt (exits : Exits) (k : Nat) (ls : List Leaving) (s : Supply) :
    (resumeCases exits k ls s).1.map (Case.map Node.prompt) = (resumeCases exits k ls s).1 := by
  induction ls generalizing k s with
  | nil => rfl
  | cons l ls ih =>
    cases l <;>
      simp [resumeCases, resumeExit, bind_run, map_run, node_run, Node.prompt_mk, Shape.map,
        Shape.prompt, Case.map, ih]

/-- Finally bodies are reduced alike in a prompt tree. -/
theorem reduceCleanup_prompt (body cleanup : Node) :
    reduceCleanup body.prompt cleanup.prompt = Node.prompt <$> reduceCleanup body cleanup := by
  simp only [reduceCleanup, Node.labelsWithin_prompt, collectExits_prompt, StateT.run_map,
    map_bind, bind_map_left]
  refine bind_congr fun cap ↦ bind_congr fun leave ↦ bind_congr fun pending ↦
    bind_congr fun retval ↦ bind_congr fun made ↦ ?_
  obtain ⟨body, left⟩ := made
  -- What stands around the parts is the same, so it is enough to compute it.
  funext s
  cases left <;>
    simp [assignConst, raiseCaptured, catchAll, assignVar, seq, bind_run, map_run, node_run,
      Node.prompt_mk, Shape.map, Shape.prompt, Clause.map, resumeCases_prompt]

theorem withClauses_prompt (cs : List (Clause Node)) (body : Node) :
    withClauses (cs.map (Clause.map Node.prompt)) body.prompt =
      Node.prompt <$> withClauses cs body := by
  have suspends : (cs.map (Clause.map Node.prompt)).any (fun c ↦ c.body.containsAwait) =
      cs.any fun c ↦ c.body.containsAwait := by
    simp [List.any_map, Function.comp_def, Clause.map, Node.containsAwait_prompt]
  rw [withClauses, withClauses, suspends, List.isEmpty_map]
  split
  · rfl
  · split
    · exact reduceClauses_prompt body cs
    · exact node_prompt (.region body cs none none)

theorem withCleanup_prompt (cleanup : Option Node) (body : Node) :
    withCleanup (cleanup.map Node.prompt) body.prompt =
      Node.prompt <$> withCleanup cleanup body := by
  cases cleanup with
  | none => rfl
  | some part =>
    rw [Option.map_some, withCleanup, withCleanup, Node.containsAwait_prompt]
    split
    · exact reduceCleanup_prompt body part
    · exact node_prompt (.region body [] (some part) none)

theorem withFault_prompt (fault : Option Node) (body : Node) :
    withFault (fault.map Node.prompt) body.prompt = Node.prompt <$> withFault fault body := by
  cases fault with
  | none => rfl
  | some part =>
    rw [Option.map_some, withFault, withFault, Node.containsAwait_prompt]
    split
    · exact reduceFault_prompt body part
    · exact node_prompt (.region body [] none (some part))

/-- Regions are reduced alike in a prompt tree. -/
theorem reduceRegion_prompt (body : Node) (cs : List (Clause Node)) (cleanup fault : Option Node) :
    reduceRegion body.prompt (cs.map (Clause.map Node.prompt)) (cleanup.map Node.prompt)
      (fault.map Node.prompt) = Node.prompt <$> reduceRegion body cs cleanup fault := by
  have clauses : (cs.map (Clause.map Node.prompt)).any (fun c ↦ c.body.containsAwait) =
      cs.any fun c ↦ c.body.containsAwait := by
    simp [List.any_map, Function.comp_def, Clause.map, Node.containsAwait_prompt]
  have part (o : Option Node) :
      (o.map Node.prompt).any Node.containsAwait = o.any Node.containsAwait := by
    cases o <;> simp [Node.containsAwait_prompt]
  rw [reduceRegion_eq, reduceRegion_eq, clauses, part, part]
  split
  · exact node_prompt (.region body cs cleanup fault)
  · simp only [withClauses_prompt, withCleanup_prompt, withFault_prompt, bind_map_left, map_bind]

/-- What becomes of a layer whose handlers are moved. -/
def reduceLayer : Shape Node → Build Node
  | .region body clauses cleanup fault => reduceRegion body clauses cleanup fault
  | sh => node sh

/-- No region is reduced to a constant. -/
theorem reduceRegion_zeroed (body : Node) (cs : List (Clause Node)) (cleanup fault : Option Node) :
    Node.zeroed <$> reduceRegion body cs cleanup fault = reduceRegion body cs cleanup fault := by
  have either {p : Prop} [Decidable p] (x y : Build Node) :
      Node.zeroed <$> (if p then x else y) =
        if p then Node.zeroed <$> x else Node.zeroed <$> y := by
    split <;> rfl
  rw [reduceRegion_eq]
  split
  · exact node_zeroed nofun
  · rename_i suspends
    simp only [map_bind]
    -- The outermost of the parts says what the region becomes.
    cases fault with
    | some part => simp [withFault, reduceFault, node_zeroed, either]
    | none =>
      cases cleanup with
      | some part => simp [withFault, withCleanup, reduceCleanup, node_zeroed, either]
      | none =>
        have suspends : (cs.any fun c ↦ c.body.containsAwait) = true := by simpa using suspends
        cases cs with
        | nil => cases suspends
        | cons c cs => simp [withFault, withCleanup, withClauses, suspends, reduceClauses,
            node_zeroed]

/-- Reducing handlers keeps trees prompt. -/
theorem reduceHandlers_promptPass : PromptPass Node.reduceHandlers reduceLayer where
  eq n := by
    rw [Node.reduceHandlers_eq]
    rfl
  constant k := rfl
  others sh h := by
    cases sh with
    | region body cs cleanup fault => exact reduceRegion_zeroed body cs cleanup fault
    | _ => exact node_zeroed h
  layers sh := by
    cases sh with
    | region body cs cleanup fault => exact reduceRegion_prompt body cs cleanup fault
    | _ => exact node_prompt _

/-- The passes before the expansion make a prompt tree of a prompt tree. -/
theorem Node.prepare_prompt (options : LoweringOptions) (body : Node) :
    body.prompt.prepare options = Node.prompt <$> body.prepare options := by
  rw [Node.prepare, Node.prepare]
  cases options.spill <;> cases options.reduceHandlers <;>
    simp [spill_promptPass.prompt, reduceHandlers_promptPass.prompt]

/-! ### Settling -/

theorem Node.settle_zeroed (n : Node) : n.zeroed.settle = n.settle.zeroed := by
  obtain ⟨i, sh⟩ := n
  rw [settle_eq]
  cases sh with
  | const value => cases value <;> rfl
  | _ =>
    rw [zeroed_of_kind (n := ⟨i, _⟩) (by rintro ⟨⟩), settle_eq]
    simp only [Node.shape, Shape.map]
    first
    | rfl
    | split <;> rfl

theorem map_modify {α β : Type} {f : α → β} {g : α → α} {g' : β → β} (h : ∀ a, f (g a) = g' (f a))
    (k : Nat) (as : List α) : (as.modify k g).map f = (as.map f).modify k g' := by
  induction as generalizing k with
  | nil => cases k <;> rfl
  | cons a as ih => cases k <;> simp [h, ih]

/-- Settling a tree and making it prompt can be exchanged. -/
theorem Node.settle_prompt (n : Node) : n.prompt.settle = n.settle.prompt := by
  induction n using Node.induction with
  | step n ih =>
    have await := n.containsAwait_prompt
    obtain ⟨i, sh⟩ := n
    have below : (sh.map prompt).map settle = (sh.map settle).map prompt := by
      rw [Shape.map_map, Shape.map_map]
      exact Shape.map_congr fun c child ↦ ih c child
    rw [settle_eq, settle_eq, await, prompt_mk]
    dsimp only [Node.shape, Node.id]
    have layer := prompt_mk i (sh.map settle)
    cases sh with
    | block declared ns =>
      dsimp only [Shape.map, Shape.prompt] at below ⊢
      rw [prompt_mk, (Shape.block.inj below).2]
      rfl
    | await operand acquire result =>
      dsimp only [Shape.map, Shape.prompt] at below ⊢
      rw [(Shape.await.inj below).1]
      split <;> simp [prompt_mk, Shape.map, Shape.prompt]
    | region body clauses cleanup fault =>
      obtain ⟨bodies, handlers, cleanups, faults⟩ := Shape.region.inj below
      dsimp only [Shape.map, Shape.prompt]
      rw [bodies, handlers, cleanups, faults]
      split <;> simp only [prompt_mk, Shape.map, Shape.prompt, List.map_cons, List.map_nil]
    | call callee args =>
      have list := (Shape.call.inj below).2
      dsimp only [Shape.map, Shape.prompt]
      rw [prompt_mk]
      split
      · rw [map_modify settle_zeroed, list]
        simp [Shape.map, Shape.prompt, *]
      · rw [list]
        simp [Shape.map, Shape.prompt, *]
    | _ => exact (congrArg (Node.mk i) below).trans layer.symm

/-- What is hoisted does not depend on the steps of futures. -/
theorem Node.hoistable_prompt (n : Node) : n.prompt.hoistable = n.hoistable := by
  induction n using Node.induction with
  | step n ih =>
    have zeroed (n : Node) : n.zeroed.hoistable = n.hoistable := by
      obtain ⟨i, sh⟩ := n
      cases sh with
      | const value => cases value <;> rfl
      | _ => rw [zeroed_of_kind (by rintro ⟨⟩)]
    have await := n.containsAwait_prompt
    obtain ⟨i, sh⟩ := n
    have below : (sh.map prompt).children.flatMap hoistable = sh.children.flatMap hoistable := by
      rw [Shape.children_map, List.flatMap_map]
      exact List.flatMap_congr fun c child ↦ ih c child
    have declared : (sh.map prompt).prompt.declared = sh.declared := by cases sh <;> rfl
    rw [hoistable_eq, await, hoistable_eq, prompt_mk]
    rw [children, children, Node.shape, Node.shape, declared]
    congr 1
    rcases Shape.children_prompt (sh.map prompt) with same | ⟨callee, args, shape, same⟩
    · rw [same, below]
    · rw [same, flatMap_modify zeroed, ← below, shape]
      rfl

end Suspension
