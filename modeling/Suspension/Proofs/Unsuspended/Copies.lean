import Suspension.Proofs.Acceptance
import Suspension.Proofs.Layout
import Suspension.Proofs.Preparation.Reduced
import Suspension.Proofs.Unnumbered

/-!
# Bodies without suspend points are copied

Every pass builds its tree anew. Where nothing suspends that is all it does: each of the three is
`Node.copy`, which gives every node a new number and leaves everything else (`Node.spill_eq_copy`,
`Node.reduceHandlers_eq_copy`, `Node.expand_eq_copy`). So lowering such a body comes to an end, and
puts a copy of the body behind a dispatch without cases (`Node.lower_eq_copy`).
-/

namespace Suspension

open Build

/-! ### Layers, child by child -/

namespace Shape

variable {α β : Type} {m : Type → Type} [Monad m]

/-- A layer is rebuilt the same way if its children are. -/
theorem mapM_congr [LawfulMonad m] {f g : α → m β} {sh : Shape α}
    (h : ∀ a ∈ sh.children, f a = g a) : sh.mapM f = sh.mapM g := by
  rw [← sequence_map, ← sequence_map, map_congr h]

end Shape

namespace Expand

instance : LawfulMonadLift Build Expand where
  monadLift_pure _ := rfl
  monadLift_bind _ _ := rfl

variable {α β : Type}

/-- Building in a row is part of the pass. -/
theorem liftM_list (f : α → Build β) (as : List α) :
    (liftM (as.mapM f) : Expand (List β)) = as.mapM fun a ↦ liftM (f a) := by
  induction as with
  | nil => rfl
  | cons a as ih =>
    rw [List.mapM_cons, List.mapM_cons, ← ih]
    rfl

theorem liftM_option (f : α → Build β) (o : Option α) :
    (liftM (o.mapM f) : Expand (Option β)) = o.mapM fun a ↦ liftM (f a) := by
  cases o <;> rfl

theorem liftM_clause (f : α → Build β) (c : Clause α) :
    (liftM (c.mapM f) : Expand (Clause β)) = c.mapM fun a ↦ liftM (f a) := by
  rw [Clause.mapM, Clause.mapM, ← liftM_option]
  rfl

/-- Building a layer is part of the pass. -/
theorem liftM_shape (f : α → Build β) (sh : Shape α) :
    (liftM (sh.mapM f) : Expand (Shape β)) = sh.mapM fun a ↦ liftM (f a) := by
  have case (c : Case α) :
      (liftM (c.mapM f) : Expand (Case β)) = c.mapM fun a ↦ liftM (f a) := rfl
  cases sh <;> simp [Shape.mapM, liftM_list, liftM_option, liftM_clause, case]

end Expand

namespace Node

/-- The tree with a new number for every node, and otherwise the same. -/
def copy : Node → Build Node :=
  fold fun _ layer ↦ do node (← layer.sequence)

theorem copy_eq (n : Node) : n.copy = (do node (← n.shape.mapM copy)) := by
  rw [copy, fold_eq, Shape.sequence_map]

/-- A copy of a tree, made between two states of the supply. -/
structure Copied (n n' : Node) (s s' : Supply) : Prop where
  same : n'.unnumbered = n.unnumbered
  symbol : s'.symbol = s.symbol
  node_le : s.node ≤ s'.node
  ids : n'.ids.Perm (span s.node s'.node)

/-- What copies in a row take from the supply. -/
theorem Copied.row {xs : List (Node × Node × Unit)} {s s' : Supply}
    (h : Threads (fun n s n' s' (_ : Unit) ↦ Copied n n' s s') xs s s') :
    s'.symbol = s.symbol ∧ s.node ≤ s'.node ∧
      ((xs.map (·.2.1)).flatMap Node.ids).Perm (span s.node s'.node) := by
  induction h with
  | nil => simp
  | cons head tail ih =>
    obtain ⟨symbol, le, ids⟩ := ih
    refine ⟨symbol.trans head.symbol, Nat.le_trans head.node_le le, ?_⟩
    rw [← span_append head.node_le le, List.map_cons, List.flatMap_cons]
    exact head.ids.append ids

theorem copied {n n' : Node} {s s' : Supply} (h : runs n.copy s n' s') : Copied n n' s s' := by
  induction n using Node.induction generalizing s n' s' with
  | step n ih =>
    rw [copy_eq, runs_bind] at h
    obtain ⟨sh, s₁, children, step⟩ := h
    obtain ⟨x, source, rfl, threads⟩ := Runs.shape (f := copy)
      (Q := fun n s n' s' (_ : Unit) ↦ Copied n n' s s')
      (fun a child _ _ _ run ↦ ⟨(), ih a child run⟩) children
    obtain ⟨symbol, le, ids⟩ := Copied.row threads
    cases step
    refine ⟨?_, symbol, Nat.le_succ_of_le le, ?_⟩
    · rw [unnumbered_eq, unnumbered_eq, ← source, Node.shape, Shape.map_map, Shape.map_map]
      refine congrArg _ (Shape.map_congr fun y member ↦ ?_)
      obtain ⟨_, _, made⟩ := threads.of_mem member
      exact made.same
    · rw [ids_mk, Shape.children_map, ← span_append le (Nat.le_succ _), span_succ]
      exact (ids.cons _).trans (List.perm_append_singleton _ _).symm

theorem containsAwait_unnumbered (n : Node) : n.unnumbered.containsAwait = n.containsAwait :=
  fold_unnumbered _ n

theorem labelsWithin_unnumbered (n : Node) : n.unnumbered.labelsWithin = n.labelsWithin :=
  fold_unnumbered _ n

theorem Copied.containsAwait {n n' : Node} {s s' : Supply} (h : Copied n n' s s') :
    n'.containsAwait = n.containsAwait := by
  rw [← containsAwait_unnumbered, h.same, containsAwait_unnumbered]

/-- Nothing suspends beneath a node where nothing suspends. -/
theorem plain_children {n : Node} (plain : n.containsAwait = false) :
    n.kind ≠ .await ∧ ∀ c ∈ n.children, c.containsAwait = false := by
  rw [containsAwait_eq, Bool.or_eq_false_iff, List.any_eq_false] at plain
  exact ⟨fun await ↦ by simp [await] at plain, fun c child ↦ Bool.eq_false_iff.2 (plain.2 c child)⟩

/-- Nothing suspends anywhere in a tree where nothing suspends. -/
theorem plain_walk {n : Node} (plain : n.containsAwait = false) :
    ∀ m ∈ n.walk, m.containsAwait = false := by
  induction n using Node.induction with
  | step n ih =>
    obtain ⟨i, sh⟩ := n
    exact forall_walk_mk.2 ⟨plain, fun c child ↦ ih c child ((plain_children plain).2 c child)⟩

/-- A pass that goes from the leaves up copies a tree if it leaves every layer as it is. Which
layers it leaves may depend on which of their children suspend, for copying does not change that. -/
theorem eq_copy {f : Node → Build Node} {layer : Shape Node → Build Node} (left : Shape Bool → Prop)
    (step : ∀ n, f n = (do layer (← n.shape.mapM f)))
    (leaves : ∀ sh, left (sh.map containsAwait) → layer sh = node sh) {n : Node}
    (all : ∀ m ∈ n.walk, left (m.shape.map containsAwait)) : f n = n.copy := by
  induction n using Node.induction with
  | step n ih =>
    have below (c) (child : c ∈ n.children) : f c = c.copy :=
      ih c child fun m member ↦ all m (mem_walk_of_mem_children member child)
    rw [step, copy_eq, Shape.mapM_congr below]
    funext s
    have rows : runs (n.shape.mapM copy) s (n.shape.mapM copy s).1 (n.shape.mapM copy s).2 := rfl
    obtain ⟨x, source, same, threads⟩ := Runs.shape (f := copy)
      (Q := fun n s n' s' (_ : Unit) ↦ Copied n n' s s')
      (fun a child _ _ _ run ↦ ⟨(), copied run⟩) rows
    have suspends : (x.map (·.2.1)).map containsAwait = n.shape.map containsAwait := by
      rw [← source, Shape.map_map, Shape.map_map]
      refine Shape.map_congr fun y member ↦ ?_
      obtain ⟨_, _, made⟩ := threads.of_mem member
      exact made.containsAwait
    rw [bind_run, bind_run, leaves]
    rw [← same, suspends]
    exact all n n.mem_walk_self

/-- A pass copies a tree where nothing suspends, if it leaves every layer without suspend points
beneath it. -/
theorem eq_copy_of_plain {f : Node → Build Node} {layer : Shape Node → Build Node}
    (step : ∀ n, f n = (do layer (← n.shape.mapM f)))
    (leaves : ∀ sh, (∀ c ∈ sh.children, c.containsAwait = false) → layer sh = node sh) {n : Node}
    (plain : n.containsAwait = false) : f n = n.copy := by
  refine eq_copy (fun sh ↦ ∀ b ∈ sh.children, b = false) step (fun sh quiet ↦ leaves sh ?_) ?_
  · rwa [Shape.children_map, List.forall_mem_map] at quiet
  · intro m member
    rw [Shape.children_map, List.forall_mem_map]
    exact (plain_children (plain_walk plain m member)).2

/-! ### The passes -/

open Spill in
theorem spillOperands_plain {os : List Node} (plain : ∀ o ∈ os, o.containsAwait = false) :
    spillOperands os = pure ⟨[], [], os⟩ := by
  induction os with
  | nil => rfl
  | cons o os ih =>
    obtain ⟨-, rest⟩ := List.forall_mem_cons.1 plain
    have none : os.any Node.containsAwait = false :=
      List.any_eq_false.2 fun o member ↦ by simp [rest o member]
    rw [spillOperands, none, ih rest]
    rfl

open Spill in
/-- Spilling a tree where nothing suspends copies it. -/
theorem spill_eq_copy {n : Node} (plain : n.containsAwait = false) : n.spill = n.copy := by
  refine eq_copy_of_plain spill_eq (fun sh below ↦ ?_) plain
  cases sh with
  | binary op l r =>
    have right : r.containsAwait = false := below r (by simp [Shape.children])
    rw [spillLayer, right]
    rfl
  | call callee args =>
    have none : spillOperands args = pure ⟨[], [], args⟩ := spillOperands_plain below
    rw [spillLayer, none]
    rfl
  | _ => rfl

open Handlers in
/-- Moving the handlers of a tree whose handler bodies do not suspend copies it. -/
theorem reduceHandlers_eq_copy {n : Node} (reduced : n.Reduced) : n.reduceHandlers = n.copy := by
  refine eq_copy (fun sh ↦ ∀ b ∈ sh.handlerBodies, b = false) reduceHandlers_eq
    (fun sh quiet ↦ ?_) fun m member ↦ ?_
  · rw [Shape.handlerBodies_map, List.forall_mem_map] at quiet
    cases sh with
    | region body clauses cleanup fault =>
      simp only [Shape.handlerBodies, List.forall_mem_append, List.forall_mem_map,
        Option.mem_toList] at quiet
      obtain ⟨⟨handlers, cleanups⟩, faults⟩ := quiet
      have bodies : (clauses.any fun c ↦ c.body.containsAwait) = false :=
        List.any_eq_false.2 fun c member ↦ by simp [handlers c member]
      have part {o : Option Node} (h : ∀ m, o = some m → m.containsAwait = false) :
          o.any containsAwait = false := by
        cases o with
        | none => rfl
        | some m => exact h m rfl
      show reduceRegion body clauses cleanup fault = _
      rw [reduceRegion_eq, bodies, part cleanups, part faults]
      rfl
    | _ => rfl
  · rw [Shape.handlerBodies_map, List.forall_mem_map]
    exact reduced m member

/-- Nothing suspends in the handler bodies of a tree where nothing suspends. -/
theorem reduced_of_plain {n : Node} (plain : n.containsAwait = false) : n.Reduced :=
  fun m member body inside ↦
    (plain_children (plain_walk plain m member)).2 body (Shape.mem_handlerBodies inside)

open Expand in
/-- Expanding a tree where nothing suspends copies it. -/
theorem expand_eq_copy (c : Contract) {n : Node} (plain : n.containsAwait = false) :
    n.expand c = liftM n.copy := by
  induction n using Node.induction with
  | step n ih =>
    obtain ⟨kind, below⟩ := plain_children plain
    have layer : n.shape.map (expand c) = n.shape.map fun a ↦ liftM a.copy :=
      Shape.map_congr fun a child ↦ ih a child (below a child)
    have rows : n.shape.mapM (expand c) = liftM (n.shape.mapM copy) := by
      rw [← Shape.sequence_map, layer, Shape.sequence_map, liftM_shape]
    have clause : Clause.mapM (fun a ↦ liftM a.copy) =
        fun c ↦ (liftM (Clause.mapM copy c) : Expand (Clause Node)) :=
      funext fun c ↦ (liftM_clause copy c).symm
    rw [expand_eq, copy_eq]
    obtain ⟨i, sh⟩ := n
    dsimp only [Node.shape] at layer rows ⊢
    cases sh with
    | block declared statements =>
      -- The flag of the block stays down, so its variables stay where they are.
      dsimp only
      rw [(Shape.block.inj layer).2, Expand.block, List.mapM_map, Function.comp_def, ← liftM_list]
      rfl
    | region body clauses cleanup fault =>
      -- No state is taken, so the table of the region is empty when it is closed.
      obtain ⟨bodies, handlers, cleanups, faults⟩ := Shape.region.inj layer
      dsimp only
      rw [bodies, handlers, cleanups, faults, region_eq c fun a ↦ liftM a.copy, clause,
        ← liftM_list, ← liftM_option, ← liftM_option]
      rfl
    | await => exact absurd rfl kind
    | _ =>
      dsimp only
      rw [rows, liftM_bind]

/-- The passes before the expansion copy a tree where nothing suspends, or leave it. -/
theorem prepare_unnumbered {options : LoweringOptions} {body prepared : Node} {s s' : Supply}
    (run : runs (body.prepare options) s prepared s') (plain : body.containsAwait = false) :
    prepared.unnumbered = body.unnumbered := by
  obtain ⟨spilled, s₁, first, second⟩ := runs_prepare_iff.1 run
  have spills : spilled.unnumbered = body.unnumbered := by
    split at first
    · exact (copied (spill_eq_copy plain ▸ first)).same
    · rw [first.1]
  have plain₁ : spilled.containsAwait = false := by
    rw [← containsAwait_unnumbered, spills, containsAwait_unnumbered, plain]
  split at second
  · exact (copied (reduceHandlers_eq_copy (reduced_of_plain plain₁) ▸ second)).same.trans spills
  · rw [second.1, spills]

end Node

/-- A lowered body that holds a tree as it is, up to the numbers of nodes, with nothing to
resume. -/
structure Lowered.Holds (l : Lowered) (body : Node) : Prop where
  returns : ∃ inner, IsAssembled l.contract inner [] l.body ∧ inner.unnumbered = body.unnumbered
  stateCount : l.stateCount = 0
  hoisted : l.hoisted = []
  fields : l.fields = []
  resume : l.resume = []

/-- A copy of a body behind a dispatch without cases. -/
structure Lowered.Wraps (l : Lowered) (body inner : Node) : Prop where
  made : ∃ s s', runs body.copy s inner s'
  assembled : IsAssembled l.contract inner [] l.body
  ids : l.body.ids.Nodup
  stateCount : l.stateCount = 0
  hoisted : l.hoisted = []
  fields : l.fields = []
  resume : l.resume = []

theorem Lowered.Wraps.holds {l : Lowered} {body inner : Node} (h : l.Wraps body inner) :
    l.Holds body := by
  obtain ⟨s, s', run⟩ := h.made
  exact ⟨⟨inner, h.assembled, (Node.copied run).same⟩, h.stateCount, h.hoisted, h.fields, h.resume⟩

/-- A legal body where nothing suspends is lowered to a copy of it behind a dispatch without
cases. -/
theorem Node.lower_eq_copy {body : Node} {options : LoweringOptions} {c : Contract}
    {supply : Supply} (plain : body.containsAwait = false)
    (legal : body.check options.reduceHandlers = .ok ()) : ∃ l supply' inner,
      body.lower options c supply = .ok (l, supply') ∧ l.contract = c ∧ l.Wraps body inner := by
  generalize prepares : body.prepare options supply = p
  obtain ⟨prepared, s₁⟩ := p
  have same : prepared.unnumbered = body.unnumbered := prepare_unnumbered prepares plain
  have plain₁ : prepared.containsAwait = false := by
    rw [← containsAwait_unnumbered, same, containsAwait_unnumbered, plain]
  generalize copies : body.copy s₁ = q
  obtain ⟨inner, s₂⟩ := q
  have expands : prepared.expand c ⟨s₁, {}, {}, []⟩ = .ok (inner, ⟨s₂, {}, {}, []⟩) := by
    -- A copy does not depend on the numbers that it replaces.
    have again : prepared.copy = body.copy := by
      rw [copy, ← fold_unnumbered, same, fold_unnumbered]
    rw [expand_eq_copy c plain₁, again]
    show Except.ok ((body.copy s₁).1, (⟨(body.copy s₁).2, {}, {}, []⟩ : Expansion)) = _
    rw [copies]
  generalize assembles : assemble c inner [] s₂ = t
  obtain ⟨root, s₃⟩ := t
  have copied : Copied body inner s₁ s₂ := Node.copied copies
  obtain ⟨assembled, -, le, ids⟩ := runs_assemble assembles
  refine ⟨⟨root, c, [], [], [], 0⟩, s₃, inner, ?_, rfl,
    ⟨⟨s₁, s₂, copies⟩, assembled, ?_, rfl, rfl, rfl, rfl⟩⟩
  · rw [lower, legal, prepares]
    dsimp only
    rw [expands]
    show Except.ok ((⟨(assemble c inner [] s₂).1, c, [], [], [], 0⟩ : Lowered),
      (assemble c inner [] s₂).2) = _
    rw [assembles]
  · rw [List.flatMap_nil, List.append_nil] at ids
    refine (ids.trans (copied.ids.append_right _)).nodup_iff.2 ?_
    rw [span_append copied.node_le le]
    exact List.nodup_range'

end Suspension
