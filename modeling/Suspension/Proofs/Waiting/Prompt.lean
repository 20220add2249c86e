import Suspension.Proofs.Unsuspended.Copies

/-!
# Futures that are completed at once

The operations that make futures take as their second argument the number of steps until the future
is completed. `Node.prompt` is the tree with zero for every such number that is a constant.
-/

namespace Suspension

open Build

/-- Whether an operation makes a future that takes a number of steps, its second argument. -/
def takesSteps (callee : String) : Bool :=
  callee == "pending" || callee == "fail"

/-- A constant number, taken to zero. -/
def Node.zeroed (n : Node) : Node :=
  match n.shape with
  | .const (.int _) => ⟨n.id, .const (.int 0)⟩
  | _ => n

/-- The layer of a future that is completed when it is made. -/
def Shape.prompt : Shape Node → Shape Node
  | .call callee args =>
    .call callee (if takesSteps callee then args.modify 1 Node.zeroed else args)
  | sh => sh

/-- The tree whose futures take no steps, where their number is a constant. -/
def Node.prompt : Node → Node :=
  fold fun n layer ↦ ⟨n.id, layer.prompt⟩

theorem Node.prompt_eq (n : Node) : n.prompt = ⟨n.id, (n.shape.map prompt).prompt⟩ :=
  fold_eq _ n

theorem Node.prompt_mk (i : NodeId) (sh : Shape Node) :
    prompt ⟨i, sh⟩ = ⟨i, (sh.map prompt).prompt⟩ :=
  prompt_eq ⟨i, sh⟩

theorem Shape.kind_prompt (sh : Shape Node) : sh.prompt.kind = sh.kind := by
  cases sh <;> rfl

/-- A prompt tree has the form of the tree. -/
theorem Node.kind_prompt (n : Node) : n.prompt.kind = n.kind := by
  rw [prompt_eq, kind, shape, Shape.kind_prompt, Shape.kind_map]
  rfl

section Layers

variable {m : Type → Type} [Monad m] [LawfulMonad m] {α β γ : Type}

/-- A pass over replaced children is a pass over the children. -/
theorem Shape.mapM_map (g : α → β) (f : β → m γ) (sh : Shape α) :
    (sh.map g).mapM f = sh.mapM fun a ↦ f (g a) := by
  rw [← Shape.sequence_map, ← Shape.sequence_map, Shape.map_map]
  rfl

/-- Replacing what a pass makes of children is a pass. -/
theorem Shape.map_mapM (g : β → γ) (f : α → m β) (sh : Shape α) :
    (sh.mapM fun a ↦ g <$> f a) = Shape.map g <$> sh.mapM f := by
  have list (as : List α) : (as.mapM fun a ↦ g <$> f a) = List.map g <$> as.mapM f := by
    induction as with
    | nil => simp
    | cons a as ih => simp [ih]
  have option (o : Option α) : (o.mapM fun a ↦ g <$> f a) = Option.map g <$> o.mapM f := by
    cases o <;> simp
  have clause (c : Clause α) : (c.mapM fun a ↦ g <$> f a) = Clause.map g <$> c.mapM f := by
    simp [Clause.mapM, option, Clause.map]
  have clauses (cs : List (Clause α)) : (cs.mapM (Clause.mapM fun a ↦ g <$> f a)) =
      List.map (Clause.map g) <$> cs.mapM (Clause.mapM f) := by
    induction cs with
    | nil => simp
    | cons c cs ih => simp [ih, clause]
  have cases' (cs : List (Case α)) : (cs.mapM (Case.mapM fun a ↦ g <$> f a)) =
      List.map (Case.map g) <$> cs.mapM (Case.mapM f) := by
    induction cs with
    | nil => simp
    | cons c cs ih => simp [ih, Case.mapM, Case.map]
  cases sh <;> simp [Shape.mapM, Shape.map, list, option, clauses, cases']

/-- A layer that is prompt is rebuilt like the layer, if constants are rebuilt as constants. -/
theorem Shape.mapM_prompt {f : Node → m Node}
    (zeroed : ∀ n, f n.zeroed = Node.zeroed <$> f n) (sh : Shape Node) :
    sh.prompt.mapM f = prompt <$> sh.mapM f := by
  have modify (k : Nat) (args : List Node) :
      (args.modify k Node.zeroed).mapM f = (List.modify · k Node.zeroed) <$> args.mapM f := by
    induction args generalizing k with
    | nil => simp
    | cons a args ih => cases k <;> simp [zeroed, ih]
  cases sh with
  | call callee args =>
    by_cases steps : takesSteps callee <;> simp [prompt, Shape.mapM, steps, modify]
  | _ => simp [prompt, Shape.mapM]

/-- What a pass makes of the layer of a prompt tree. -/
theorem Shape.mapM_map_prompt {f : Node → m Node}
    (zeroed : ∀ n, f n.zeroed = Node.zeroed <$> f n) {sh : Shape Node}
    (h : ∀ c ∈ sh.children, f c.prompt = Node.prompt <$> f c) :
    (sh.map Node.prompt).prompt.mapM f =
      (fun sh' ↦ (sh'.map Node.prompt).prompt) <$> sh.mapM f := by
  rw [Shape.mapM_prompt zeroed, Shape.mapM_map, Shape.mapM_congr h, Shape.map_mapM,
    Functor.map_map]

/-- What a pass makes of a tree, in terms of its layers. -/
structure PromptPass (f : Node → m Node) (layer : Shape Node → m Node) : Prop where
  eq : ∀ n, f n = n.shape.mapM f >>= layer
  /-- A constant is made of a constant, whatever its value. -/
  constant : ∀ k, layer (.const (.int 0)) = Node.zeroed <$> layer (.const (.int k))
  /-- No other layer becomes a constant. -/
  others : ∀ sh, (∀ k, sh ≠ .const (.int k)) → Node.zeroed <$> layer sh = layer sh
  layers : ∀ sh, layer (sh.map Node.prompt).prompt = Node.prompt <$> layer sh

/-- A pass that keeps trees prompt keeps numbers zero. -/
theorem PromptPass.zeroed {f : Node → m Node} {layer : Shape Node → m Node}
    (h : PromptPass f layer) (n : Node) : f n.zeroed = Node.zeroed <$> f n := by
  obtain ⟨i, sh⟩ := n
  by_cases constant : ∃ k, sh = .const (.int k)
  · obtain ⟨k, rfl⟩ := constant
    have same : Node.zeroed ⟨i, .const (.int k)⟩ = ⟨i, .const (.int 0)⟩ := rfl
    rw [same, h.eq, h.eq ⟨i, .const (.int k)⟩]
    simp [Node.shape, Shape.mapM, h.constant k]
  · have same : Node.zeroed ⟨i, sh⟩ = ⟨i, sh⟩ := by
      unfold Node.zeroed
      split
      · rename_i k shape
        exact absurd ⟨k, shape⟩ constant
      · rfl
    rw [same, h.eq, map_bind]
    dsimp only [Node.shape]
    cases sh with
    | const value =>
      simp only [Shape.mapM, pure_bind]
      exact (h.others _ fun k same ↦ constant ⟨k, same⟩).symm
    | _ => simp [Shape.mapM, h.others]

/-- A pass makes a prompt tree of a prompt tree. -/
theorem PromptPass.prompt {f : Node → m Node} {layer : Shape Node → m Node}
    (h : PromptPass f layer) (n : Node) : f n.prompt = Node.prompt <$> f n := by
  induction n using Node.induction with
  | step n ih =>
    obtain ⟨i, sh⟩ := n
    rw [h.eq, h.eq ⟨i, sh⟩, Node.prompt_mk]
    dsimp only [Node.shape]
    have below : ∀ c ∈ sh.children, f c.prompt = Node.prompt <$> f c := ih
    rw [Shape.mapM_map_prompt h.zeroed below, map_eq_pure_bind, bind_assoc, map_bind]
    simp only [pure_bind, h.layers]

end Layers

/-! ### Questions that constants make no difference to -/

/-- Only the number of polls in a call changes. -/
theorem Shape.children_prompt (sh : Shape Node) :
    sh.prompt.children = sh.children ∨ ∃ callee args, sh = .call callee args ∧
      sh.prompt.children = args.modify 1 Node.zeroed := by
  cases sh with
  | call callee args =>
    by_cases steps : takesSteps callee
    · exact .inr ⟨callee, args, rfl, by simp [prompt, steps, children]⟩
    · exact .inl (by simp [prompt, steps])
  | _ => exact .inl rfl

theorem Node.containsAwait_zeroed (n : Node) : n.zeroed.containsAwait = n.containsAwait := by
  obtain ⟨i, sh⟩ := n
  unfold zeroed
  split
  · rename_i k shape
    obtain rfl : sh = _ := shape
    simp [containsAwait_eq, kind, Node.shape, Shape.kind, children, Shape.children]
  · rfl

theorem List.any_modify {α : Type} {p : α → Bool} {g : α → α} (h : ∀ a, p (g a) = p a) (k : Nat)
    (as : List α) : (as.modify k g).any p = as.any p := by
  induction as generalizing k with
  | nil => simp
  | cons a as ih => cases k <;> simp [h, ih]

/-- A prompt tree suspends where the tree does. -/
theorem Node.containsAwait_prompt (n : Node) : n.prompt.containsAwait = n.containsAwait := by
  induction n using Node.induction with
  | step n ih =>
    rw [containsAwait_eq, kind_prompt, containsAwait_eq n]
    congr 1
    have below : (n.shape.map prompt).children.any containsAwait =
        n.children.any containsAwait := by
      rw [Shape.children_map, List.any_map]
      refine Bool.eq_iff_iff.2 ?_
      rw [List.any_eq_true, List.any_eq_true]
      exact exists_congr fun c ↦ and_congr_right fun child ↦ by
        rw [Function.comp_apply, ih c child]
    rw [prompt_eq, children, Node.shape]
    rcases Shape.children_prompt (n.shape.map prompt) with same | ⟨callee, args, shape, same⟩
    · rw [same, below]
    · rw [same, List.any_modify containsAwait_zeroed, ← below, shape]
      rfl

/-- A prompt tree needs spilling where the tree does. -/
theorem Node.needsSpill_prompt (n : Node) : n.prompt.needsSpill = n.needsSpill := by
  obtain ⟨i, sh⟩ := n
  rw [prompt_mk]
  cases sh <;> rfl

theorem Node.needsSpill_zeroed (n : Node) : n.zeroed.needsSpill = n.needsSpill := by
  obtain ⟨i, sh⟩ := n
  unfold zeroed
  split
  · rename_i k shape
    obtain rfl : sh = _ := shape
    rfl
  · rfl

/-- What is no constant is not made zero. -/
theorem Node.zeroed_of_kind {n : Node} (h : n.kind ≠ .const) : n.zeroed = n := by
  obtain ⟨i, sh⟩ := n
  cases sh <;> first | rfl | exact absurd rfl h

/-! ### Spilling -/

section Spilling

open Spill

/-- A layer is built of prompt children like of the children. -/
theorem node_prompt (sh : Shape Node) :
    node (sh.map Node.prompt).prompt = Node.prompt <$> node sh := by
  funext s
  show _ = (Node.prompt ⟨s.node, sh⟩, _)
  rw [Node.prompt_mk]
  rfl

theorem node_zeroed {sh : Shape Node} (h : ∀ k, sh ≠ .const (.int k)) :
    Node.zeroed <$> node sh = node sh := by
  funext s
  show (Node.zeroed ⟨s.node, sh⟩, _) = _
  cases sh with
  | const value =>
    cases value with
    | int k => exact absurd rfl (h k)
    | _ => rfl
  | _ => rfl

theorem any_containsAwait_prompt (os : List Node) :
    (os.map Node.prompt).any Node.containsAwait = os.any Node.containsAwait := by
  simp [List.any_map, Function.comp_def, Node.containsAwait_prompt]

/-- Prompt operands are stored like the operands. -/
theorem spillOperands_map_prompt (os : List Node) :
    spillOperands (os.map Node.prompt) = (fun r : Spilled ↦ { r with
      stores := r.stores.map Node.prompt, operands := r.operands.map Node.prompt }) <$>
        spillOperands os := by
  induction os with
  | nil => rfl
  | cons o os ih =>
    -- Whether an operand is spilled is the same for both.
    have store (temp : Variable) : node (.assign temp o.prompt) =
        Node.prompt <$> node (.assign temp o) := node_prompt (.assign temp o)
    rw [List.map_cons, spillOperands, spillOperands, any_containsAwait_prompt,
      Node.needsSpill_prompt]
    split
    · simp only [store, ih]
      rfl
    · simp only [ih]
      rfl

/-- An operand that is made zero is stored like the operand. -/
theorem spillOperands_zeroed (k : Nat) (os : List Node) :
    spillOperands (os.modify k Node.zeroed) = (fun r : Spilled ↦ { r with
      operands := r.operands.modify k Node.zeroed }) <$> spillOperands os := by
  induction os generalizing k with
  | nil => cases k <;> rfl
  | cons o os ih =>
    cases k with
    | zero =>
      rw [List.modify_zero_cons, spillOperands, spillOperands, Node.needsSpill_zeroed]
      split
      · rename_i spills
        -- A constant is never spilled, so the operand is none.
        have other : o.zeroed = o := by
          refine Node.zeroed_of_kind fun kind ↦ ?_
          obtain ⟨i, sh⟩ := o
          cases sh with
          | const value =>
            have never : Node.needsSpill ⟨i, .const value⟩ = false := rfl
            rw [never, Bool.and_false] at spills
            cases spills
          | _ => cases kind
        rw [other]
        rfl
      · rfl
    | succ k =>
      rw [List.modify_succ_cons, spillOperands, spillOperands,
        List.any_modify Node.containsAwait_zeroed]
      split
      · simp only [ih]
        rfl
      · simp only [ih]
        rfl

theorem Build.map_run {α β : Type} (f : α → β) (x : Build α) (s : Supply) :
    (f <$> x) s = (f (x s).1, (x s).2) := rfl

/-- Spilling makes a prompt tree of a prompt tree. -/
theorem spill_promptPass : PromptPass Node.spill spillLayer where
  eq := Node.spill_eq
  constant k := rfl
  others sh h := by
    cases sh with
    | binary op l r =>
      rw [spillLayer]
      split <;> rfl
    | call callee args =>
      simp only [spillLayer, map_bind]
      refine bind_congr fun spilled ↦ ?_
      cases spilled.declared.isEmpty <;> rfl
    | _ => exact node_zeroed h
  layers sh := by
    cases sh with
    | binary op l r =>
      simp only [Shape.map, Shape.prompt, spillLayer, Node.containsAwait_prompt,
        Node.needsSpill_prompt]
      split
      · funext s
        simp [Build.map_run, Build.bind_run, node, newVariable, newSymbolId,
          Node.prompt_mk, Shape.map, Shape.prompt]
      · exact node_prompt (.binary op l r)
    | call callee args =>
      have operands : spillOperands (if takesSteps callee then
          (args.map Node.prompt).modify 1 Node.zeroed else args.map Node.prompt) =
          (fun r : Spilled ↦ { r with
            stores := r.stores.map Node.prompt
            operands := if takesSteps callee then (r.operands.map Node.prompt).modify 1 Node.zeroed
              else r.operands.map Node.prompt }) <$> spillOperands args := by
        split
        · rw [spillOperands_zeroed, spillOperands_map_prompt, Functor.map_map]
        · exact spillOperands_map_prompt args
      simp only [Shape.map, Shape.prompt, spillLayer, operands, bind_map_left, map_bind]
      refine bind_congr fun spilled ↦ ?_
      have call := node_prompt (.call callee spilled.operands)
      simp only [Shape.map, Shape.prompt] at call
      simp only [call, bind_map_left]
      refine bind_congr fun value ↦ ?_
      cases spilled.declared.isEmpty
      · have block := node_prompt (.block spilled.declared (spilled.stores ++ [value]))
        simp only [Shape.map, Shape.prompt, List.map_append, List.map_singleton] at block
        simpa using block
      · rfl
    | _ => exact node_prompt _

end Spilling

end Suspension
