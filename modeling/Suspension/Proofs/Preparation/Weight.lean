import Suspension.Proofs.Preparation.Reduction
import Suspension.Proofs.Preparation.Spilling

/-!
# What preparation neither loses nor copies

A weight gives a number to each form of a layer, and a tree weighs what its nodes weigh together.
How many suspend points there are, how often an operation is called, how often a label is defined:
all of these are weights.

The passes before the expansion put parts of a body into other places, with plumbing around them:
blocks, regions, jumps, tests, and moves of variables. So every weight that counts no plumbing is
kept (`Node.spill_weight`, `Node.reduce_weight`). Labels are plumbing of one kind only: a moved
finally body adds one for the end of its region.
-/

namespace Suspension

open Handlers Build Spill Steps

/-- A layer without its children. -/
def Shape.form {α : Type} (sh : Shape α) : Shape Unit :=
  sh.map fun _ ↦ ()

/-- The form of a layer does not depend on its children. -/
@[simp] theorem Shape.form_map {α β : Type} (f : α → β) (sh : Shape α) :
    (sh.map f).form = sh.form :=
  sh.map_map f _

theorem Shape.kind_form {α : Type} (sh : Shape α) : sh.form.kind = sh.kind :=
  sh.kind_map _

/-- The forms that the passes put around the parts of a body, but for labels. -/
def Kind.isPlumbing : Kind → Bool
  | .block | .region | .goto | .switch | .branch | .ret | .raise | .assign | .var | .const
  | .defaultOf => true
  | _ => false

section Totals

variable {α β : Type} {f g : α → Nat}

/-- What the members of a list weigh together. -/
def total (f : α → Nat) : List α → Nat
  | [] => 0
  | a :: as => f a + total f as

@[simp] theorem total_nil : total f [] = 0 := rfl

@[simp] theorem total_cons (a : α) (as : List α) : total f (a :: as) = f a + total f as := rfl

/-- The total of two lists is the sum of their totals. -/
@[simp] theorem total_append (as bs : List α) :
    total f (as ++ bs) = total f as + total f bs := by
  induction as with
  | nil => rw [List.nil_append, total_nil, Nat.zero_add]
  | cons a as ih => rw [List.cons_append, total_cons, total_cons, ih, Nat.add_assoc]

theorem total_map (h : β → α) (bs : List β) : total f (bs.map h) = total (f ∘ h) bs := by
  induction bs with
  | nil => rfl
  | cons b bs ih => rw [List.map_cons, total_cons, total_cons, ih, Function.comp_apply]

/-- Totals of equal weights are equal. -/
theorem total_congr {as : List α} (h : ∀ a ∈ as, f a = g a) : total f as = total g as := by
  induction as with
  | nil => rfl
  | cons a as ih =>
    rw [total_cons, total_cons, h a List.mem_cons_self,
      ih fun b member ↦ h b (List.mem_cons_of_mem a member)]

theorem total_eq_zero {as : List α} (h : ∀ a ∈ as, f a = 0) : total f as = 0 := by
  induction as with
  | nil => rfl
  | cons a as ih =>
    rw [total_cons, h a List.mem_cons_self, ih fun b member ↦ h b (List.mem_cons_of_mem a member)]

end Totals

/-- What the nodes of a tree weigh together. -/
def Node.weight (w : Shape Unit → Nat) (n : Node) : Nat :=
  total (fun m ↦ w m.shape.form) n.walk

/-- A weight that counts no plumbing. -/
def Plain (w : Shape Unit → Nat) : Prop :=
  ∀ sh, sh.kind.isPlumbing = true → w sh = 0

section Weights

variable {w : Shape Unit → Nat}

/-- A tree weighs what its layer and its children weigh. -/
theorem Node.weight_mk (i : NodeId) (sh : Shape Node) :
    weight w ⟨i, sh⟩ = w sh.form + total (Node.weight w) sh.children := by
  have below (ns : List Node) : total (fun m ↦ w m.shape.form) (ns.flatMap walk) =
      total (Node.weight w) ns := by
    induction ns with
    | nil => rfl
    | cons n ns ih =>
      rw [List.flatMap_cons, total_append, ih]
      rfl
  rw [weight, walk_mk, total_cons, below]
  rfl

/-- Plumbing weighs what it holds. -/
theorem Plain.weight_mk (plain : Plain w) (i : NodeId) (sh : Shape Node) :
    Node.weight w ⟨i, sh⟩ =
      (if sh.kind.isPlumbing then 0 else w sh.form) + total (Node.weight w) sh.children := by
  rw [Node.weight_mk]
  split
  · rename_i plumbing
    rw [plain sh.form (sh.kind_form ▸ plumbing)]
  · rfl

/-- Editing does not change a plain weight. -/
theorem Edits.weight {given places : List SymbolId} {n n' : Node} (plain : Plain w)
    (h : Edits given places n n') : n'.weight w = n.weight w := by
  induction h with
  | layer x below ih =>
    rw [Node.weight_mk, Node.weight_mk, Shape.form_map, Shape.form_map, Shape.children_map,
      Shape.children_map, total_map, total_map]
    exact congrArg _ (total_congr ih)
  | ret value known known' known'' ih =>
    simp [plain.weight_mk, Shape.kind, Kind.isPlumbing, Shape.children, ih]
  | _ => simp [plain.weight_mk, Shape.kind, Kind.isPlumbing, Shape.children]

/-! ### How many nodes have a form -/

/-- The weight that counts the nodes of a form. -/
def Kind.weight (k : Kind) (sh : Shape Unit) : Nat :=
  if sh.kind = k then 1 else 0

theorem Kind.weight_form {α : Type} (k : Kind) (sh : Shape α) :
    k.weight sh.form = if sh.kind = k then 1 else 0 := by
  rw [weight, Shape.kind_form]

/-- Counting nodes of a form is plain if the form is no plumbing. -/
theorem Kind.plain_weight {k : Kind} (other : k.isPlumbing = false) : Plain k.weight := by
  intro sh plumbing
  refine if_neg fun same ↦ ?_
  rw [same, other] at plumbing
  cases plumbing

/-- The nodes of a form are counted by a weight. -/
theorem Node.countKind_eq_weight (k : Kind) (n : Node) : n.countKind k = n.weight k.weight := by
  have each (ns : List Node) : ns.countP (fun m ↦ m.kind == k) =
      total (fun m ↦ k.weight m.shape.form) ns := by
    induction ns with
    | nil => rfl
    | cons n ns ih =>
      rw [List.countP_cons, ih, total_cons, Kind.weight_form, Nat.add_comm, Node.kind]
      simp only [beq_iff_eq]
  exact each n.walk

/-! ### Spilling -/

/-- Nodes with operands of one kind have one form. -/
theorem Steps.SameOperands.form {sh sh' : Shape Node} {os os' : List Node}
    (h : SameOperands sh sh' os os') : sh'.form = sh.form := by
  cases h with
  | binary => rfl
  | call callee args args' length => simp [Shape.form, Shape.map, List.map_const', length]

/-- Storing operands does not change a plain weight. -/
theorem Stores.weights_eq {os os' stores : List Node} {ds : List Variable} (plain : Plain w)
    (h : Stores os ds stores os') :
    total (Node.weight w) stores + total (Node.weight w) os' = total (Node.weight w) os := by
  induction h with
  | nil => rfl
  | stored i j temp awaits needs rest ih =>
    simp [plain.weight_mk, Shape.kind, Kind.isPlumbing, Shape.children, ← ih]
    omega
  | left stays rest ih =>
    rw [total_cons, total_cons, ← ih]
    omega

/-- Spilling a layer weighs nothing. -/
theorem SpillsLayer.weight {sh : Shape Node} {s s' : Supply} {n' : Node} (plain : Plain w)
    (h : SpillsLayer sh s n' s') (i : NodeId) : n'.weight w = Node.weight w ⟨i, sh⟩ := by
  cases h with
  | same j none symbol => rw [Node.weight_mk, Node.weight_mk]
  | @operands sh' os os' stores ds j _ _ same stored symbol_le names wrapped =>
    have value : Node.weight w ⟨j, sh'⟩ + total (Node.weight w) stores = Node.weight w ⟨i, sh⟩ := by
      have stored := stored.weights_eq plain
      rw [Node.weight_mk, Node.weight_mk, same.form, same.own.1, same.flip.own.1]
      omega
    cases wrapped with
    | bare none =>
      subst none
      rw [← value, stored.eq_of_nil.1, total_nil, Nat.add_zero]
    | block k some =>
      rw [plain.weight_mk, Shape.children, total_append, total_cons, total_nil, ← value]
      simp only [Shape.kind, Kind.isPlumbing, if_true]
      omega

/-- Spilling weighs nothing. -/
theorem Node.spill_weight {n n' : Node} {s s' : Supply} (plain : Plain w)
    (h : runs n.spill s n' s') : n'.weight w = n.weight w := by
  induction n using Node.induction generalizing s n' s' with
  | step n ih =>
    rw [spill_eq, runs_bind] at h
    obtain ⟨sh, s₁, children, step⟩ := h
    obtain ⟨x, source, rfl, threads⟩ := Runs.shape (f := spill)
      (Q := fun n _ n' _ (_ : Unit) ↦ n'.weight w = n.weight w)
      (fun a child _ _ _ run ↦ ⟨(), ih a child run⟩) children
    obtain ⟨i, shape⟩ := n
    obtain rfl : x.map Prod.fst = shape := source
    have rebuilt : total (Node.weight w) (x.children.map (·.2.1)) =
        total (Node.weight w) (x.children.map Prod.fst) := by
      rw [total_map, total_map]
      exact total_congr fun y member ↦ (threads.of_mem member).choose_spec.choose_spec
    rw [(runs_spillLayer step).weight plain i, weight_mk, weight_mk, Shape.form_map,
      Shape.form_map, Shape.children_map, Shape.children_map, rebuilt]

/-! ### Moving handlers -/

section Pieces

variable {n : Node} (plain : Plain w)

include plain

theorem IsMark.weight {v : Variable} {value : Literal} (h : IsMark v value n) :
    n.weight w = 0 := by
  cases h
  simp [plain.weight_mk, Shape.kind, Kind.isPlumbing, Shape.children]

theorem IsCopy.weight {target source : Variable} (h : IsCopy target source n) :
    n.weight w = 0 := by
  cases h
  simp [plain.weight_mk, Shape.kind, Kind.isPlumbing, Shape.children]

theorem IsRaise.weight {v : Variable} (h : IsRaise v n) : n.weight w = 0 := by
  cases h
  simp [plain.weight_mk, Shape.kind, Kind.isPlumbing, Shape.children]

/-- A clause that catches everything weighs nothing. -/
theorem IsCatchAll.weights {cap : Captured} {e : Variable} {c : Clause Node}
    (h : IsCatchAll cap e c) : total (Node.weight w) c.children = 0 := by
  cases h with
  | mk i copies marks =>
    simp [plain.weight_mk, Shape.kind, Kind.isPlumbing, Shape.children, Clause.children,
      copies.weight plain, marks.weight plain]

/-- A protected body weighs what its value weighs, and the label for its end. -/
theorem IsInside.weight {value : Node} {leave : Label} {left : List Leaving}
    (h : IsInside value leave left n) : n.weight w =
      value.weight w + total (fun l ↦ w (.label l)) (leaveOf leave left) := by
  cases h with
  | plain => rfl
  | labelled i j some =>
    rw [leaveOf, if_neg fun none ↦ some (List.isEmpty_iff.1 none)]
    simp [plain.weight_mk, Shape.kind, Kind.isPlumbing, Shape.children, Shape.form, Shape.map]

/-- The cases for noted exits weigh nothing. -/
theorem ResumesExits.weights {exits : Exits} {k : Nat} {ls : List Leaving}
    {cases : List (Case Node)} (h : ResumesExits exits k ls cases) :
    total (Node.weight w) (cases.map Case.body) = 0 := by
  induction h with
  | nil => rfl
  | cons head tail ih =>
    rw [List.map_cons, total_cons, ih]
    cases head <;> simp [plain.weight_mk, Shape.kind, Kind.isPlumbing, Shape.children]

/-- The dispatch of noted exits weighs nothing. -/
theorem DispatchesExits.weights {exits : Exits} {left : List Leaving} {dispatch : List Node}
    (h : DispatchesExits exits left dispatch) : total (Node.weight w) dispatch = 0 := by
  cases h with
  | none => rfl
  | switch i j some resumes =>
    simp [plain.weight_mk, Shape.kind, Kind.isPlumbing, Shape.children, resumes.weights plain]

/-- A clause that is moved leaves its filter in place and takes its body along. -/
theorem MovesClauses.weights {cap : Captured} {which : Variable} {k : Nat}
    {cs : List (Clause Node)} {m : Moved} {new : List Variable}
    (h : MovesClauses cap which k cs m new) :
    total (Node.weight w) (m.clauses.flatMap Clause.children) +
      total (Node.weight w) (m.cases.map Case.body) =
      total (Node.weight w) (cs.flatMap Clause.children) := by
  induction h with
  | nil => rfl
  | cons holds head tail ih =>
    cases head with
    | mk i i' j copies marks edits restores =>
      simp only [List.flatMap_cons, List.map_cons, total_append, total_cons, ← ih]
      simp [plain.weight_mk, Shape.kind, Kind.isPlumbing, Shape.children, Clause.children,
        copies.weight plain, marks.weight plain, restores.weight plain, edits.weight plain]
      omega

end Pieces

/-! ### Regions -/

section Regions

variable {body n : Node} {cs : List (Clause Node)} {cleanup fault : Option Node} {s s' : Supply}

/-- A tree weighs what is said, and the labels that were added: fresh ones, for the ends of
protected bodies. -/
structure Weighs (whole : (Shape Unit → Nat) → Nat) (s : Supply) (n : Node) (s' : Supply)
    (leaves : List Label) : Prop where
  symbol_le : s.symbol ≤ s'.symbol
  fresh : (leaves.map Label.id).Sublist (s.fresh s')
  named : ∀ l ∈ leaves, l.name = "__leave"
  weight : ∀ {w}, Plain w → n.weight w = whole w + total (fun l ↦ w (.label l)) leaves

/-- Nothing is added to what is there. -/
theorem Weighs.of_eq {whole : (Shape Unit → Nat) → Nat} (le : s.symbol ≤ s'.symbol)
    (h : ∀ {w}, Plain w → n.weight w = whole w) : Weighs whole s n s' [] :=
  ⟨le, List.nil_sublist _, nofun, h⟩

/-- What a layer weighs is weighed in two steps. -/
theorem Weighs.trans {whole more : (Shape Unit → Nat) → Nat} {s₁ : Supply} {b : Node}
    {leaves leaves' : List Label} (h : Weighs whole s b s₁ leaves)
    (h' : Weighs (fun w ↦ b.weight w + more w) s₁ n s' leaves') :
    Weighs (fun w ↦ whole w + more w) s n s' (leaves ++ leaves') where
  symbol_le := Nat.le_trans h.symbol_le h'.symbol_le
  fresh := by
    rw [List.map_append, ← Supply.fresh_append h.symbol_le h'.symbol_le]
    exact h.fresh.append h'.fresh
  named := List.forall_mem_append.2 ⟨h.named, h'.named⟩
  weight plain := by
    rw [h'.weight plain, h.weight plain, total_append]
    omega

/-- A region with clauses weighs the same after reduction. -/
theorem MovesCaught.weighs {ids : List SymbolId} (h : MovesCaught body cs n ids)
    (hands : s.Hands ids s') :
    Weighs (fun w ↦ body.weight w + total (Node.weight w) (cs.flatMap Clause.children))
      s n s' [] := by
  refine .of_eq hands.1 fun plain ↦ ?_
  cases h with
  | mk i i₁ i₂ i₃ i₄ i₅ clauses starts =>
    rw [← clauses.weights plain]
    simp [plain.weight_mk, Shape.kind, Kind.isPlumbing, Shape.children, starts.weight plain]
    omega

/-- A region with a fault body weighs the same after reduction. -/
theorem MovesFault.weighs {fault : Node} {ids : List SymbolId} (h : MovesFault body fault n ids)
    (hands : s.Hands ids s') :
    Weighs (fun w ↦ body.weight w + total (Node.weight w) [fault]) s n s' [] := by
  refine .of_eq hands.1 fun plain ↦ ?_
  cases h with
  | mk i i₁ i₂ i₃ i₄ i₅ i₆ starts catches raises =>
    simp [plain.weight_mk, Shape.kind, Kind.isPlumbing, Shape.children, starts.weight plain,
      catches.weights plain, raises.weight plain]

/-- A region with a finally body weighs the same after reduction, but for the label for the end of
its body. -/
theorem MovesCleanup.weighs {cleanup : Node} {ids : List SymbolId}
    (h : MovesCleanup body cleanup n ids) (hands : s.Hands ids s') :
    ∃ leaves, Weighs (fun w ↦ body.weight w + total (Node.weight w) [cleanup]) s n s' leaves := by
  cases h with
  | @mk i i₁ i₂ i₃ i₄ i₅ cap exits e start clear copied inside raises dispatch left clause named
      starts clears edits noted isInside catches again dispatches =>
    refine ⟨leaveOf exits.leave left, hands.1, ?_, ?_, fun plain ↦ ?_⟩
    · rw [← hands.2]
      rw [leaveOf]
      split <;> simp
    · rw [leaveOf]
      split
      · exact List.forall_mem_nil _
      · exact List.forall_mem_singleton.2 named
    · simp [plain.weight_mk, Shape.kind, Kind.isPlumbing, Shape.children, starts.weight plain,
        clears.weight plain, isInside.weight plain, edits.weight plain, catches.weights plain,
        again.weight plain, dispatches.weights plain]
      omega

/-- A region as it is. -/
theorem Weighs.region (h : runs (node (.region body cs cleanup fault)) s n s') :
    Weighs (fun w ↦ body.weight w + total (Node.weight w) (cs.flatMap Clause.children) +
      total (Node.weight w) cleanup.toList + total (Node.weight w) fault.toList) s n s' [] := by
  obtain ⟨rfl, rfl⟩ := runs_build h
  refine .of_eq (Nat.le_refl _) fun plain ↦ ?_
  simp [plain.weight_mk, Shape.kind, Kind.isPlumbing, Shape.children]
  omega

theorem withClauses_weighs (h : runs (withClauses cs body) s n s') :
    Weighs (fun w ↦ body.weight w + total (Node.weight w) (cs.flatMap Clause.children))
      s n s' [] := by
  rw [withClauses] at h
  split at h
  · rename_i none
    obtain ⟨rfl, rfl⟩ := runs_pure.1 h
    rw [List.isEmpty_iff.1 none]
    exact .of_eq (Nat.le_refl _) fun _ ↦ rfl
  · split at h
    · obtain ⟨ids, moves, hands⟩ := runs_reduceClauses h
      exact moves.weighs hands
    · exact .region h

theorem withCleanup_weighs (h : runs (withCleanup cleanup body) s n s') :
    ∃ leaves,
      Weighs (fun w ↦ body.weight w + total (Node.weight w) cleanup.toList) s n s' leaves := by
  cases cleanup with
  | none =>
    obtain ⟨rfl, rfl⟩ := runs_pure.1 h
    exact ⟨[], .of_eq (Nat.le_refl _) fun _ ↦ rfl⟩
  | some part =>
    rw [withCleanup] at h
    split at h
    · obtain ⟨ids, moves, hands⟩ := runs_reduceCleanup h
      exact moves.weighs hands
    · exact ⟨[], .region h⟩

theorem withFault_weighs (h : runs (withFault fault body) s n s') :
    Weighs (fun w ↦ body.weight w + total (Node.weight w) fault.toList) s n s' [] := by
  cases fault with
  | none =>
    obtain ⟨rfl, rfl⟩ := runs_pure.1 h
    exact .of_eq (Nat.le_refl _) fun _ ↦ rfl
  | some part =>
    rw [withFault] at h
    split at h
    · obtain ⟨ids, moves, hands⟩ := runs_reduceFault h
      exact moves.weighs hands
    · exact .region h

/-- A region that is taken apart weighs what it weighed. -/
theorem reduceRegion_weighs (h : runs (reduceRegion body cs cleanup fault) s n s') :
    ∃ leaves, Weighs (fun w ↦ body.weight w + total (Node.weight w) (cs.flatMap Clause.children) +
      total (Node.weight w) cleanup.toList + total (Node.weight w) fault.toList) s n s' leaves := by
  rw [reduceRegion_eq] at h
  split at h
  · exact ⟨[], .region h⟩
  · simp only [runs_bind] at h
    obtain ⟨b₁, s₁, first, b₂, s₂, second, third⟩ := h
    obtain ⟨leaves, second⟩ := withCleanup_weighs second
    exact ⟨_, ((withClauses_weighs first).trans second).trans (withFault_weighs third)⟩

end Regions

/-! ### Trees -/

/-- Rows of trees, and the labels that were added to each. -/
theorem Weighs.row {xs : List (Node × Node × List Label)} {s s' : Supply}
    (h : Threads (fun n s n' s' leaves ↦ Weighs n.weight s n' s' leaves) xs s s') :
    s.symbol ≤ s'.symbol ∧ ((xs.flatMap (·.2.2)).map Label.id).Sublist (s.fresh s') ∧
      (∀ l ∈ xs.flatMap (·.2.2), l.name = "__leave") ∧
      ∀ {w}, Plain w → total (Node.weight w) (xs.map (·.2.1)) =
        total (Node.weight w) (xs.map Prod.fst) +
          total (fun l ↦ w (.label l)) (xs.flatMap (·.2.2)) := by
  induction h with
  | nil s => exact ⟨Nat.le_refl _, List.nil_sublist _, nofun, fun _ ↦ rfl⟩
  | cons head tail ih =>
    obtain ⟨le, fresh, named, weight⟩ := ih
    refine ⟨Nat.le_trans head.symbol_le le, ?_, ?_, fun plain ↦ ?_⟩
    · rw [List.flatMap_cons, List.map_append, ← Supply.fresh_append head.symbol_le le]
      exact head.fresh.append fresh
    · exact List.forall_mem_append.2 ⟨head.named, named⟩
    · rw [List.map_cons, total_cons, weight plain, head.weight plain]
      simp only [List.map_cons, total_cons, List.flatMap_cons, total_append]
      omega

/-- Moving handlers weighs nothing but the labels that it adds. -/
theorem Node.reduce_weighs {n n' : Node} {s s' : Supply} (h : runs n.reduceHandlers s n' s') :
    ∃ leaves, Weighs n.weight s n' s' leaves := by
  induction n using Node.induction generalizing s n' s' with
  | step n ih =>
    obtain ⟨i, sh⟩ := n
    rw [reduceHandlers_eq, runs_bind] at h
    obtain ⟨sh', s₁, children, step⟩ := h
    obtain ⟨x, rfl, rfl, threads⟩ := Runs.shape (f := reduceHandlers)
      (Q := fun n s n' s' leaves ↦ Weighs n.weight s n' s' leaves)
      (fun a child _ _ _ run ↦ ih a child run) children
    obtain ⟨le, fresh, named, weight⟩ := Weighs.row threads
    have layer : ∃ leaves, Weighs (fun w ↦ Node.weight w ⟨i, x.map (·.2.1)⟩) s₁ n' s' leaves := by
      cases x with
      | region body clauses cleanup fault =>
        obtain ⟨leaves, made⟩ := reduceRegion_weighs step
        refine ⟨leaves, made.symbol_le, made.fresh, made.named,
          fun plain ↦ (made.weight plain).trans ?_⟩
        simp [plain.weight_mk, Shape.kind, Kind.isPlumbing, Shape.children, Shape.map]
        omega
      | _ =>
        obtain ⟨rfl, rfl⟩ := runs_build step
        exact ⟨[], .of_eq (Nat.le_refl _) fun _ ↦ by rw [weight_mk, weight_mk]⟩
    obtain ⟨leaves, made⟩ := layer
    refine ⟨x.children.flatMap (·.2.2) ++ leaves, Nat.le_trans le made.symbol_le, ?_,
      List.forall_mem_append.2 ⟨named, made.named⟩, fun plain ↦ ?_⟩
    · rw [List.map_append, ← Supply.fresh_append le made.symbol_le]
      exact fresh.append made.fresh
    · have children := weight plain
      rw [made.weight plain, weight_mk, weight_mk, Shape.form_map, Shape.form_map,
        Shape.children_map, Shape.children_map, children, total_append]
      omega

end Weights

end Suspension
