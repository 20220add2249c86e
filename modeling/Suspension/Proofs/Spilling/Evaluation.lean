import Suspension.Proofs.Binding.Jumps
import Suspension.Proofs.Spilling.Storing

/-!
# Spilling preserves evaluation

Direct execution of a spilled body does what direct execution of the body does
(`Node.spill_evaluates`), as long as no operand defines a label: a jump into an operand would lead
behind the assignments that store the operands before it.

Spilling keeps the labels of each tree, so that jumps lead to corresponding nodes. It gives every
node a new number; so the label index of a spilled body finds labels where they are, and that of the
body does if a number stands for one node. A node whose operands are stored corresponds to the block
that stores them, and the variables of that block are younger than everything beneath it; so what is
stored stays until it is read.
-/

namespace Suspension

open Steps Spill Build

/-! ### Numbers and labels -/

theorem span_two (k : Nat) : span k (k + 2) = [k, k + 1] := by
  rw [span, Nat.add_sub_cancel_left]
  rfl

theorem runs_spillOperands_ids {os : List Node} {s s' : Supply} {r : Spilled}
    (h : runs (spillOperands os) s r s') : s.node ≤ s'.node ∧
      ((r.stores ++ r.operands).flatMap Node.ids).Perm
        (os.flatMap Node.ids ++ span s.node s'.node) := by
  induction os generalizing s r with
  | nil =>
    rw [spillOperands, runs_pure] at h
    obtain ⟨rfl, rfl⟩ := h
    exact ⟨Nat.le_refl _, by simp⟩
  | cons o os ih =>
    rw [spillOperands] at h
    split at h
    · simp only [runs_bind, runs_pure] at h
      obtain ⟨temp, s₁, new, store, s₂, stores, use, s₃, uses, r', s₄, rest, rfl, rfl⟩ := h
      cases new
      cases stores
      cases uses
      obtain ⟨le, perm⟩ : s.node + 2 ≤ s'.node ∧ ((r'.stores ++ r'.operands).flatMap
        Node.ids).Perm (os.flatMap Node.ids ++ span (s.node + 2) s'.node) := ih rest
      have two : s.node ≤ s.node + 2 := Nat.le_add_right s.node 2
      refine ⟨Nat.le_trans two le, List.perm_iff_count.2 fun j ↦ ?_⟩
      have counts := List.perm_iff_count.1 perm j
      rw [← span_append two le, span_two]
      simp only [List.flatMap_append, List.flatMap_cons, List.count_append, List.cons_append,
        Node.ids_mk, Shape.children, List.flatMap_nil, List.append_nil, List.count_cons,
        List.count_nil] at counts ⊢
      omega
    · simp only [runs_bind, runs_pure] at h
      obtain ⟨r', s₁, rest, rfl, rfl⟩ := h
      obtain ⟨le, perm⟩ := ih rest
      refine ⟨le, List.perm_iff_count.2 fun j ↦ ?_⟩
      have counts := List.perm_iff_count.1 perm j
      simp only [List.flatMap_append, List.flatMap_cons, List.count_append] at counts ⊢
      omega

theorem runs_spillLayer_ids {sh : Shape Node} {s s' : Supply} {n' : Node}
    (h : runs (spillLayer sh) s n' s') : s.node ≤ s'.node ∧
      n'.ids.Perm (sh.children.flatMap Node.ids ++ span s.node s'.node) := by
  have built {sh : Shape Node} {s s' : Supply} {n' : Node} (h : runs (node sh) s n' s') :
      s.node ≤ s'.node ∧ n'.ids.Perm (sh.children.flatMap Node.ids ++ span s.node s'.node) := by
    cases h
    refine ⟨Nat.le_succ _, ?_⟩
    rw [span_succ, Node.ids_mk]
    exact (List.perm_append_singleton _ _).symm
  cases sh with
  | binary op l r =>
    rw [spillLayer] at h
    split at h
    · cases h
      refine ⟨Nat.le_add_right s.node 4, List.perm_iff_count.2 fun j ↦ ?_⟩
      have four : span s.node (s.node + 4) =
          [s.node, s.node + 1, s.node + 1 + 1, s.node + 1 + 1 + 1] := by
        rw [span, Nat.add_sub_cancel_left]
        rfl
      change _ = List.count j (_ ++ span s.node (s.node + 4))
      simp only [four, Node.ids_mk, Shape.children, List.flatMap_cons, List.flatMap_nil,
        List.append_nil, List.count_append, List.count_cons, List.count_nil, List.cons_append]
      omega
    · exact built h
  | call callee args =>
    simp only [spillLayer, runs_bind] at h
    obtain ⟨r, s₁, stores, value, s₂, made, h⟩ := h
    obtain ⟨le, perm⟩ := runs_spillOperands_ids stores
    cases made
    split at h
    · rename_i empty
      cases h
      have none : r.stores = [] ∧ r.operands = args := by
        have stored := (runs_spillOperands stores).1
        rw [List.isEmpty_iff.1 empty] at stored
        exact stored.eq_of_nil
      refine ⟨Nat.le_trans le (Nat.le_succ _), List.perm_iff_count.2 fun j ↦ ?_⟩
      have counts := List.perm_iff_count.1 perm j
      rw [← span_append le (Nat.le_succ _), span_succ]
      simp only [none, Node.ids_mk, Shape.children, List.count_append, List.count_cons,
        List.count_nil, List.nil_append] at counts ⊢
      omega
    · cases h
      have two : s₁.node ≤ s₁.node + 2 := Nat.le_add_right s₁.node 2
      refine ⟨Nat.le_trans le two, List.perm_iff_count.2 fun j ↦ ?_⟩
      have counts := List.perm_iff_count.1 perm j
      change _ = List.count j (_ ++ span s.node (s₁.node + 2))
      rw [← span_append le two, span_two]
      simp only [Node.ids_mk, Shape.children, List.flatMap_append, List.flatMap_cons,
        List.flatMap_nil, List.append_nil, List.count_append, List.count_cons,
        List.count_nil] at counts ⊢
      omega
  | _ => exact built h

/-- Every node of a spilled tree has a number of its own, out of those that spilling took. -/
theorem Node.spill_ids {n n' : Node} {s s' : Supply} (h : runs n.spill s n' s') :
    s.node ≤ s'.node ∧ n'.ids.Perm (span s.node s'.node) := by
  induction n using Node.induction generalizing s n' s' with
  | step n ih =>
    rw [spill_eq, runs_bind] at h
    obtain ⟨sh, s₁, children, step⟩ := h
    obtain ⟨x, -, rfl, threads⟩ := Runs.shape (f := spill)
      (Q := fun n s n' s' (_ : Unit) ↦ s.node ≤ s'.node ∧ n'.ids.Perm (span s.node s'.node))
      (fun a child _ _ _ run ↦ ⟨(), ih a child run⟩) children
    have row : s.node ≤ s₁.node ∧
        ((x.children.map (·.2.1)).flatMap ids).Perm (span s.node s₁.node) := by
      generalize x.children = xs at threads
      clear children step
      induction threads with
      | nil => exact ⟨Nat.le_refl _, by simp⟩
      | cons head tail more =>
        refine ⟨Nat.le_trans head.1 more.1, ?_⟩
        rw [← span_append head.1 more.1, List.map_cons, List.flatMap_cons]
        exact head.2.append more.2
    obtain ⟨le, perm⟩ := runs_spillLayer_ids step
    refine ⟨Nat.le_trans row.1 le, perm.trans ?_⟩
    rw [← span_append row.1 le, Shape.children_map]
    exact row.2.append_right _

theorem Node.spill_ids_nodup {n n' : Node} {s s' : Supply} (h : runs n.spill s n' s') :
    n'.ids.Nodup :=
  (spill_ids h).2.nodup_iff.2 List.nodup_range'

/-- Spilling keeps the labels of a tree. -/
theorem Node.spill_labelsWithin {n n' : Node} {s s' : Supply} (h : runs n.spill s n' s')
    (id : SymbolId) : n'.labelsWithin.contains id = n.labelsWithin.contains id := by
  have count : n'.labelsWithin.count id = n.labelsWithin.count id := by
    rw [count_labelsWithin, count_labelsWithin, spill_weight (plain_labelWeight id) h]
  rw [Bool.eq_iff_iff, List.contains_iff_mem, List.contains_iff_mem, ← List.count_pos_iff,
    ← List.count_pos_iff, count]

/-! ### Corresponding nodes -/

/-- What is stored or stands in an expression is beneath one of the nodes that spilling makes. -/
theorem Stores.mem_walk {os os' stores : List Node} {ds : List Variable}
    (h : Stores os ds stores os') : ∀ o ∈ os, ∃ m ∈ stores ++ os', o ∈ m.walk := by
  induction h with
  | nil => exact List.forall_mem_nil _
  | @stored o os os' stores ds i j temp awaits needs rest ih =>
    refine List.forall_mem_cons.2 ⟨⟨⟨i, .assign temp o⟩, List.mem_cons_self, ?_⟩, fun p member ↦ ?_⟩
    · exact Node.mem_children_walk (m := ⟨i, .assign temp o⟩) List.mem_cons_self
        (Node.mem_walk_self _)
    · obtain ⟨m, inside, within⟩ := ih p member
      simp only [List.mem_append, List.mem_cons, List.cons_append] at inside ⊢
      exact ⟨m, by tauto, within⟩
  | @left o os os' stores ds stays rest ih =>
    refine List.forall_mem_cons.2 ⟨⟨o, by simp, Node.mem_walk_self o⟩, fun p member ↦ ?_⟩
    obtain ⟨m, inside, within⟩ := ih p member
    simp only [List.mem_append, List.mem_cons] at inside ⊢
    exact ⟨m, by tauto, within⟩

/-- A layer whose operands are replaced once more. -/
theorem Steps.SameOperands.of_map {α : Type} {x : Shape α} {f g : α → Node} {sh' : Shape Node}
    {os os' : List Node} (h : SameOperands (x.map g) sh' os os') :
    SameOperands (x.map f) sh' (x.operands.map f) os' ∧ os = x.operands.map g := by
  cases x with
  | binary => cases h; exact ⟨.binary _ _ _ _ _, rfl⟩
  | call callee args =>
    cases h with
    | call _ _ _ length => exact ⟨.call _ _ _ (by simpa using length), rfl⟩
  | _ => cases h

/-- A node of a tree, and the one that spilling makes of it. Variables that hold known values there
are younger than what is made. -/
structure Node.SpillsTo (root root' : Node) (base : Nat) (held : Held) (n n' : Node) : Prop where
  made : ∃ s s', runs n.spill s n' s' ∧ base ≤ s.symbol ∧ s'.Whole ∧
    ∀ p ∈ held, s'.symbol ≤ p.1.toNat
  within : n ∈ root.walk
  within' : n' ∈ root'.walk

/-- Labels are found where a tree defines them. -/
def Setting.FindsLabels (s : Setting) (root : Node) : Prop :=
  ∀ n ∈ root.walk, ∀ label, s.labels n label = n.labelsWithin.contains label

/-- Direct execution: suspend points wait, what happens is recorded, and a jump leads to where the
tree defines the label. -/
def Setting.direct : Setting where
  labels n label := n.labelsWithin.contains label
  waits := true
  records := true

/-- Direct execution by a label index, which knows nodes by their numbers. It comes to the same
where a number stands for one node (`LabelIndex.build_contains_of_numbered`). -/
def Setting.directBy (t : LabelIndex) : Setting :=
  { Setting.direct with labels := t }

/-- No operand defines a label. -/
def Node.Unlabelled (n : Node) : Prop :=
  ∀ m ∈ n.walk, ∀ o ∈ m.shape.operands, o.labelsWithin = []

namespace Node

/-- A body and its spilled form, to be executed. -/
def spilling (s s' : Setting) (body body' : Node) (base : Nat) : Storing where
  s := s
  s' := s'
  base := base
  Nodes := SpillsTo body body' base

section

variable {body body' : Node} {supply supply' : Supply}
  (older : body.Older supply) (unlabelled : body.Unlabelled) {t t' : Setting}
  (finds : t.FindsLabels body) (finds' : t'.FindsLabels body')

include finds finds'

theorem SpillsTo.labels {held : Held} {n n' : Node}
    (h : SpillsTo body body' supply.symbol held n n') (label : SymbolId) :
    t.labels n label = t'.labels n' label := by
  obtain ⟨s, s', run, -⟩ := h.made
  rw [finds n h.within, finds' n' h.within', spill_labelsWithin run]

include older unlabelled

/-- A node and the one that spilling makes of it look as they have to. -/
theorem SpillsTo.unfolds {held : Held} {n n' : Node}
    (h : SpillsTo body body' supply.symbol held n n') :
    (spilling t t' body body' supply.symbol).Unfolds held n n' := by
  obtain ⟨s, s', run, base, whole, young⟩ := h.made
  have kept (label : SymbolId) := spill_labelsWithin run label
  obtain ⟨within, within'⟩ := And.intro h.within h.within'
  have old : ∀ id ∈ n.shape.ownSymbols, id.toNat < supply.symbol := fun id own ↦
    older id (List.mem_flatMap.2 ⟨n, within, own⟩)
  rw [spill_eq, runs_bind] at run
  obtain ⟨sh, s₁, children, step⟩ := run
  obtain ⟨x, source, rfl, threads⟩ := Runs.shape (f := spill)
    (Q := fun n s n' s' (_ : Unit) ↦ runs n.spill s n' s') (fun a child _ _ _ run ↦ ⟨(), run⟩)
    children
  have spills := runs_spillLayer step
  have row := threads.between (f := Supply.symbol) fun run ↦ (spill_census run).symbol_le
  have le := spills.reshapes.symbol_le
  -- What holds a value here is younger than the children, and so is what the block stores.
  have child {y : Node × Node × Unit} (member : y ∈ x.children) (known : Held)
      (inside : y.2.1 ∈ body'.walk) (younger : ∀ p ∈ known, s₁.symbol ≤ p.1.toNat) :
      SpillsTo body body' supply.symbol (known ++ held) y.1 y.2.1 := by
    obtain ⟨s₂, s₃, made, first, last⟩ := row.2 y member
    refine ⟨⟨s₂, s₃, made, Nat.le_trans base first, Nat.le_trans last (Nat.le_trans le whole),
      List.forall_mem_append.2 ⟨fun p member ↦ ?_, fun p member ↦ ?_⟩⟩, ?_, inside⟩
    · exact Nat.le_trans last (younger p member)
    · exact Nat.le_trans last (Nat.le_trans le (young p member))
    · refine mem_children_walk ?_ within
      rw [Node.children, ← source, Shape.children_map]
      exact List.mem_map_of_mem member
  have layer {i : NodeId} (eq : n' = ⟨i, x.map (·.2.1)⟩) :
      (spilling t t' body body' supply.symbol).Unfolds held n n' := by
    refine .layer ?_ old
    rw [eq, ← source]
    refine .of_map fun y member _ ↦ child member [] ?_ (List.forall_mem_nil _)
    refine mem_children_walk (m := n') ?_ within'
    rw [eq]
    exact mem_children_map member
  cases spills with
  | same i none symbol => exact layer rfl
  | @operands sh' os os' stores ds i _ _ same stored symbol_le names wrapped =>
    cases wrapped with
    | bare none =>
      subst none
      obtain ⟨rfl, rfl⟩ := stored.eq_of_nil
      exact layer (by rw [same.eq])
    | block j some =>
      obtain ⟨same', rfl⟩ := Steps.SameOperands.of_map (f := Prod.fst) same
      rw [source] at same'
      have sources : n.shape.operands = x.operands.map Prod.fst := by
        rw [← source, Shape.operands_map]
      have statement {m : Node} (member : m ∈ stores ++ [⟨i, sh'⟩]) : m ∈ body'.walk :=
        mem_children_walk (m := ⟨j, .block ds (stores ++ [⟨i, sh'⟩])⟩) member within'
      have temporary {id : SymbolId} (inside : id ∈ ds.map Variable.id) :
          s₁.symbol ≤ id.toNat ∧ id.toNat < s'.symbol :=
        Supply.mem_fresh whole (names ▸ inside)
      have operand {o : Node} (member : o ∈ n.shape.operands) : o ∈ body.walk :=
        mem_children_walk (Shape.mem_operands member) within
      have nothing : n.labelsWithin = [] := by
        rw [labelsWithin_eq, same'.ownLabels, same'.children, ← sources]
        exact List.flatMap_eq_nil_iff.2 fun o member ↦ unlabelled n within o member
      refine .block (n := n) same' stored (fun known inside ↦ ?_)
        (names ▸ Supply.fresh_nodup whole) (fun id inside ↦ ?_) (fun o member label ↦ ?_)
        fun m member label ↦ ?_
      · rw [List.forall₂_map_left_iff, List.forall₂_map_right_iff, List.forall₂_same]
        intro y member
        refine child (Shape.mem_operands member) known ?_ fun p known ↦
          (temporary (inside p known)).1
        obtain ⟨m, made, beneath⟩ := stored.mem_walk y.2.1 (List.mem_map_of_mem member)
        refine mem_walk_trans beneath ?_
        rcases List.mem_append.1 made with store | operand
        · exact statement (List.mem_append_left _ store)
        · refine mem_children_walk ?_ (statement (List.mem_append_right _ List.mem_cons_self))
          rw [Node.children, Node.shape, same.own.1]
          exact operand
      · obtain ⟨large, small⟩ := temporary inside
        refine ⟨Nat.le_trans base (Nat.le_trans row.1 large), fun p member eq ↦ ?_⟩
        have := young p member
        rw [eq] at this
        omega
      · rw [← sources] at member
        show t.labels o label = false
        rw [finds o (operand member), unlabelled n within o member]
        rfl
      · show t'.labels m label = false
        rw [finds' m (statement member)]
        refine Bool.eq_false_iff.2 fun found ↦ ?_
        have inside : label ∈ labelsWithin ⟨j, .block ds (stores ++ [⟨i, sh'⟩])⟩ := by
          rw [labelsWithin_mk]
          exact List.mem_append_right _
            (List.mem_flatMap.2 ⟨m, member, List.contains_iff_mem.1 found⟩)
        have kept := kept label
        rw [nothing, List.contains_iff_mem.2 inside] at kept
        cases kept

theorem spilling_lawful (waits : t.waits = t'.waits) (records : t.records = t'.records) :
    (spilling t t' body body' supply.symbol).Lawful where
  waits := waits
  records := records
  labels h := h.labels finds finds'
  passes h := passesOn (fun n within _ ↦ finds n within _) _ h.within
  unfolds h := h.unfolds older unlabelled finds finds'

/-- Executions of a body and of what spilling makes of it that find labels where they are. -/
theorem spill_evaluates_of (spilled : runs body.spill supply body' supply') (whole : supply'.Whole)
    (waits : t.waits = t'.waits) (records : t.records = t'.records) (persisted : Store)
    (host : Host) : EvaluatesLike supply.symbol t t' body body' { persisted, host }
      { persisted, host } := by
  have root : SpillsTo body body' supply.symbol [] body body' :=
    ⟨⟨supply, supply', spilled, Nat.le_refl _, whole, List.forall_mem_nil _⟩, mem_walk_self _,
      mem_walk_self _⟩
  exact Storing.evaluatesLike (spilling_lawful older unlabelled finds finds' waits records)
    (passesOn fun n within _ ↦ finds n within _) root (.refl _ _)

end

end Node

end Suspension
