import Suspension.Proofs.Acceptance
import Suspension.Proofs.Binding.Scopes
import Suspension.Proofs.States
import Suspension.Proofs.Waiting.Trees

/-!
# Tidy bodies

In a tidy body every variable has one place: it is a parameter, or one block or clause declares it,
and it is used there only. No node asks a future itself. Lowering keeps that (`Layout.fair`): the
variables that outlive the runs are declared nowhere else, and the trees in between use the others
where they are declared.
-/

namespace Suspension

open Build

/-- Every variable of a body is a parameter, or is declared by one block or clause and used in it
only, and no node of the body is a step of the awaiter protocol. -/
structure Node.Tidy (body : Node) (params : List SymbolId) : Prop where
  declared : (body.names true).Nodup
  apart : ∀ id ∈ params, id ∉ body.names true
  inScope : body.Scoped (· ∈ params)
  plain : body.countKind .awaiter = 0

/-- What a body that is prepared declares, it declared before, or the supply gave. -/
theorem Node.prepare_declared {body prepared : Node} {s s' : Supply}
    (h : runs (body.prepare {}) s prepared s') (legal : ∀ m ∈ body.walk, m.Legal) {id : SymbolId}
    (inside : id ∈ prepared.declared) : id ∈ body.names true ∨ id ∈ s.fresh s' := by
  obtain ⟨spilled, s₁, spills, reduces⟩ := runs_prepare h
  have first := spill_census spills
  have second := reduce_census reduces (spill_legal spills legal)
  have given := Supply.fresh_append first.symbol_le second.symbol_le
  have among : 0 < (prepared.names false).count id :=
    List.count_pos_iff.2 (List.mem_append_left _ inside)
  have := first.names id
  have := second.names id
  rw [← given, List.mem_append, ← List.count_pos_iff, ← List.count_pos_iff, ← List.count_pos_iff]
  omega

/-- The layout of a tidy body is fair. -/
theorem Layout.fair {body : Node} {supply s s' : Supply} {l : Lowered} {params : List SymbolId}
    (L : Layout l) (lowers : body.LowersTo supply l) (le : supply.symbol ≤ s.symbol)
    (prepares : runs (body.prepare {}) s L.prepared s') (whole : s'.Whole)
    (added : ∀ id ∈ L.added.names, s'.symbol ≤ id.toNat) (tidy : body.Tidy params)
    (older : ∀ id ∈ params, id.toNat < supply.symbol) : L.Fair params where
  plain := by
    have weight : L.prepared.settle.weight Kind.awaiter.weight =
        body.weight Kind.awaiter.weight := by
      rw [Node.settle_weight (Kind.plain_weight rfl),
        prepare_weight (Kind.plain_weight rfl) (fun _ ↦ rfl) prepares]
    have none : L.prepared.settle.countKind .awaiter = 0 := by
      rw [Node.countKind_eq_weight, weight, ← Node.countKind_eq_weight, tidy.plain]
    intro m within
    simpa using List.countP_eq_zero.1 none m within
  inScope := by
    have settled := Node.settle_scoped (Node.prepare_scoped prepares lowers.legal tidy.inScope)
    refine settled.mono fun id known ↦ ?_
    rwa [Lowered.outlasts, Lowered.keeps, L.hoisted]
  declares := by
    have old : ∀ id ∈ body.names true, id.toNat < s.symbol := fun id inside ↦
      lowers.1.le le id (body.names_symbols inside)
    have once := List.nodup_iff_count_le_one.1
      (Node.prepare_distinct prepares lowers.legal tidy.declared old whole)
    -- A variable that is hoisted is declared no more, for it was declared only once.
    intro id inside outlasts
    have counts := L.prepared.settle_declared id
    have here := List.count_pos_iff.2 inside
    have := once id
    rcases outlasts with kept | param
    · rw [Lowered.keeps, L.hoisted] at kept
      have := List.count_pos_iff.2 kept
      omega
    · have declared : id ∈ L.prepared.declared := List.count_pos_iff.1 (by omega)
      rcases Node.prepare_declared prepares lowers.legal declared with own | given
      · exact tidy.apart id param own
      · have := older id param
        have := Supply.mem_fresh whole given
        omega
  old := by
    intro id param new
    have := older id param
    rcases List.mem_append.1 new with ofContract | ofExpansion
    · have := lowers.names_new id ofContract
      omega
    · have := added id ofExpansion
      have : s.symbol ≤ s'.symbol := by
        obtain ⟨spilled, s₁, spills, reduces⟩ := runs_prepare prepares
        exact Nat.le_trans (Node.spill_census spills).symbol_le
          (Node.reduce_census reduces (Node.spill_legal spills lowers.legal)).symbol_le
      omega

end Suspension
