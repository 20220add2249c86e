import Suspension.Proofs.Expansion.Hoisting
import Suspension.Proofs.Preparation.Occurrences
import Suspension.Proofs.Preparation.Reduction
import Suspension.Proofs.Preparation.Spilling

/-!
# Which bodies can be lowered

A body is rejected when something in it is out of place, and for no other reason: the error names
the first offence (`Node.lower_rejects_first`). What comes after the static check cannot fail. The
passes before the expansion declare variables, move clauses and turn their binders into
declarations, but no two blocks declare the same variable afterwards (`Node.prepare_distinct`), and
then nothing is hoisted twice.
-/

namespace Suspension

/-- A pass leaves variables distinct that were distinct, and older than the supply. -/
theorem Census.distinct {all : Bool} {n n' : Node} {s s' : Supply} (h : Census all n s n' s')
    (distinct : (n.names true).Nodup) (older : ∀ id ∈ n.names true, id.toNat < s.symbol)
    (whole : s'.Whole) :
    (n'.names all).Nodup ∧ ∀ id ∈ n'.names all, id.toNat < s'.symbol := by
  have le := h.symbol_le
  have taken {id : SymbolId} (fresh : id ∈ s.fresh s') :
      (n.names true).count id = 0 ∧ id.toNat < s'.symbol := by
    obtain ⟨above, below⟩ := Supply.mem_fresh whole fresh
    refine ⟨List.count_eq_zero.2 fun inside ↦ ?_, below⟩
    have := older id inside
    omega
  constructor
  · rw [List.nodup_iff_count_le_one] at distinct ⊢
    intro id
    have := h.names id
    have := distinct id
    by_cases fresh : id ∈ s.fresh s'
    · have := (taken fresh).1
      have := List.nodup_iff_count_le_one.1 (Supply.fresh_nodup (s := s) whole) id
      omega
    · rw [List.count_eq_zero.2 fresh] at *
      omega
  · intro id inside
    by_cases fresh : id ∈ s.fresh s'
    · exact (taken fresh).2
    · have := h.names id
      rw [List.count_eq_zero.2 fresh] at this
      have : 0 < (n'.names all).count id := List.count_pos_iff.2 inside
      have := older id (List.count_pos_iff.1 (by omega))
      omega

/-- What the passes before the expansion make of a body: it may be spilled, then its handlers may be
moved. -/
theorem runs_prepare_iff {options : LoweringOptions} {body prepared : Node} {s s' : Supply} :
    runs (body.prepare options) s prepared s' ↔ ∃ spilled s₁,
      (if options.spill then runs body.spill s spilled s₁ else spilled = body ∧ s₁ = s) ∧
        if options.reduceHandlers then runs spilled.reduceHandlers s₁ prepared s'
        else prepared = spilled ∧ s' = s₁ := by
  have steps : body.prepare options = (do
      let body ← (if options.spill then body.spill else pure body : Build Node)
      if options.reduceHandlers then body.reduceHandlers else pure body) := by
    rw [Node.prepare]
    split <;> rfl
  rw [steps, runs_bind]
  refine exists_congr fun spilled ↦ exists_congr fun s₁ ↦ and_congr ?_ ?_
  · split
    · rfl
    · exact runs_pure
  · split
    · rfl
    · exact runs_pure

/-- The tree whose suspend points are expanded declares no variable twice. -/
theorem Node.prepare_distinct {options : LoweringOptions} {body prepared : Node} {s s' : Supply}
    (run : runs (body.prepare options) s prepared s') (legal : ∀ m ∈ body.walk, m.Legal)
    (distinct : (body.names true).Nodup) (older : ∀ id ∈ body.names true, id.toNat < s.symbol)
    (whole : s'.Whole) : prepared.declared.Nodup := by
  obtain ⟨spilled, s₁, first, second⟩ := runs_prepare_iff.1 run
  have spills (whole : s₁.Whole) : ((spilled.names true).Nodup ∧
      ∀ id ∈ spilled.names true, id.toNat < s₁.symbol) := by
    split at first
    · exact (spill_census first).distinct distinct older whole
    · obtain ⟨rfl, rfl⟩ := first
      exact ⟨distinct, older⟩
  have stillLegal : ∀ m ∈ spilled.walk, m.Legal := by
    split at first
    · exact spill_legal first legal
    · obtain ⟨rfl, rfl⟩ := first
      exact legal
  split at second
  · have census := reduce_census second stillLegal
    obtain ⟨distinct₁, older₁⟩ := spills (Nat.le_trans census.symbol_le whole)
    have reduced := (census.distinct distinct₁ older₁ whole).1
    rwa [names, if_neg Bool.false_ne_true, List.append_nil] at reduced
  · obtain ⟨rfl, rfl⟩ := second
    exact (spills whole).1.of_append_left

/-- Nothing but the static check rejects a body whose variables are distinct. -/
theorem Node.lower_error_iff_check {body : Node} {options : LoweringOptions} {supply : Supply}
    (distinct : (body.names true).Nodup)
    (older : ∀ id ∈ body.names true, id.toNat < supply.symbol)
    (whole : (body.prepare options supply).2.Whole) {c : Contract} {r : Rejection} :
    body.lower options c supply = .error r ↔ body.check options.reduceHandlers = .error r := by
  rw [lower]
  generalize made : body.prepare options supply = p at whole
  obtain ⟨prepared, s⟩ := p
  cases checked : body.check options.reduceHandlers with
  | error e =>
    show (.error e : Except Rejection (Lowered × Supply)) = .error r ↔ _
    rw [Except.error.injEq, Except.error.injEq]
  | ok u =>
    have declared : prepared.declared.Nodup :=
      prepare_distinct made (check_legal checked) distinct older whole
    obtain ⟨expanded, r', expands⟩ := expand_total declared c s
    replace expands : prepared.expand c { supply := s } = .ok (expanded, r') := expands
    refine ⟨fun failed ↦ ?_, nofun⟩
    dsimp only [bind, Except.bind] at failed
    rw [expands] at failed
    cases failed

/-- **Lowering accepts exactly the bodies in which nothing is out of place.** Where the variables of
a body are distinct and older than a supply that does not wrap, lowering fails if and only if some
node occurs where it must not. The error names the first such node of the walk and what is wrong
with it, and never a variable that is hoisted twice. -/
theorem Node.lower_rejects_first {body : Node} {supply : Supply} (options : LoweringOptions)
    (c : Contract) (distinct : (body.names true).Nodup)
    (older : ∀ id ∈ body.names true, id.toNat < supply.symbol)
    (whole : (body.prepare options supply).2.Whole) :
    body.occurrences.map Occurrence.node = body.walk ∧
      ((∃ r, body.lower options c supply = .error r) ↔
        ∃ o ∈ body.occurrences, ∃ objection, o.Offends options.reduceHandlers objection) ∧
      ∀ r, body.lower options c supply = .error r →
        body.FirstOffence options.reduceHandlers r ∧ ∀ v, r.objection ≠ .hoistedTwice v := by
  simp only [lower_error_iff_check distinct older whole, check_error_iff]
  refine ⟨body.map_node_occurrences, ⟨?_, ?_⟩, ?_⟩
  · rintro ⟨r, before, o, after, split, offends, -⟩
    exact ⟨o, split ▸ List.mem_append_right _ List.mem_cons_self, _, offends⟩
  · rintro ⟨o, member, objection, offends⟩
    cases checked : body.check options.reduceHandlers with
    | ok u => exact absurd offends (check_ok_iff.1 checked o member objection)
    | error r => exact ⟨r, check_error_iff.1 checked⟩
  · rintro r first
    refine ⟨first, fun v twice ↦ ?_⟩
    obtain ⟨before, o, after, -, offends, -⟩ := first
    rw [twice] at offends
    cases offends

/-- A clause that suspends, where clauses stay in their regions, behind one that does not. -/
theorem Node.lower_rejects_handler : ∃ (body : Node) (supply : Supply) (c : Contract),
    (body.names true).Nodup ∧ (∀ id ∈ body.names true, id.toNat < supply.symbol) ∧
      (body.prepare { reduceHandlers := false } supply).2.Whole ∧
      (∃ r, body.lower { reduceHandlers := false } c supply = .error r) ∧
      ∀ r, body.lower { reduceHandlers := false } c supply = .error r →
        body.FirstOffence false r ∧ ∀ v, r.objection ≠ .hoistedTwice v := by
  let wait : Node := ⟨2, .await ⟨1, .call "yield" []⟩ none .any⟩
  let quiet : Clause Node := ⟨some ⟨2, "e", .any⟩, some ⟨3, .var ⟨2, "e", .any⟩⟩, ⟨4, .raise none⟩⟩
  let body : Node := ⟨8, .block [⟨1, "x", .any⟩] [⟨7, .region ⟨5, .call "fail" []⟩
    [quiet, ⟨some ⟨3, "f", .any⟩, none, ⟨6, .assign ⟨1, "x", .any⟩ wait⟩⟩] none none⟩]⟩
  let supply : Supply := { node := 9, symbol := 4 }
  let c : Contract := ((Contract.fresh onCompleted) supply).1
  have named : body.names true = [1, 2, 3] := rfl
  have distinct : (body.names true).Nodup := by
    rw [named]
    decide
  have older : ∀ id ∈ body.names true, id.toNat < supply.symbol := by
    rw [named]
    simp [supply]
  have whole : (body.prepare { reduceHandlers := false } supply).2.Whole := by
    show _ ≤ UInt64.size
    decide
  obtain ⟨-, rejected, first⟩ :=
    lower_rejects_first { reduceHandlers := false } c distinct older whole
  refine ⟨body, supply, c, distinct, older, whole, rejected.2 ?_, first⟩
  have occurs : (⟨[.plain, .handler, .plain], wait⟩ : Occurrence) ∈ body.occurrences :=
    List.mem_of_getElem? (i := 6) rfl
  exact ⟨_, occurs, _, .inHandler rfl (by decide) (by decide) rfl (.inl (by decide))⟩

end Suspension
