import Suspension.Proofs.Preparation.Census
import Suspension.Proofs.Reading.Trees

/-!
# Symbols of trees that were read

Reading a tree takes its symbols from the supply: fresh ones get larger numbers than any variable or
label of the tree, wherever it stands (`Node.read_fresh`). There is no larger number than the last
one. A tree that uses it as a symbol is read, and the next fresh symbol is that very one, so the
symbols of a tree are older than the supply behind it exactly if the last number is not among them
(`Node.read_older_iff`).
-/

namespace Suspension

open Build

theorem SymbolId.toNat_max (a b : SymbolId) : (max a b).toNat = max a.toNat b.toNat := by
  change (if a ≤ b then b else a).toNat = if a.toNat ≤ b.toNat then b.toNat else a.toNat
  simp only [UInt64.le_iff_toNat_le]
  split <;> rfl

/-- The number after one that is not the last. -/
theorem SymbolId.toNat_successor {id : SymbolId} (h : id + 1 ≠ 0) :
    id.successor.toNat = id.toNat + 1 := by
  have room : id.toNat + 1 ≠ UInt64.size := fun full ↦ h (by
    rw [← UInt64.toNat_inj, UInt64.toNat_add]
    exact full ▸ Nat.mod_self _)
  have bound : id.toNat < UInt64.size := id.toNat_lt
  rw [successor, if_neg h, UInt64.toNat_add]
  exact Nat.mod_eq_of_lt (by change id.toNat + 1 < UInt64.size; omega)

namespace Node

/-! ### The largest symbol -/

theorem toNat_le_foldl_max (ids : List SymbolId) (m : SymbolId) :
    ∀ id ∈ m :: ids, id.toNat ≤ (ids.foldl max m).toNat := by
  induction ids generalizing m with
  | nil => simp
  | cons i ids ih =>
    obtain ⟨first, rest⟩ := List.forall_mem_cons.1 (ih (max m i))
    rw [SymbolId.toNat_max] at first
    exact List.forall_mem_cons.2 ⟨by rw [List.foldl_cons]; omega,
      List.forall_mem_cons.2 ⟨by rw [List.foldl_cons]; omega, rest⟩⟩

theorem foldl_max_mem (ids : List SymbolId) (m : SymbolId) : ids.foldl max m ∈ m :: ids := by
  induction ids generalizing m with
  | nil => exact List.mem_cons_self
  | cons i ids ih =>
    rcases List.mem_cons.1 (ih (max m i)) with first | rest
    · rw [List.foldl_cons, first]
      change (if m ≤ i then i else m) ∈ _
      split <;> simp
    · exact List.mem_cons_of_mem m (List.mem_cons_of_mem i rest)

theorem le_maxSymbolId {n : Node} {id : SymbolId} (h : id ∈ n.symbols) :
    id.toNat ≤ n.maxSymbolId.toNat :=
  toNat_le_foldl_max n.symbols 0 id (List.mem_cons_of_mem 0 h)

theorem maxSymbolId_mem {n : Node} (h : n.maxSymbolId ≠ 0) : n.maxSymbolId ∈ n.symbols :=
  (List.mem_cons.1 (foldl_max_mem n.symbols 0)).resolve_left h

/-! ### The supply behind a tree -/

/-- What is left of the supply when a tree was read. -/
theorem read_supply {text : String} {s s' : Supply} {n : Node} (h : read text s = some (n, s')) :
    ∃ k : SymbolId, s'.symbol = (max k n.maxSymbolId.successor).toNat := by
  have whole : ((Json.read? text).bind fun j ↦ (ofJson j s).bind fun p ↦
      some (p.1, (reserveThrough p.1.maxSymbolId p.2).2)) = some (n, s') := by
    rw [← h, read]
    cases Json.read? text <;> rfl
  obtain ⟨j, -, run⟩ := Option.bind_eq_some_iff.1 whole
  obtain ⟨⟨m, s₁⟩, -, last⟩ := Option.bind_eq_some_iff.1 run
  cases last
  exact ⟨UInt64.ofNat s₁.symbol, rfl⟩

/-- **The symbols of a tree that was read are older than the supply, unless the last number is among
them.** -/
theorem read_older_iff {text : String} {s s' : Supply} {n : Node}
    (h : read text s = some (n, s')) : n.Older s' ↔ n.maxSymbolId + 1 ≠ 0 := by
  obtain ⟨k, symbol⟩ := read_supply h
  constructor
  · intro older last
    have among : n.maxSymbolId ∈ n.symbols := maxSymbolId_mem fun zero ↦ by
      rw [zero] at last
      cases last
    have below := older _ among
    have full : n.maxSymbolId.toNat + 1 = UInt64.size := by
      have sum := congrArg UInt64.toNat last
      rw [UInt64.toNat_add] at sum
      change (n.maxSymbolId.toNat + 1) % UInt64.size = 0 at sum
      have bound : n.maxSymbolId.toNat < UInt64.size := UInt64.toNat_lt _
      have := Nat.dvd_of_mod_eq_zero sum
      exact Nat.le_antisymm bound (Nat.le_of_dvd (Nat.succ_pos _) this)
    have bound : (max k n.maxSymbolId.successor).toNat < UInt64.size := UInt64.toNat_lt _
    omega
  · intro room id inside
    have le := le_maxSymbolId inside
    rw [symbol, SymbolId.toNat_max, SymbolId.toNat_successor room]
    omega

/-! ### Fresh symbols -/

/-- Some fresh symbols. -/
theorem newSymbolIds_run (k : Nat) (s : Supply) :
    ((List.replicate k ()).mapM fun _ ↦ newSymbolId) s =
      (s.fresh { s with symbol := s.symbol + k }, { s with symbol := s.symbol + k }) := by
  suffices run : ((List.replicate k ()).mapM fun _ ↦ newSymbolId) s =
      ((List.range' s.symbol k).map UInt64.ofNat, { s with symbol := s.symbol + k }) by
    rw [run, Supply.fresh, span, Nat.add_sub_cancel_left]
  induction k generalizing s with
  | zero => rfl
  | succ k ih =>
    let made := ((List.replicate k ()).mapM fun _ ↦ newSymbolId) { s with symbol := s.symbol + 1 }
    have first : ((List.replicate (k + 1) ()).mapM fun _ ↦ newSymbolId) s =
        (UInt64.ofNat s.symbol :: made.1, made.2) := by
      rw [List.replicate_succ, List.mapM_cons]
      rfl
    have rest : made = _ := ih { s with symbol := s.symbol + 1 }
    rw [first, rest, List.range'_succ, Nat.add_assoc, Nat.add_comm 1 k]
    rfl

/-- **Loaded symbols are never used again**, as long as there are numbers left: what is taken from
the supply behind a tree is apart from every variable and label of the tree, and from what else is
taken. -/
theorem read_fresh {text : String} {s s' : Supply} {n : Node} (h : read text s = some (n, s'))
    (room : n.maxSymbolId + 1 ≠ 0) {k : Nat} (left : s'.symbol + k ≤ UInt64.size) :
    let ids := (((List.replicate k ()).mapM fun _ ↦ newSymbolId) s').1
    ids.Nodup ∧ ∀ id ∈ ids, id ∉ n.symbols := by
  have whole : Supply.Whole { s' with symbol := s'.symbol + k } := left
  rw [newSymbolIds_run]
  refine ⟨Supply.fresh_nodup whole, fun id fresh taken ↦ ?_⟩
  have older := (read_older_iff h).2 room id taken
  have newer := (Supply.mem_fresh whole fresh).1
  omega

/-- A tree that reads a variable with the last number is read, and the next fresh symbol is that
variable. -/
theorem read_reuses_last : ∃ text n s, read text {} = some (n, s) ∧
    (newSymbolId s).1 ∈ n.symbols := by
  let value : Json := .arr [.str "variable", .arr [.int 18446744073709551615, .str "x"]]
  have parsed : Json.read? value.print = some value := Json.read?_print (by decide) (by decide)
  have reused : ((ofJson value {}).any fun p ↦
      p.1.symbols.contains (newSymbolId (reserveThrough p.1.maxSymbolId p.2).2).1) = true := by
    decide +kernel
  obtain ⟨⟨n, s⟩, reads, taken⟩ := (Option.any_eq_true _ _).1 reused
  exact ⟨_, n, _, read_of_ofJson parsed reads, List.contains_iff_mem.1 taken⟩

end Node

end Suspension
