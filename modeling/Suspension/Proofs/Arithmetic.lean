import Suspension.Proofs.Faults
import Suspension.Proofs.Steps.Questions

/-!
# Arithmetic

Sums, differences and products are those of the integers, reduced to 64 bits
(`BinaryOp.apply_exact`). A quotient and the remainder that goes with it make up the dividend, also
where the quotient does not fit (`BinaryOp.apply_div_mod`); without a divisor there is an exception
and no number (`BinaryOp.apply_zero`). Opposites are those of the integers, but the least number has
none, and to ask for it is more than an exception: it stops the run, although there is no fault to
report. Nothing else stops a run so (`Steps.overflows_iff`).
-/

namespace Suspension

namespace BinaryOp

/-- The operation on integers that an operator carries out, for those that are total. -/
def onIntegers? : BinaryOp → Option (Int → Int → Int)
  | .add => some (· + ·)
  | .sub => some (· - ·)
  | .mul => some (· * ·)
  | _ => none

/-- **Operators are exact in 64 bits.** -/
theorem apply_exact {op : BinaryOp} {f : Int → Int → Int} (total : op.onIntegers? = some f)
    (a b : Int64) : ∃ c : Int64, op.apply (.int a) (.int b) = some (.ok (.int c)) ∧
      c.toInt = (f a.toInt b.toInt).bmod Int64.size := by
  cases op <;> cases total
  · exact ⟨a + b, rfl, Int64.toInt_add a b⟩
  · exact ⟨a - b, rfl, Int64.toInt_sub a b⟩
  · exact ⟨a * b, rfl, Int64.toInt_mul a b⟩

/-- **Quotient and remainder make up the dividend**, for every divisor but zero. The remainder has
the sign of the dividend, and so has the quotient by a positive divisor: both are those of the
integers, the quotient reduced to 64 bits. -/
theorem apply_div_mod {b : Int64} (divides : b ≠ 0) (a : Int64) : ∃ q r : Int64,
    BinaryOp.div.apply (.int a) (.int b) = some (.ok (.int q)) ∧
      BinaryOp.mod.apply (.int a) (.int b) = some (.ok (.int r)) ∧ q * b + r = a ∧
      q.toInt = (a.toInt.tdiv b.toInt).bmod Int64.size ∧ r.toInt = a.toInt.tmod b.toInt := by
  refine ⟨a / b, a % b, ?_, ?_, ?_, Int64.toInt_div a b, Int64.toInt_mod a b⟩
  · simp only [apply, onInts, if_neg divides]
  · simp only [apply, onInts, if_neg divides]
  · rw [← Int64.toInt_inj, Int64.toInt_add, Int64.toInt_mul, Int64.toInt_div, Int64.toInt_mod,
      Int.bmod_mul_bmod, Int.bmod_add_bmod, Int.tdiv_mul_add_tmod]
    exact Int64.toInt_bmod a

-- The quotient of the least number by minus one does not fit.
example : BinaryOp.div.apply (.int Int64.minValue) (.int (-1)) = some (.ok (.int Int64.minValue)) ∧
    BinaryOp.mod.apply (.int Int64.minValue) (.int (-1)) = some (.ok (.int 0)) := by
  decide

/-- What is divided by zero raises an exception. -/
theorem apply_zero (a : Int64) :
    BinaryOp.div.apply (.int a) (.int 0) = some (.error (.error "division by zero")) ∧
      BinaryOp.mod.apply (.int a) (.int 0) = some (.error (.error "division by zero")) :=
  ⟨rfl, rfl⟩

end BinaryOp

namespace Eval

/-- **Opposites are exact**, where there is one. -/
theorem unary_minus (i : Int64) (n : Node) (σ : Frame) :
    unary .minus (.int i) n σ = (.error (.stop .negationOverflow), σ) ∧ i = Int64.minValue ∨
      ∃ j : Int64, unary .minus (.int i) n σ = (.ok (.int j), σ) ∧ j.toInt = -i.toInt := by
  by_cases least : i = Int64.minValue
  · refine .inl ⟨?_, least⟩
    rw [least]
    rfl
  · refine .inr ⟨-i, ?_, ?_⟩
    · simp only [unary, if_neg least]
      rfl
    · have above : -2 ^ 63 < i.toInt := by
        have bound := Int64.le_toInt i
        have other : i.toInt ≠ -2 ^ 63 := fun same ↦
          least (Int64.toInt_inj.1 (same.trans Int64.toInt_minValue.symm))
        omega
      have below := Int64.toInt_lt i
      rw [Int64.toInt_neg, Int.bmod_eq_of_le (by omega) (by omega)]

end Eval

namespace Steps

open TransitionSystem

/-- **Only the opposite of the least number stops a run without a fault**: a run is stopped so
exactly if it comes to a node that negates that number. -/
theorem overflows_iff {s : Setting} {root : Node} {seek : Option SymbolId} {σ : Frame} :
    (∃ σ', (system s).Ends (start root seek σ) (.error (.stop .negationOverflow), σ')) ↔
      ∃ n o K τ, n.shape = .unary .minus o ∧ (system s).Reaches (start root seek σ)
        ⟨.leave (.ok (.int Int64.minValue)), ⟨n, .operand⟩ :: K, τ⟩ := by
  constructor
  · rintro ⟨σ', ends⟩
    obtain ⟨c, n, values, reach, acts, -, stops⟩ := stops_at ends
    cases stops with
    | @negationOverflow o shape =>
      obtain ⟨m, lineage, -⟩ := Invariant.lineage_of_reaches s reach
      generalize same : [Value.int Int64.minValue] = values at acts
      cases acts with
      | enter => cases same
      | leave n K τ completes =>
        cases lineage with
        | child outer awaits =>
          have unary : SameUnary n.shape n.shape o o := shape ▸ .unary o o .minus
          obtain rfl := (awaits.of_unary unary).1
          cases completes
          cases same
          exact ⟨n, o, K, τ, shape, reach⟩
  · rintro ⟨n, o, K, τ, shape, reach⟩
    obtain ⟨exs, ends⟩ := ends_of_stop (s := s) .negationOverflow K τ
    refine ⟨_, .of_reaches (reach.trans (Proceeds.of_next ?_).reaches) ends⟩
    have overflows : finish s n (.int Int64.minValue) τ =
        (.error (.stop .negationOverflow), τ) := by
      rw [finish, shape]
      rfl
    change (perform (finish s n (.int Int64.minValue)) τ).on K = _
    rw [perform, overflows]
    rfl

end Steps

/-- A body in which nothing is negated is never stopped so. -/
theorem runBody_without_minus {s : Setting} {fuel : Nat} {body : Node} {persisted : Store}
    {host : Host} (without : ∀ n ∈ body.walk, ∀ o, n.shape ≠ .unary .minus o) :
    (runBody s fuel body persisted host).1 ≠ .error .negationOverflow := by
  intro stopped
  rcases run : eval s fuel body none { persisted, host } with ⟨r, σ⟩
  rw [runBody_of_eval run] at stopped
  rcases r with (label | v | v | reason) | v <;> cases stopped
  obtain ⟨n, within, τ, values, stops⟩ := eval_stops run (by rintro ⟨⟩)
  cases stops with
  | negationOverflow shape => exact without n within _ shape

end Suspension
