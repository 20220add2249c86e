import Mathlib.Data.List.TakeDrop
import Mathlib.Tactic.Set
import Suspension.Json.Printer
import Suspension.Json.Reader

/-!
# Written strings and numbers are read back

* `readString_escaped` - behind its opening quote a string is read back, whatever characters it
  holds. It goes character by character: `readString_escapedChar` says that the reader takes as one
  character what the writer put for it.
* `readNumber_toString` - a number that fits a word, signed or not, is read back where no text
  follows that goes on with a number. Beside its digits all that has to be seen is that such a
  number lies in the range of a double: `nearestDouble_le` bounds what rounding may add.
-/

namespace Suspension.Json

/-! ### Strings -/

/-- A control character is known from its hexadecimal digits. -/
theorem unit?_hexDigit {n : Nat} (h : n < 0x20) :
    unit? '0' '0' (hexDigit (n / 16)) (hexDigit (n % 16)) = some n := by
  have all : ∀ k : Fin 0x20,
      unit? '0' '0' (hexDigit (k / 16)) (hexDigit (k % 16)) = some k.val := by
    decide
  exact all ⟨n, h⟩

/-- What the writer puts for one character the reader takes as that character. -/
theorem readString_escapedChar (c : Char) (done cs : List Char) :
    readString done (escapedChar c ++ cs) = readString (c :: done) cs := by
  unfold escapedChar
  split
  · rename_i h
    rcases h with rfl | rfl <;> rfl
  split
  · subst_vars; rfl
  split
  · subst_vars; rfl
  split
  · subst_vars; rfl
  split
  · subst_vars; rfl
  split
  · subst_vars; rfl
  split
  · -- The remaining controls are written by their number, which is no surrogate.
    rename_i low
    have high : ¬0xD800 ≤ c.toNat := by omega
    have high' : ¬0xDC00 ≤ c.toNat := by omega
    simp only [List.cons_append, List.nil_append]
    rw [readString]
    simp only [unit?_hexDigit low, high, high', false_and, if_false, Char.ofNat_toNat]
  · rename_i special _ _ _ _ _ low
    rw [not_or] at special
    have plain : ¬(c.toNat < 0x20 ∨ c = '\\') := not_or.2 ⟨low, special.2⟩
    simp only [List.cons_append, List.nil_append]
    rw [readString.eq_def]
    split
    · exact absurd (List.cons.inj ‹_›).1 special.1
    · exact absurd (List.cons.inj ‹_›).1 special.2
    · exact absurd (List.cons.inj ‹_›).1 special.2
    · rename_i h
      obtain ⟨rfl, rfl⟩ := List.cons.inj h
      rw [if_neg plain]
    · exact absurd ‹_› (List.cons_ne_nil _ _)

/-- Behind its opening quote a string is read back. -/
theorem readString_escaped (s done rest : List Char) :
    readString done (s.flatMap escapedChar ++ '"' :: rest) =
      some (String.ofList (done.reverse ++ s), rest) := by
  induction s generalizing done with
  | nil => rw [List.append_nil]; rfl
  | cons c s ih =>
    rw [List.flatMap_cons, List.append_assoc, readString_escapedChar, ih, List.reverse_cons,
      List.append_assoc]
    rfl

/-! ### Digits -/

/-- A text that does not go on with a number. -/
def EndsNumber (rest : List Char) : Prop :=
  ∀ c ∈ rest.head?, c.isDigit = false ∧ c ≠ '.' ∧ c ≠ 'e' ∧ c ≠ 'E'

/-- Digits are taken up to what is no digit. -/
theorem takeDigits_append {ds rest : List Char} (digits : ∀ d ∈ ds, d.isDigit)
    (ends : EndsNumber rest) : takeDigits (ds ++ rest) = (ds, rest) := by
  rw [takeDigits, List.span_eq_takeWhile_dropWhile, List.takeWhile_append_of_pos digits,
    List.dropWhile_append_of_pos digits]
  cases rest with
  | nil => simp
  | cons c rest => simp [(ends c rfl).1]

/-- The value of digits is computed as by the library. -/
theorem digitsValue_eq (ds : List Char) : digitsValue ds = Nat.ofDigitChars 10 ds 0 := by
  rw [digitsValue, Nat.ofDigitChars_eq_foldl]
  congr
  funext n d
  rw [Nat.mul_comm]
  rfl

/-- A number is known from its digits. -/
@[simp] theorem digitsValue_toDigits (n : Nat) : digitsValue (Nat.toDigits 10 n) = n := by
  rw [digitsValue_eq, Nat.ofDigitChars_ten_toDigits]

theorem isDigit_of_mem_toDigits {n : Nat} : ∀ d ∈ Nat.toDigits 10 n, d.isDigit :=
  fun _ ↦ Nat.isDigit_of_mem_toDigits (by decide) (by decide)

/-- The digits of a number do not start with a zero, unless they are that zero. -/
theorem toDigits_ne_zero_cons (n : Nat) (d : Char) (ds : List Char) :
    Nat.toDigits 10 n ≠ '0' :: d :: ds := by
  induction n using Nat.base_induction 10 (by decide) generalizing d ds with
  | single m hm =>
    rw [Nat.toDigits_of_lt_base hm]
    simp
  | digit m k hk hm ih =>
    rw [← Nat.toDigits_append_toDigits (by decide) hm hk, Nat.toDigits_of_lt_base hk]
    intro h
    have value := digitsValue_toDigits m
    match top : Nat.toDigits 10 m with
    | [] => exact Nat.toDigits_ne_nil top
    | [a] =>
      rw [top] at h value
      obtain ⟨rfl, -⟩ := List.cons.inj h
      exact Nat.ne_of_gt hm value.symm
    | a :: b :: bs =>
      rw [top] at h
      obtain ⟨rfl, -⟩ := List.cons.inj h
      exact ih b bs top

namespace Numeral

/-! ### Scanning -/

/-- The whole part of a number is all of it. -/
theorem scanWhole_toDigits {n : Nat} {rest : List Char} (ends : EndsNumber rest) :
    scanWhole (Nat.toDigits 10 n ++ rest) = some (Nat.toDigits 10 n, rest) := by
  rw [scanWhole, takeDigits_append isDigit_of_mem_toDigits ends]
  split
  · rename_i h
    cases Nat.toDigits_ne_nil (Prod.mk.inj h).1
  · rename_i h
    cases toDigits_ne_zero_cons _ _ _ (Prod.mk.inj h).1
  · rename_i h
    rw [h]

theorem scanFraction_of_ends {rest : List Char} (ends : EndsNumber rest) :
    scanFraction rest = some ([], rest) := by
  unfold scanFraction
  split
  · exact absurd rfl (ends '.' rfl).2.1
  · rfl

theorem scanExponent_of_ends {rest : List Char} (ends : EndsNumber rest) :
    scanExponent rest = some (none, rest) := by
  unfold scanExponent
  split
  · rename_i c rest
    obtain ⟨-, -, small, large⟩ := ends c rfl
    rw [if_neg (by simp [small, large])]
  · rfl

/-- A number without fraction and exponent, by its digits. -/
def ofDigits (negative : Bool) (n : Nat) : Numeral :=
  ⟨negative, Nat.toDigits 10 n, [], none⟩

/-- A number without a sign is scanned as what it is. -/
theorem scan_digits {n : Nat} {rest : List Char} (ends : EndsNumber rest) :
    scan (Nat.toDigits 10 n ++ rest) = some (ofDigits false n, rest) := by
  have plain : ∀ cs, Nat.toDigits 10 n ++ rest ≠ '-' :: cs := by
    intro cs h
    cases top : Nat.toDigits 10 n with
    | nil => exact Nat.toDigits_ne_nil top
    | cons d ds =>
      have digit := isDigit_of_mem_toDigits d (top ▸ List.mem_cons_self)
      rw [top] at h
      obtain ⟨rfl, -⟩ := List.cons.inj h
      exact absurd digit (by decide)
  unfold scan
  split
  rename_i h
  split at h
  · exact absurd ‹_› (plain _)
  · cases h
    simp [scanWhole_toDigits ends, scanFraction_of_ends ends, scanExponent_of_ends ends, ofDigits]

/-- A number with a minus sign is scanned as what it is. -/
theorem scan_minus {n : Nat} {rest : List Char} (ends : EndsNumber rest) :
    scan ('-' :: (Nat.toDigits 10 n ++ rest)) = some (ofDigits true n, rest) := by
  simp [scan, scanWhole_toDigits ends, scanFraction_of_ends ends, scanExponent_of_ends ends,
    ofDigits]

/-! ### The range of a double -/

/-- Digits are absorbed while the number fits into 64 bits. -/
theorem absorb_of_lt {ds : List Char} {n : Nat}
    (h : ds.foldl (fun n d ↦ n * 10 + digitValue d) n < UInt64.size) :
    absorb n ds = (ds.foldl (fun n d ↦ n * 10 + digitValue d) n, []) := by
  induction ds generalizing n with
  | nil => rfl
  | cons d ds ih =>
    have grows (ds : List Char) (m : Nat) :
        m ≤ ds.foldl (fun n d ↦ n * 10 + digitValue d) m := by
      clear ih h
      induction ds generalizing m with
      | nil => exact Nat.le_refl _
      | cons d ds ih =>
        exact Nat.le_trans (by omega : m ≤ m * 10 + digitValue d) (ih _)
    rw [List.foldl_cons] at h ⊢
    rw [absorb, if_pos (Nat.lt_of_le_of_lt (grows ds _) h), ih h]

/-- Rounding adds no more than one step between doubles. -/
theorem nearestDouble_le (n : Nat) : nearestDouble n ≤ 2 * n + 1 := by
  unfold nearestDouble
  set step := Nat.pow 2 (n.log2 + 1 - 53) with step_eq
  have small : step ≤ n + 1 := by
    rcases Nat.eq_zero_or_pos n with rfl | pos
    · decide
    · calc
        step ≤ 2 ^ n.log2 := Nat.pow_le_pow_right (by decide) (by omega)
        _ ≤ n := Nat.log2_self_le (Nat.ne_of_gt pos)
        _ ≤ n + 1 := Nat.le_succ n
  have kept : n / step * step ≤ n := Nat.div_mul_le_self n step
  have next : (n / step + 1) * step = n / step * step + step := by rw [Nat.add_mul, Nat.one_mul]
  dsimp only
  split <;> omega

/-- Numbers that fit into 64 bits are finite. -/
theorem isFinite_ofDigits {negative : Bool} {n : Nat} (h : n < UInt64.size) :
    (ofDigits negative n).isFinite := by
  have value : (Nat.toDigits 10 n).foldl (fun n d ↦ n * 10 + digitValue d) 0 = n :=
    digitsValue_toDigits n
  have rounded : nearestDouble n * nearestDouble (Nat.pow 10 0) < rangeLimit := calc
    nearestDouble n * nearestDouble (Nat.pow 10 0) = nearestDouble n := by
      rw [show nearestDouble (Nat.pow 10 0) = 1 by decide, Nat.mul_one]
    _ ≤ 2 * n + 1 := nearestDouble_le n
    _ < 2 * UInt64.size := by omega
    _ < rangeLimit := by decide +kernel
  unfold isFinite
  simp only [ofDigits, absorb_of_lt (value.symm ▸ h), absorb, value]
  rw [Bool.or_eq_true, Bool.and_eq_true]
  exact .inr ⟨rfl, decide_eq_true rounded⟩

end Numeral

/-! ### Numbers -/

/-- A number that is scanned as whole is read as an integer. -/
theorem readNumber_of_scan {negative : Bool} {n : Nat} {cs rest : List Char}
    (h : n < UInt64.size) (scanned : Numeral.scan cs = some (Numeral.ofDigits negative n, rest))
    {value : Int} (whole : (Numeral.ofDigits negative n).wholeValue? = some value) :
    readNumber cs = some (.int value, rest) := by
  rw [readNumber, scanned]
  simp only [Numeral.isFinite_ofDigits h, whole, if_true]

/-- A number that fits a word, signed or not, is read back. -/
theorem readNumber_toString {value : Int} {rest : List Char}
    (range : -UInt64.size < value ∧ value < UInt64.size) (ends : EndsNumber rest) :
    readNumber ((toString value).toList ++ rest) = some (.int value, rest) := by
  obtain ⟨low, high⟩ := range
  cases value with
  | ofNat n =>
    have text : (toString (Int.ofNat n)).toList = Nat.toDigits 10 n := Nat.toList_repr
    rw [text]
    refine readNumber_of_scan (Int.ofNat_lt.1 high) (Numeral.scan_digits ends) ?_
    simp [Numeral.wholeValue?, Numeral.ofDigits]
  | negSucc n =>
    have text : (toString (Int.negSucc n)).toList = '-' :: Nat.toDigits 10 (n + 1) := by
      simp [Int.repr_eq_if, String.toList_append]
    have small : n + 1 < UInt64.size := by omega
    rw [text]
    refine readNumber_of_scan small (Numeral.scan_minus ends) ?_
    simp [Numeral.wholeValue?, Numeral.ofDigits, Int.negSucc_eq]

end Suspension.Json
