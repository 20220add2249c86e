import Suspension.Proofs.Dumps.Shown

/-!
# What the tokens of a dump stand for

The tokens of a tree start with a word that tells its form (`Token.kind?`), and the words behind it
are known from how they are written: a number by its digits, a symbol by what stands before and
behind its last sharp sign, operators and types by their signs.
-/

namespace Suspension

open Token

/-! ### How tokens start -/

/-- The words behind the parenthesis of a node, and the forms they stand for. -/
def heads : List (String × Kind) :=
  [("block", .block), ("await", .await), ("acquire", .awaiter), ("is-completed", .awaiter),
    ("get-result", .awaiter), ("awaiter", .awaiter), ("try", .region), ("loop", .loop),
    ("label", .label), ("goto", .goto), ("switch", .switch), ("if", .branch), ("lock", .lock),
    ("return", .ret), ("rethrow", .raise), ("throw", .raise), ("assign", .assign),
    ("binary", .binary), ("==", .binary), ("!=", .binary), ("<", .binary), ("<=", .binary),
    (">", .binary), (">=", .binary), ("+", .binary), ("-", .binary), ("*", .binary), ("/", .binary),
    ("%", .binary), ("&&", .binary), ("||", .binary), ("neg", .unary), ("not", .unary),
    ("unary", .unary), ("call", .call), ("default", .defaultOf)]

/-- The form that tokens start with. -/
def Token.kind? : List Token → Option Kind
  | .word w :: _ => some (if '#' ∈ w.toList then .var else .const)
  | .quoted _ :: _ => some .const
  | .mark '(' :: .mark ')' :: _ => some .const
  | .mark '(' :: .word w :: _ => heads.lookup w
  | _ => none

/-- The heading on a line of its own that tokens start with. -/
def Token.heading? : List Token → Option String
  | .mark '\n' :: .mark '(' :: .word w :: _ => some w
  | _ => none

/-- The digits of a number are digits. -/
theorem isDigit_of_mem {n : Nat} {c : Char} (h : c ∈ Nat.toDigits 10 n) : c.isDigit = true :=
  Nat.isDigit_of_mem_toDigits (by decide) (by decide) h

/-- A number is written with digits and a sign. -/
theorem mem_toString (i : Int) : ∀ c ∈ (toString i).toList, c = '-' ∨ c.isDigit = true := by
  rw [Int.toString_eq_repr]
  cases i with
  | ofNat n =>
    rw [Int.repr, toList_repr]
    exact fun c inside ↦ .inr (isDigit_of_mem inside)
  | negSucc n =>
    have digits : ∀ c ∈ Nat.toDigits 10 (n + 1), c = '-' ∨ c.isDigit = true :=
      fun c inside ↦ .inr (isDigit_of_mem inside)
    simpa [Int.repr] using digits

/-- The form of a layer is known from its first tokens. -/
theorem Shape.kind?_tokens (sh : Shape (List Token)) (onLine : Bool) (rest : List Token) :
    kind? (sh.tokens onLine ++ rest) = some sh.kind := by
  cases sh with
  | var v =>
    have sharp : '#' ∈ v.text.toList := by simp [Variable.text, symbolText]
    exact congrArg some (if_pos sharp)
  | const value =>
    have plain {w : String} (h : '#' ∉ w.toList) : kind? ([.word w] ++ rest) = some .const :=
      congrArg some (if_neg h)
    cases value with
    | unit => rfl
    | str s => rfl
    | null => exact plain (by simp [Literal.text])
    | bool b => cases b <;> exact plain (by decide)
    | int i => exact plain fun sharp ↦ absurd (mem_toString _ _ sharp) (by decide)
  | binary op left right =>
    cases onLine with
    | true => cases op <;> rfl
    | false => rfl
  | unary op operand =>
    cases onLine with
    | true => cases op <;> rfl
    | false => rfl
  | awaiter step operand =>
    cases onLine with
    | true => cases step <;> rfl
    | false => rfl
  | raise value => cases value <;> rfl
  | _ => rfl

/-! ### What words stand for -/

/-- A number is known from its digits. -/
theorem repr_injective {m n : Nat} (h : Nat.toDigits 10 m = Nat.toDigits 10 n) : m = n := by
  rw [← Nat.ofDigitChars_ten_toDigits (n := m), h, Nat.ofDigitChars_ten_toDigits]

/-- An integer is known from its text. -/
theorem toString_injective {i j : Int} (h : toString i = toString j) : i = j := by
  have unsigned (m n : Nat) : Nat.toDigits 10 m ≠ '-' :: Nat.toDigits 10 n := fun same ↦
    absurd (isDigit_of_mem (same ▸ List.mem_cons_self)) (by decide)
  rw [Int.toString_eq_repr, Int.toString_eq_repr, ← String.toList_inj] at h
  cases i with
  | ofNat m =>
    cases j with
    | ofNat n => exact congrArg _ (repr_injective (by simpa [Int.repr] using h))
    | negSucc n => exact absurd (by simpa [Int.repr] using h) (unsigned m (n + 1))
  | negSucc m =>
    cases j with
    | ofNat n => exact absurd (by simpa [Int.repr] using h.symm) (unsigned n (m + 1))
    | negSucc n =>
      have same : m + 1 = n + 1 := repr_injective (by simpa [Int.repr] using h)
      exact congrArg _ (Nat.succ.inj same)

/-- A symbol is known by its text. -/
theorem symbolText_injective {name name' : String} {id id' : SymbolId}
    (h : symbolText name id = symbolText name' id') : name = name' ∧ id = id' := by
  have letters : (Nat.toDigits 10 id.toNat).reverse ++ '#' :: name.toList.reverse =
      (Nat.toDigits 10 id'.toNat).reverse ++ '#' :: name'.toList.reverse := by
    simpa [symbolText] using congrArg (fun s : String ↦ s.toList.reverse) h
  have digits (n : Nat) : ∀ c ∈ (Nat.toDigits 10 n).reverse, ¬ c = '#' := by
    rintro c member rfl
    exact absurd (isDigit_of_mem (List.mem_reverse.1 member)) (by decide)
  obtain ⟨number, rest⟩ := append_unique (digits _) (digits _) (by simp) (by simp) letters
  exact ⟨String.toList_inj.1 (List.reverse_injective (List.cons.inj rest).2),
    UInt64.toNat_inj.1 (repr_injective (List.reverse_injective number))⟩

/-- A label is known from its text. -/
theorem Label.text_inj {l l' : Label} : l.text = l'.text ↔ l = l' := by
  refine ⟨fun same ↦ ?_, fun same ↦ by rw [same]⟩
  obtain ⟨id, name⟩ := l
  obtain ⟨rfl, rfl⟩ := symbolText_injective same
  rfl

/-- What is shown of a variable is known from its text. -/
theorem Variable.shown_of_text {v v' : Variable} (h : v.text = v'.text) : v.shown = v'.shown := by
  obtain ⟨name, id⟩ := symbolText_injective h
  rw [shown, shown, name, id]

/-- What is shown of variables is known from their texts. -/
theorem Variable.shown_of_texts {vs vs' : List Variable}
    (h : vs.map Variable.text = vs'.map Variable.text) :
    vs.map Variable.shown = vs'.map Variable.shown := by
  induction vs generalizing vs' with
  | nil =>
    obtain rfl := List.map_eq_nil_iff.1 h.symm
    rfl
  | cons v vs ih =>
    obtain ⟨v', vs', rfl, first, others⟩ := List.map_eq_cons_iff.1 h.symm
    rw [List.map_cons, List.map_cons, shown_of_text first.symm, ih others.symm]

/-- A constant is known by its tokens. -/
theorem Literal.tokens_injective {value value' : Literal} {rest rest' : List Token}
    (h : value.tokens ++ rest = value'.tokens ++ rest') : value = value' ∧ rest = rest' := by
  have yes : toString true = "true" := rfl
  have no : toString false = "false" := rfl
  have number (i : Int64) {w : String} (letter : 'l' ∈ w.toList ∨ 'e' ∈ w.toList) :
      toString i.toInt ≠ w := by
    rintro rfl
    rcases letter with inside | inside <;> exact absurd (mem_toString _ _ inside) (by decide)
  have null (i : Int64) := number i (w := "null") (by simp)
  have true' (i : Int64) := number i (w := "true") (by simp)
  have false' (i : Int64) := number i (w := "false") (by simp)
  have same {i j : Int64} : toString i.toInt = toString j.toInt ↔ i = j :=
    ⟨fun texts ↦ Int64.toInt_inj.1 (toString_injective texts), fun eq ↦ by rw [eq]⟩
  rcases value with _ | _ | (_ | _) | i | s <;> rcases value' with _ | _ | (_ | _) | j | s' <;>
    simp [-Int.toString_eq_repr, tokens, group, text, yes, no, same, null, true', false',
      (null _).symm, (true' _).symm, (false' _).symm] at h ⊢ <;> exact h

/-- An operator with two operands is known from its sign. -/
theorem BinaryOp.sign_injective {op op' : BinaryOp} (h : op.sign = op'.sign) : op = op' := by
  cases op <;> cases op' <;> first | rfl | exact absurd h (by decide)

theorem UnaryOp.sign_injective {op op' : UnaryOp} (h : op.sign = op'.sign) : op = op' := by
  cases op <;> cases op' <;> first | rfl | exact absurd h (by decide)

theorem AwaitStep.sign_injective {step step' : AwaitStep} (h : step.sign = step'.sign) :
    step = step' := by
  cases step <;> cases step' <;> first | rfl | exact absurd h (by decide)

/-- A type is known from its name. -/
theorem Ty.name_injective {ty ty' : Ty} (h : ty.name = ty'.name) : ty = ty' := by
  cases ty <;> cases ty' <;> first | rfl | exact absurd h (by decide)

end Suspension
