import Suspension.Proofs.Steps.Layer

/-!
# Finding labels

Which statement, arm or operand a label that is sought leads to.
-/

namespace Suspension

namespace Steps

theorem fromLabel_cons (s : Setting) (label : SymbolId) (n : Node) (ns : List Node) :
    Evaluator.fromLabel s label (n :: ns) =
      if s.labels n label then n :: ns else Evaluator.fromLabel s label ns := by
  rw [Evaluator.fromLabel, List.dropWhile_cons, Evaluator.fromLabel]
  cases s.labels n label <;> rfl

/-- A label is found in corresponding statements, or in none. -/
theorem fromLabel_match {R : Node → Node → Prop} {s s' : Setting} {label label' : SymbolId}
    (agree : ∀ {n n'}, R n n' → s.labels n label = s'.labels n' label') {ns ns' : List Node}
    (h : List.Forall₂ R ns ns') :
    Evaluator.fromLabel s label ns = [] ∧ Evaluator.fromLabel s' label' ns' = [] ∨
    ∃ before c rest before' c' rest', ns = before ++ c :: rest ∧ ns' = before' ++ c' :: rest' ∧
      before.length = before'.length ∧ R c c' ∧ Evaluator.fromLabel s label ns = c :: rest ∧
      Evaluator.fromLabel s' label' ns' = c' :: rest' := by
  induction h with
  | nil => exact .inl ⟨rfl, rfl⟩
  | @cons n n' ns ns' head tail ih =>
    rw [fromLabel_cons, fromLabel_cons, ← agree head]
    cases s.labels n label with
    | true => exact .inr ⟨[], n, ns, [], n', ns', rfl, rfl, rfl, head, rfl, rfl⟩
    | false =>
      rcases ih with ⟨none, none'⟩ | ⟨before, c, rest, before', c', rest', split, split', length,
        related, found, found'⟩
      · exact .inl ⟨none, none'⟩
      · exact .inr ⟨n :: before, c, rest, n' :: before', c', rest', by rw [split]; rfl,
          by rw [split']; rfl, by simp [length], related, found, found'⟩

/-- A label that no statement defines is not found. -/
theorem fromLabel_eq_nil {s : Setting} {label : SymbolId} {ns : List Node}
    (h : ∀ n ∈ ns, s.labels n label = false) : Evaluator.fromLabel s label ns = [] := by
  induction ns with
  | nil => rfl
  | cons n ns ih =>
    rw [fromLabel_cons, h n List.mem_cons_self]
    exact ih fun m member ↦ h m (List.mem_cons_of_mem n member)

/-- A label is found in corresponding arms, or in none. -/
theorem find_match {R : Node → Node → Prop} {p p' : Node → Bool}
    (agree : ∀ {n n'}, R n n' → p n = p' n') {ns ns' : List Node} (h : List.Forall₂ R ns ns') :
    Option.Rel R (ns.find? p) (ns'.find? p') := by
  induction h with
  | nil => exact .none
  | @cons n n' ns ns' head tail ih =>
    rw [List.find?_cons, List.find?_cons, ← agree head]
    cases p n with
    | true => exact .some head
    | false => exact ih

theorem findIdx_match {R : Node → Node → Prop} {p p' : Node → Bool}
    (agree : ∀ {n n'}, R n n' → p n = p' n') {ns ns' : List Node} (h : List.Forall₂ R ns ns') :
    ns.findIdx? p = ns'.findIdx? p' := by
  induction h with
  | nil => rfl
  | cons head tail ih => rw [List.findIdx?_cons, List.findIdx?_cons, agree head, ih]

/-- The arms of corresponding switches. -/
theorem arms_switch {R : Scope → Node → Node → Prop} {A : Scope} {cs cs' : List (Case Node)}
    {otherwise otherwise' : Option Node} (cases : List.Forall₂ (CaseMatch R A) cs cs')
    (others : Option.Rel (R A) otherwise otherwise') :
    List.Forall₂ (R A) (cs.map Case.body ++ otherwise.toList)
      (cs'.map Case.body ++ otherwise'.toList) := by
  induction cases with
  | nil =>
    cases others with
    | none => exact .nil
    | some related => exact .cons related .nil
  | cons head tail ih => exact .cons head.body ih

/-- The arms of corresponding branches. -/
theorem arms_branch {R : Node → Node → Prop} {yes yes' : Node} {no no' : Option Node}
    (sides : R yes yes') (others : Option.Rel R no no') :
    List.Forall₂ R (yes :: no.toList) (yes' :: no'.toList) := by
  cases others with
  | none => exact .cons sides .nil
  | some related => exact .cons sides (.cons related .nil)

/-- Corresponding switches select corresponding cases. -/
theorem find_case {R : Scope → Node → Node → Prop} {A : Scope} {cs cs' : List (Case Node)}
    {i : Int64} (cases : List.Forall₂ (CaseMatch R A) cs cs') :
    Option.Rel (CaseMatch R A) (cs.find? fun c ↦ c.tests.contains i)
      (cs'.find? fun c ↦ c.tests.contains i) := by
  induction cases with
  | nil => exact .none
  | cons head tail ih =>
    rw [List.find?_cons, List.find?_cons, head.tests]
    split
    · exact .some head
    · exact ih

/-- What is sought in corresponding operands is the same. -/
theorem soughtOperand_match {R : Node → Node → Prop} {s s' : Setting} {seek : Option SymbolId}
    (agree : ∀ {n n' label}, seek = some label → R n n' → s.labels n label = s'.labels n' label)
    (stable : ∀ {n n'}, R n n' → n.isStable = n'.isStable) {ns ns' : List Node}
    (h : List.Forall₂ R ns ns') :
    Evaluator.soughtOperand? s ns seek = Evaluator.soughtOperand? s' ns' seek := by
  cases seek with
  | none => rfl
  | some label =>
    simp only [Evaluator.soughtOperand?]
    have places : (ns.findIdx? fun o ↦ s.labels o label) = ns'.findIdx? fun o ↦ s'.labels o label :=
      findIdx_match (fun related ↦ agree rfl related) h
    rw [places]
    cases ns'.findIdx? fun o ↦ s'.labels o label with
    | none => rfl
    | some i =>
      have all : (ns.take i).all Node.isStable = (ns'.take i).all Node.isStable := by
        have taken := List.forall₂_take i h
        generalize ns.take i = xs at taken
        generalize ns'.take i = xs' at taken
        induction taken with
        | nil => rfl
        | cons head tail ih => rw [List.all_cons, List.all_cons, stable head, ih]
      dsimp only
      rw [all]

theorem map_fst_sought (operands : List Node) (entered : Option Nat) (seek : Option SymbolId) :
    (sought operands entered seek).map Prod.fst = operands := by
  rw [sought, List.map_map]
  exact List.zipIdx_map_fst 0 operands

theorem map_snd_sought {operands operands' : List Node} (h : operands.length = operands'.length)
    (entered : Option Nat) (seek : Option SymbolId) :
    (sought operands entered seek).map Prod.snd = (sought operands' entered seek).map Prod.snd := by
  apply List.ext_getElem
  · simp [sought, h]
  · intro i lt lt'
    simp [sought]

theorem mem_sought {operands : List Node} {entered : Option Nat} {seek : Option SymbolId}
    {label : SymbolId} (h : some label ∈ (sought operands entered seek).map Prod.snd) :
    seek = some label := by
  simp only [sought, List.map_map, List.mem_map, Function.comp_apply] at h
  obtain ⟨⟨o, i⟩, -, eq⟩ := h
  dsimp only at eq
  split at eq
  · exact eq
  · cases eq

theorem ready_sought {s : Setting} {operands : List Node} {entered : Option Nat}
    {seek : Option SymbolId} (h : Evaluator.soughtOperand? s operands seek = .ok entered) :
    Ready (sought operands entered seek) := by
  rw [Ready, List.pairwise_iff_getElem]
  intro i j lti ltj lt some
  have isEntered : entered = Option.some j := by
    simp only [sought, List.getElem_map, List.getElem_zipIdx, Nat.zero_add] at some
    by_contra other
    rw [if_neg other] at some
    cases some
  subst isEntered
  cases seek with
  | none => cases h
  | some label =>
    simp only [Evaluator.soughtOperand?] at h
    cases found : operands.findIdx? fun o ↦ s.labels o label with
    | none => rw [found] at h; cases h
    | some k =>
      rw [found] at h
      dsimp only at h
      split at h
      · rename_i all
        cases h
        have ltLength : i < operands.length := by
          simpa [sought] using lti
        have member : operands[i] ∈ operands.take j := by
          rw [List.mem_take_iff_getElem]
          exact ⟨i, by omega, rfl⟩
        simpa [sought] using List.all_eq_true.1 all _ member
      · cases h

/-- The statements from the one on that holds a label. -/
theorem fromLabel_eq {s : Setting} {label : SymbolId} {before rest : List Node} {n : Node}
    (h : ∀ m ∈ before, s.labels m label = false) (found : s.labels n label = true) :
    Evaluator.fromLabel s label (before ++ n :: rest) = n :: rest := by
  induction before with
  | nil => rw [List.nil_append, fromLabel_cons, if_pos found]
  | cons m ms ih =>
    rw [List.cons_append, fromLabel_cons, h m List.mem_cons_self]
    exact ih fun k member ↦ h k (List.mem_cons_of_mem m member)

/-- The first of the arms that holds a label. -/
theorem find_eq {p : Node → Bool} {before rest : List Node} {n : Node}
    (h : ∀ m ∈ before, p m = false) (found : p n = true) :
    (before ++ n :: rest).find? p = some n := by
  rw [List.find?_append, List.find?_eq_none.2 (by simpa using h), List.find?_cons, found]
  rfl

/-- The place of the operand that holds a label. -/
theorem findIdx_eq {p : Node → Bool} {before rest : List Node} {n : Node}
    (h : ∀ m ∈ before, p m = false) (found : p n = true) :
    (before ++ n :: rest).findIdx? p = some before.length := by
  induction before with
  | nil => rw [List.nil_append, List.findIdx?_cons, found]; rfl
  | cons m ms ih =>
    rw [List.cons_append, List.findIdx?_cons, h m List.mem_cons_self,
      ih fun k member ↦ h k (List.mem_cons_of_mem m member)]
    rfl

/-- Nothing is sought in operands but in the one that is entered. -/
theorem sought_eq (before : List Node) (n : Node) (after : List Node) (seek : Option SymbolId) :
    sought (before ++ n :: after) (some before.length) seek =
      before.map (fun o ↦ (o, none)) ++ (n, seek) :: after.map fun o ↦ (o, none) := by
  have other (os : List Node) (k : Nat) (apart : ∀ i, i < os.length → before.length ≠ k + i) :
      ((os.zipIdx k).map fun p ↦ (p.1, if some before.length = some p.2 then seek else none)) =
        os.map fun o ↦ (o, none) := by
    refine List.ext_getElem (by simp) fun i lt _ ↦ ?_
    have := apart i (by simpa using lt)
    simp [this]
  rw [sought, List.zipIdx_append, List.map_append, Nat.zero_add, List.zipIdx_cons, List.map_cons,
    other before 0 (by omega), other after (before.length + 1) (by omega)]
  simp only [if_true]

end Steps

end Suspension
