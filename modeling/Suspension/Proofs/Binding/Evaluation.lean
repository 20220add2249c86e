import Mathlib.Data.List.TakeWhile
import Suspension.Proofs.Effects
import Suspension.Proofs.Preparation.Census

/-!
# Evaluations in scope

Where every variable around a node has a slot, its evaluation never misses one, and jumps that leave
it lead to targets of the gotos in it. Slots are only ever added, so what is bound around a node is
still bound when the node is entered again, in the middle or from its start.

`Eval.Ensures` is a triple: from frames where some variables have slots, a computation loses no
slot, ends with a value of a kind or leaves with an exit that is not about a missing name.
`eval_ensures` proves it of the evaluator, with one lemma for each of its parts, and
`eval_block_catches` says where a jump that leaves a body does not lead.
-/

namespace Suspension

/-- A fault about a name: a variable without a slot, or a label that nothing defines. -/
def FaultCause.Dangles (cause : FaultCause) : Prop :=
  (∃ v, cause = .unbound v) ∨ ∃ label, cause = .undefinedLabel label

/-- Variables that have a slot. -/
def Frame.Binds (σ : Frame) (id : SymbolId) : Prop :=
  σ.locals.contains id = true ∨ σ.persisted.contains id = true

/-- What has a slot in a frame has one in a later frame. -/
structure Frame.Grows (σ σ' : Frame) : Prop where
  locals : ∀ id, σ.locals.contains id = true → σ'.locals.contains id = true
  persisted : ∀ id, σ.persisted.contains id = true → σ'.persisted.contains id = true

namespace Frame.Grows

variable {σ σ₁ σ' : Frame}

theorem refl (σ : Frame) : σ.Grows σ :=
  ⟨fun _ ↦ id, fun _ ↦ id⟩

/-- Slots that stay in each step stay. -/
theorem trans (h : σ.Grows σ₁) (h' : σ₁.Grows σ') : σ.Grows σ' :=
  ⟨fun id slot ↦ h'.locals id (h.locals id slot),
    fun id slot ↦ h'.persisted id (h.persisted id slot)⟩

/-- Nothing happened to the slots. -/
theorem of_eq (locals : σ'.locals = σ.locals) (persisted : σ'.persisted = σ.persisted) :
    σ.Grows σ' :=
  ⟨fun _ slot ↦ locals ▸ slot, fun _ slot ↦ persisted ▸ slot⟩

/-- A variable that has a slot keeps it. -/
theorem binds (h : σ.Grows σ') {id : SymbolId} (slot : σ.Binds id) : σ'.Binds id :=
  slot.imp (h.locals id) (h.persisted id)

end Frame.Grows

/-- An exit that is not about a missing name. Jumps have one of some aims. -/
structure Exit.Sound (aims : SymbolId → Prop) (e : Exit) : Prop where
  jump : ∀ label, e = .jump label → aims label
  fault : ∀ f, e = .stop (.fault f) → ¬ f.cause.Dangles

namespace Exit.Sound

variable {aims : SymbolId → Prop}

/-- A jump to a label that is aimed at is sound. -/
theorem of_jump {label : SymbolId} (h : aims label) : (Exit.jump label).Sound aims where
  jump _ same := Exit.jump.inj same ▸ h
  fault _ same := by cases same

/-- A fault is sound if it is not for a dangling reference. -/
theorem of_fault {f : Fault} (h : ¬ f.cause.Dangles) : (Exit.stop (.fault f)).Sound aims where
  jump _ same := by cases same
  fault _ same := by
    cases same
    exact h

/-- An exit that is neither a jump nor a fault. -/
theorem of_other {e : Exit} (jump : ∀ label, e ≠ .jump label) (fault : ∀ f, e ≠ .stop (.fault f)) :
    e.Sound aims :=
  ⟨fun label same ↦ absurd same (jump label), fun f same ↦ absurd same (fault f)⟩

theorem ret (value : Value) : (Exit.ret value).Sound aims :=
  of_other (by rintro _ ⟨⟩) (by rintro _ ⟨⟩)

theorem thrown (value : Value) : (Exit.thrown value).Sound aims :=
  of_other (by rintro _ ⟨⟩) (by rintro _ ⟨⟩)

theorem outOfFuel : (Exit.stop .outOfFuel).Sound aims :=
  of_other (by rintro _ ⟨⟩) (by rintro _ ⟨⟩)

theorem negationOverflow : (Exit.stop .negationOverflow).Sound aims :=
  of_other (by rintro _ ⟨⟩) (by rintro _ ⟨⟩)

end Exit.Sound

namespace Eval

variable {α β : Type} {bound aims : SymbolId → Prop}

/-- The outcome of a computation and the frame it leaves, compared with the frame before. -/
structure Ends (aims : SymbolId → Prop) (post : α → Prop) (σ : Frame)
    (r : Except Exit α × Frame) : Prop where
  grows : σ.Grows r.2
  value : ∀ a, r.1 = .ok a → post a
  exit : ∀ e, r.1 = .error e → e.Sound aims

/-- Where some variables have slots, a computation misses no name and loses no slot. -/
def Ensures (bound aims : SymbolId → Prop) (post : α → Prop) (x : Eval α) : Prop :=
  ∀ σ : Frame, (∀ id, bound id → σ.Binds id) → Ends aims post σ (x σ)

/-- A computation whose value does not matter. -/
abbrev Safe (bound aims : SymbolId → Prop) (x : Eval α) : Prop :=
  Ensures bound aims (fun _ ↦ True) x

/-- A value ends well if it meets the condition. -/
theorem Ends.ok {post : α → Prop} {σ σ' : Frame} {a : α} (grows : σ.Grows σ') (h : post a) :
    Ends aims post σ (.ok a, σ') where
  grows := grows
  value _ same := Except.ok.inj same ▸ h
  exit _ same := by cases same

/-- An exit ends well if it is sound. -/
theorem Ends.error {post : α → Prop} {σ σ' : Frame} {e : Exit} (grows : σ.Grows σ')
    (h : e.Sound aims) : Ends aims post σ (.error e, σ') :=
  ⟨grows, nofun, fun _ same ↦ Except.error.inj same ▸ h⟩

/-- What ends well after slots were added ends well. -/
theorem Ends.after {post : α → Prop} {σ σ₁ : Frame} {r : Except Exit α × Frame}
    (grows : σ.Grows σ₁) (h : Ends aims post σ₁ r) : Ends aims post σ r :=
  ⟨grows.trans h.grows, h.value, h.exit⟩

namespace Ensures

variable {post : α → Prop} {post' : β → Prop} {x : Eval α}

/-- A value meets a condition that it meets. -/
theorem pure {a : α} (h : post a) : Ensures bound aims post (pure a : Eval α) :=
  fun σ _ ↦ .ok (.refl σ) h

theorem throw {e : Exit} (h : e.Sound aims) : Ensures bound aims post (throw e : Eval α) :=
  fun σ _ ↦ .error (.refl σ) h

/-- A condition goes through a sequence. -/
theorem bind {f : α → Eval β} (h : Ensures bound aims post x)
    (h' : ∀ a, post a → Ensures bound aims post' (f a)) : Ensures bound aims post' (x >>= f) := by
  intro σ slots
  have first := h σ slots
  rw [bind_apply]
  rcases eq : x σ with ⟨e | a, σ₁⟩
  · rw [eq] at first
    exact .error first.grows (first.exit e rfl)
  · rw [eq] at first
    exact .after first.grows (h' a (first.value a rfl) σ₁ fun id inside ↦
      first.grows.binds (slots id inside))

/-- A change of the frame that leaves the slots alone. -/
theorem modify {f : Frame → Frame} {post : Unit → Prop} (locals : ∀ σ, (f σ).locals = σ.locals)
    (persisted : ∀ σ, (f σ).persisted = σ.persisted) (h : post ()) :
    Ensures bound aims post (modify f : Eval Unit) :=
  fun σ _ ↦ .ok (.of_eq (locals σ) (persisted σ)) h

/-- How an attempt ended is known, and not about a missing name. -/
theorem attempt (h : Ensures bound aims post x) : Ensures bound aims
    (fun r ↦ (∀ a, r = .ok a → post a) ∧ ∀ e, r = .error e → e.Sound aims) (attempt x) :=
  fun σ slots ↦ .ok (h σ slots).grows ⟨(h σ slots).value, (h σ slots).exit⟩

/-- A result that is known is safe if it is a value or a sound exit. -/
theorem conclude {r : Except Exit α} (value : ∀ a, r = .ok a → post a)
    (exit : ∀ e, r = .error e → e.Sound aims) : Ensures bound aims post (conclude r) :=
  fun σ _ ↦ ⟨conclude_apply σ r ▸ .refl σ, conclude_apply σ r ▸ value, conclude_apply σ r ▸ exit⟩

theorem discard (h : Safe bound aims x) : Safe bound aims (discard x : Eval Unit) := by
  intro σ slots
  have first := h σ slots
  rw [discard_apply]
  refine ⟨first.grows, fun _ _ ↦ trivial, fun e same ↦ ?_⟩
  rcases eq : x σ with ⟨e' | a, σ₁⟩
  · rw [eq] at same first
    cases same
    exact first.exit e rfl
  · rw [eq] at same
    cases same

/-- A list of safe computations is safe. -/
theorem list {γ : Type} {f : γ → Eval α} {as : List γ}
    (h : ∀ a ∈ as, Safe bound aims (f a)) : Safe bound aims (as.mapM f) := by
  induction as with
  | nil =>
    rw [List.mapM_nil]
    exact pure trivial
  | cons a as ih =>
    rw [List.mapM_cons]
    obtain ⟨head, tail⟩ := List.forall_mem_cons.1 h
    exact head.bind fun _ _ ↦ (ih tail).bind fun _ _ ↦ pure trivial

end Ensures

/-! ### Primitive computations -/

section Primitive

variable {s : Setting} {n : Node}

/-- A fault is safe if it is not for a dangling reference. -/
theorem fault_ensures {cause : FaultCause} {post : α → Prop} (h : ¬ cause.Dangles) :
    Ensures bound aims post (fault cause n : Eval α) :=
  .throw (.of_fault h)

/-- A fault that is not about a name. -/
theorem not_dangles {cause : FaultCause}
    (h : [FaultKind.unboundVariable, .invalidJump].contains cause.kind = false) :
    ¬ cause.Dangles := by
  rintro (⟨v, rfl⟩ | ⟨label, rfl⟩)
  · cases h
  · cases h

/-- A search that may not go where the label is faults for the way, not for a name. -/
theorem barred_not_dangles {cause : FaultCause}
    (h : cause ∈ [FaultCause.intoOperand, .intoRegion, .intoLock]) : ¬ cause.Dangles := by
  rintro (⟨v, rfl⟩ | ⟨label, rfl⟩)
  · simp at h
  · simp at h

/-- An exit that is taken is safe if it is sound. -/
theorem leave_ensures {e : Exit} {post : α → Prop} (h : e.Sound aims) :
    Ensures bound aims post (leave s e : Eval α) := by
  intro σ _
  rw [leave_apply]
  exact .error (.of_eq (noted_locals s σ _) (noted_persisted s σ _)) h

/-- Reading a variable that has a slot is safe. -/
theorem load_ensures {v : Variable} (h : bound v.id) : Safe bound aims (load v n) := by
  intro σ slots
  rw [load_apply, lookup]
  have slot := slots v.id h
  rw [Frame.Binds, Store.contains, Store.contains] at slot
  cases here : σ.locals.get? v.id with
  | some value => exact .ok (.refl σ) trivial
  | none =>
    cases there : σ.persisted.get? v.id with
    | some value => exact .ok (.refl σ) trivial
    | none => simp [here, there] at slot

/-- Assigning to a variable that has a slot is safe. -/
theorem store_ensures {v : Variable} {value : Value} (h : bound v.id) :
    Safe bound aims (store s v value n) := by
  intro σ slots
  rw [store_apply, assigned?]
  by_cases here : σ.locals.contains v.id = true
  · rw [if_pos here]
    refine .ok ⟨fun _ ↦ Store.contains_insert_of, fun id slot ↦ ?_⟩ trivial
    simpa using slot
  · rw [if_neg here, if_pos ((slots v.id h).resolve_left here)]
    refine .ok ⟨fun id slot ↦ ?_, fun _ ↦ Store.contains_insert_of⟩ trivial
    simpa using slot

/-- In a block, its variables are bound too. -/
theorem declare_ensures {vs : List Variable} {post : α → Prop} {x : Eval α}
    (h : Ensures (fun id ↦ id ∈ vs.map Variable.id ∨ bound id) aims post x) :
    Ensures bound aims post (do declare vs; x) := by
  intro σ slots
  rw [bind_apply, declare_apply]
  have grows : σ.Grows { σ with locals := σ.locals.declare vs } :=
    ⟨fun id slot ↦ Store.contains_declare (.inr slot), fun _ ↦ id⟩
  refine .after grows (h { σ with locals := σ.locals.declare vs } fun id inside ↦ ?_)
  rcases inside with declared | outside
  · exact .inl (Store.contains_declare (.inl declared))
  · exact (slots id outside).imp_left fun slot ↦ Store.contains_declare (.inr slot)

/-- In a clause, its variable is bound too. -/
theorem bind_ensures {v : Variable} {value : Value} {post : α → Prop} {x : Eval α}
    (h : Ensures (fun id ↦ id ∈ [v].map Variable.id ∨ bound id) aims post x) :
    Ensures bound aims post (do bind s v value; x) := by
  intro σ slots
  have frame : σ.Grows (Eval.bound s v value σ) ∧ (Eval.bound s v value σ).Binds v.id := by
    rw [Eval.bound]
    split
    · refine ⟨⟨fun id slot ↦ by simpa using slot, fun _ ↦ Store.contains_insert_of⟩, .inr ?_⟩
      simp [Store.contains_insert]
    · refine ⟨⟨fun _ ↦ Store.contains_insert_of, fun id slot ↦ by simpa using slot⟩, .inl ?_⟩
      simp [Store.contains_insert]
  rw [bind_apply, bind_clause_apply]
  show Ends aims post σ (x (Eval.bound s v value σ))
  refine .after frame.1 (h _ fun id inside ↦ ?_)
  rcases inside with own | outside
  · cases List.mem_singleton.1 own
    exact frame.2
  · exact frame.1.binds (slots id outside)

/-- Calling the host is safe. -/
theorem callHost_ensures {name : String} {args : List Value} :
    Safe bound aims (callHost s name args n) := by
  intro σ _
  have same : σ.Grows (called name args σ) := .of_eq rfl rfl
  have noted : σ.Grows (noted s (.call name args) (called name args σ)) :=
    .of_eq (noted_locals s _ _) (noted_persisted s _ _)
  rw [callHost_apply]
  cases (σ.host.call name args).1 with
  | unknown => exact .error same (.of_fault (not_dangles rfl))
  | value v => exact .ok noted trivial
  | raised ex => exact .error noted (.thrown ex)

theorem handOver_ensures {awaiter : Value} : Safe bound aims (handOver s awaiter) := by
  intro σ _
  rw [handOver_apply]
  exact .ok (.of_eq (noted_locals s σ _) (noted_persisted s σ _)) trivial

theorem cell_ensures {v : Value} : Safe bound aims (cell v n) := by
  intro σ _
  rw [cell_apply]
  cases cell? σ.host v with
  | some c => exact .ok (.refl σ) trivial
  | none => exact .error (.refl σ) (.of_fault (not_dangles rfl))

theorem result_ensures {f : Future} : Safe bound aims (result f n) := by
  rw [result]
  split
  · exact .pure trivial
  · exact .throw (.thrown _)
  · exact fault_ensures (not_dangles rfl)

theorem binary_ensures {op : BinaryOp} {l r : Value} : Safe bound aims (binary op l r n) := by
  rw [binary]
  split
  · exact .pure trivial
  · exact .throw (.thrown _)
  · exact fault_ensures (not_dangles rfl)

theorem unary_ensures {op : UnaryOp} {v : Value} : Safe bound aims (unary op v n) := by
  have refused : Safe bound aims (fault (.negationOf v.type) n : Eval Value) :=
    fault_ensures (not_dangles rfl)
  cases op with
  | minus =>
    cases v with
    | int i =>
      rw [unary]
      split
      · exact .throw .negationOverflow
      · exact .pure trivial
    | _ => exact refused
  | not =>
    rw [unary]
    split
    · exact .pure trivial
    · exact refused

end Primitive

end Eval

/-! ### Parts of the evaluator -/

namespace Evaluator

open Eval

variable {s : Setting} {eval : Evaluator} {bound aims : SymbolId → Prop} {n : Node}

/-- The statements from a label on are among the statements. -/
theorem fromLabel_subset (label : SymbolId) (ns : List Node) : fromLabel s label ns ⊆ ns :=
  (List.dropWhile_suffix _).subset

/-- Statements in sequence, whichever way they are entered again. -/
theorem statements_ensures {all : List Node}
    (h : ∀ n ∈ all, ∀ seek, Safe bound aims (eval n seek)) (fuel : Nat) {rest : List Node}
    (inside : rest ⊆ all) (seek : Option SymbolId) (last : Value) :
    Safe bound aims (statements s eval all fuel rest seek last) := by
  -- The induction is on the fuel: a jump may start again from any of the statements.
  induction fuel generalizing rest seek last with
  | zero =>
    cases rest with
    | nil =>
      rw [statements]
      exact .pure trivial
    | cons n rest =>
      rw [statements]
      exact .throw .outOfFuel
  | succ fuel ih =>
    cases rest with
    | nil =>
      rw [statements]
      exact .pure trivial
    | cons n rest =>
      obtain ⟨here, more⟩ := List.cons_subset.1 inside
      intro σ slots
      have first := h n here seek σ slots
      rw [statements]
      rcases eq : eval n seek σ with ⟨e | v, σ₁⟩
      · dsimp only
        rw [eq] at first ⊢
        have sound := first.exit e rfl
        cases e with
        | jump label =>
          dsimp only
          split
          · exact .error first.grows sound
          · exact .after first.grows (ih (fromLabel_subset label all) (some label) .unit σ₁
              fun id inside ↦ first.grows.binds (slots id inside))
        | _ => exact .error first.grows sound
      · dsimp only
        rw [eq] at first ⊢
        exact .after first.grows (ih more none v σ₁ fun id inside ↦
          first.grows.binds (slots id inside))

/-- Rounds of a loop are safe if its body is. -/
theorem rounds_ensures {body : Node} (h : ∀ seek, Safe bound aims (eval body seek))
    (breakLabel continueLabel : Option Label) (fuel : Nat) (seek : Option SymbolId) :
    Safe bound aims (rounds s eval body breakLabel continueLabel fuel seek) := by
  induction fuel generalizing seek with
  | zero =>
    rw [rounds]
    exact .throw .outOfFuel
  | succ fuel ih =>
    intro σ slots
    have first := h seek σ slots
    rw [rounds]
    rcases eq : eval body seek σ with ⟨e | v, σ₁⟩
    · dsimp only
      rw [eq] at first ⊢
      have sound := first.exit e rfl
      have again (seek : Option SymbolId) := Ends.after first.grows (ih seek σ₁ fun id inside ↦
        first.grows.binds (slots id inside))
      cases e with
      | jump label =>
        dsimp only
        split
        · exact .ok first.grows trivial
        · split
          · exact again none
          · split
            · exact again (some label)
            · exact .error first.grows sound
      | _ => exact .error first.grows sound
    · dsimp only
      rw [eq] at first ⊢
      exact .after first.grows (ih none σ₁ fun id inside ↦ first.grows.binds (slots id inside))

/-- A loop is safe if its body is. -/
theorem loop_ensures {body : Node} (h : ∀ seek, Safe bound aims (eval body seek))
    (breakLabel continueLabel : Option Label) (fuel : Nat) (seek : Option SymbolId) :
    Safe bound aims (loop s eval fuel body breakLabel continueLabel seek) := by
  cases seek with
  | none => exact rounds_ensures h breakLabel continueLabel fuel none
  | some label =>
    rw [loop]
    split
    · exact .pure trivial
    · split
      · exact rounds_ensures h breakLabel continueLabel fuel none
      · exact rounds_ensures h breakLabel continueLabel fuel (some label)

/-- An arm that is selected is safe if all are. -/
theorem selected_ensures {o : Option Node} (h : ∀ arm ∈ o, Safe bound aims (eval arm none)) :
    Safe bound aims (selected eval o) := by
  cases o with
  | none => exact .pure trivial
  | some arm => exact h arm rfl

/-- What is selected by a test is one of the arms. -/
theorem orFault_ensures {x : Except FaultCause (Option Node)} {arms : List Node}
    (value : ∀ o, x = .ok o → ∀ arm ∈ o, arm ∈ arms)
    (error : ∀ cause, x = .error cause → ¬ cause.Dangles) :
    Ensures bound aims (fun o ↦ ∀ arm ∈ o, arm ∈ arms) (orFault x n) := by
  cases x with
  | ok o => exact .pure (value o rfl)
  | error cause => exact fault_ensures (error cause rfl)

/-- What a switch selects is one of its arms. -/
theorem caseFor_mem {cases : List (Case Node)} {otherwise o : Option Node} {v : Value}
    (h : caseFor cases otherwise v = .ok o) :
    ∀ arm ∈ o, arm ∈ cases.map Case.body ++ otherwise.toList := by
  rw [caseFor] at h
  split at h
  · cases h
  · rintro arm some
    split at h
    · rename_i c found
      cases h
      cases some
      exact List.mem_append_left _ (List.mem_map_of_mem (List.mem_of_find?_eq_some found))
    · cases h
      exact List.mem_append_right _ (Option.mem_toList.2 some)

/-- What a condition selects is one of its sides. -/
theorem sideFor_mem {yes : Node} {no o : Option Node} {v : Value}
    (h : sideFor yes no v = .ok o) : ∀ arm ∈ o, arm ∈ yes :: no.toList := by
  rw [sideFor] at h
  intro arm some
  split at h
  · cases h
  · cases h
    cases some
    exact List.mem_cons_self
  · cases h
    exact List.mem_cons_of_mem _ (Option.mem_toList.2 some)

/-- A switch refuses a value for its type, not for a name. -/
theorem caseFor_refused {cases : List (Case Node)} {otherwise : Option Node} {v : Value}
    {cause : FaultCause} (h : caseFor cases otherwise v = .error cause) : ¬ cause.Dangles := by
  rw [caseFor] at h
  split at h
  · cases h
    exact not_dangles rfl
  · split at h <;> cases h

/-- A condition refuses a value for its type, not for a name. -/
theorem sideFor_refused {yes : Node} {no : Option Node} {v : Value} {cause : FaultCause}
    (h : sideFor yes no v = .error cause) : ¬ cause.Dangles := by
  rw [sideFor] at h
  split at h
  · cases h
    exact not_dangles rfl
  · cases h
  · cases h

/-- A test and the arm that it selects are safe if the test and each arm are. -/
theorem selection_ensures {test : Node} {arms : List Node} {seek : Option SymbolId}
    {choice : Value → Except FaultCause (Option Node)}
    (child : ∀ c ∈ test :: arms, ∀ seek, Safe bound aims (eval c seek))
    (among : ∀ v o, choice v = .ok o → ∀ arm ∈ o, arm ∈ arms)
    (refused : ∀ v cause, choice v = .error cause → ¬ cause.Dangles) :
    Safe bound aims (do selected eval (← orFault (choice (← eval test seek)) n)) := by
  refine (child test List.mem_cons_self seek).bind fun v _ ↦ ?_
  refine .bind (orFault_ensures (among v) (refused v)) fun o inside ↦ ?_
  exact selected_ensures fun arm some ↦ child arm (List.mem_cons_of_mem _ (inside arm some)) none

/-- The arm with a label is one of the arms. -/
theorem soughtArm?_mem {test arm : Node} {arms : List Node} {seek : Option SymbolId}
    (h : soughtArm? s test arms seek = some arm) : arm ∈ arms := by
  cases seek with
  | none => cases h
  | some label =>
    have found : (if s.labels test label then none
        else arms.find? fun arm ↦ s.labels arm label) = some arm := h
    split at found
    · cases found
    · exact List.mem_of_find?_eq_some found

/-- Operands to enter are found, or the fault is about their order. -/
theorem soughtOperand_ensures {operands : List Node} {seek : Option SymbolId} :
    Safe bound aims (orFault (soughtOperand? s operands seek) n) := by
  cases seek with
  | none => exact .pure trivial
  | some label =>
    simp only [soughtOperand?]
    split
    · exact .pure trivial
    · split
      · exact .pure trivial
      · exact fault_ensures (barred_not_dangles (by decide))

/-- Asking whether a clause applies is safe if its filter is. -/
theorem applies_ensures {filter : Option Node} (h : ∀ f ∈ filter, Safe bound aims (eval f none)) :
    Safe bound aims (applies eval filter) := by
  cases filter with
  | none => exact .pure trivial
  | some f =>
    refine (h f rfl).attempt.bind fun r sound ↦ ?_
    cases r with
    | ok value => exact .pure trivial
    | error e =>
      cases e with
      | thrown => exact .pure trivial
      | _ => exact .throw (sound.2 _ rfl)

/-- How a handler ended is known. -/
theorem handle_ensures {ex : Value} {cs : List (Clause Node)}
    (h : ∀ c ∈ cs, ∀ part ∈ c.children, ∀ seek,
      Safe (fun id ↦ id ∈ c.binder.toList.map Variable.id ∨ bound id) aims (eval part seek)) :
    Ensures bound aims (fun r ↦ ∀ e, r = .error e → e.Sound aims) (handle s eval ex cs) := by
  induction cs with
  | nil =>
    refine .pure fun e same ↦ ?_
    cases same
    exact .thrown ex
  | cons c cs ih =>
    obtain ⟨binder, filter, body⟩ := c
    obtain ⟨here, rest⟩ := List.forall_mem_cons.1 h
    replace ih := ih rest
    -- What is known without the variable of the clause is known with it.
    have inner : Ensures (fun id ↦ id ∈ binder.toList.map Variable.id ∨ bound id) aims
        (fun r ↦ ∀ e, r = .error e → e.Sound aims) (do
          if ← applies eval filter then
            modify fun σ ↦ { σ with handling := ex :: σ.handling }
            let r ← attempt (eval body none)
            modify fun σ ↦ { σ with handling := σ.handling.tail }
            return r
          else handle s eval ex cs) := by
      have filters : Safe (fun id ↦ id ∈ binder.toList.map Variable.id ∨ bound id) aims
          (applies eval filter) := applies_ensures fun f some ↦
        here f (List.mem_append_left _ (Option.mem_toList.2 some)) none
      refine filters.bind fun b _ ↦ ?_
      cases b with
      | false => exact fun σ slots ↦ ih σ fun id inside ↦ slots id (.inr inside)
      | true =>
        have handling {f : List Value → List Value} : Safe
            (fun id ↦ id ∈ binder.toList.map Variable.id ∨ bound id) aims
            (modify fun σ ↦ { σ with handling := f σ.handling }) :=
          .modify (fun _ ↦ rfl) (fun _ ↦ rfl) trivial
        refine handling.bind fun _ _ ↦ ?_
        have ends := (here body (List.mem_append_right _ List.mem_cons_self) none).attempt
        refine ends.bind fun r sound ↦ ?_
        exact handling.bind fun _ _ ↦ .pure sound.2
    cases binder with
    | none =>
      rw [handle]
      exact fun σ slots ↦ inner σ fun id inside ↦ slots id (inside.resolve_left nofun)
    | some v =>
      rw [handle]
      exact bind_ensures inner

/-- The parts behind a protected body are safe if each of them is. -/
theorem windUp_ensures {cleanup fault : Option Node} {r : Except Exit Value}
    (cleanups : ∀ part ∈ cleanup, Safe bound aims (eval part none))
    (faults : ∀ part ∈ fault, Safe bound aims (eval part none))
    (sound : ∀ e, r = .error e → e.Sound aims) :
    Safe bound aims (windUp eval cleanup fault r) := by
  have last : Safe bound aims (conclude r) := .conclude (fun _ _ ↦ trivial) sound
  have cleaned : Safe bound aims (windUp eval cleanup none r) := by
    cases cleanup with
    | none => rcases r with (_ | _ | _ | _) | _ <;> exact last
    | some part =>
      have part := (cleanups part rfl).discard.bind fun _ _ ↦ last
      rcases r with (_ | _ | _ | _) | _ <;> first | exact part | exact last
  cases fault with
  | none => exact cleaned
  | some part =>
    rcases r with (_ | _ | _ | _) | _
    · exact cleaned
    · exact cleaned
    · exact (faults part rfl).discard.bind fun _ _ ↦ cleaned
    · exact cleaned
    · exact cleaned

/-- A protected region from its start. -/
theorem region_ensures {body : Node} {cs : List (Clause Node)} {cleanup fault : Option Node}
    (bodies : Safe bound aims (eval body none))
    (clauses : ∀ c ∈ cs, ∀ part ∈ c.children, ∀ seek,
      Safe (fun id ↦ id ∈ c.binder.toList.map Variable.id ∨ bound id) aims (eval part seek))
    (cleanups : ∀ part ∈ cleanup, Safe bound aims (eval part none))
    (faults : ∀ part ∈ fault, Safe bound aims (eval part none)) :
    Safe bound aims (region s eval body cs cleanup fault) := by
  rw [region]
  refine bodies.attempt.bind fun r sound ↦ ?_
  have rest := windUp_ensures cleanups faults sound.2
  split
  · exact (handle_ensures clauses).bind fun r sound ↦ windUp_ensures cleanups faults sound
  · exact rest

theorem invoke_ensures {callee : String} {args : List Value} :
    Safe bound aims (invoke s callee args n) := by
  rw [invoke]
  split
  · cases args with
    | nil => exact .pure trivial
    | cons awaiter args => exact handOver_ensures.bind fun _ _ ↦ .pure trivial
  · exact callHost_ensures

theorem awaiterStep_ensures {question : AwaitStep} {v : Value} :
    Safe bound aims (awaiterStep question v n) := by
  refine cell_ensures.bind fun c _ ↦ ?_
  cases question with
  | acquire => exact .pure trivial
  | isCompleted => exact .pure trivial
  | getResult => exact result_ensures

theorem waitFor_ensures {acquire : Option String} {v : Value} :
    Safe bound aims (waitFor s acquire v n) := by
  have completed (i : Nat) (f : Future) : Safe bound aims (wait i f) := fun σ _ ↦ by
    rw [wait_apply]
    exact .ok (.of_eq rfl rfl) trivial
  cases acquire with
  | none => exact cell_ensures.bind fun c _ ↦ (completed c.1 c.2).bind fun _ _ ↦ result_ensures
  | some name =>
    refine invoke_ensures.bind fun awaiter _ ↦ cell_ensures.bind fun c _ ↦ ?_
    exact (completed c.1 c.2).bind fun _ _ ↦ result_ensures

theorem rethrow_ensures : Safe bound aims (rethrow s n) := by
  have get : Safe bound aims (get : Eval Frame) := fun σ _ ↦ .ok (.refl σ) trivial
  refine get.bind fun σ _ ↦ ?_
  split
  · exact leave_ensures (.thrown _)
  · exact fault_ensures (not_dangles rfl)

/-- One node is in scope if its children are. -/
theorem step_ensures {bound : SymbolId → Prop} (fuel : Nat) (within : n.Scoped bound)
    (own : ∀ id ∈ n.shape.ownTargets, aims id)
    (below : ∀ vs c, (vs, c) ∈ n.shape.scopes → ∀ seek,
      Safe (fun id ↦ id ∈ vs.map Variable.id ∨ bound id) aims (eval c seek))
    (seek : Option SymbolId) : Safe bound aims (step s eval fuel n seek) := by
  obtain ⟨i, sh⟩ := n
  obtain ⟨uses, -⟩ := Node.scoped_mk.1 within
  dsimp only [Node.shape] at own below
  -- A child for which the layer binds nothing.
  have plain {c : Node} (scope : ([], c) ∈ sh.scopes) (seek : Option SymbolId) :
      Safe bound aims (eval c seek) := fun σ slots ↦
    below [] c scope seek σ fun id inside ↦ slots id (inside.resolve_left List.not_mem_nil)
  cases sh with
  | block declared ns =>
    have inside (c) (member : c ∈ ns) := below declared c (List.mem_map_of_mem member)
    refine declare_ensures ?_
    cases seek with
    | none => exact statements_ensures inside fuel (List.Subset.refl _) none .unit
    | some label =>
      exact statements_ensures inside fuel (fromLabel_subset label ns) (some label) .unit
  | await o acquire result =>
    have operand := plain (List.mem_singleton.2 rfl) seek
    rw [step]
    simp only [Node.shape]
    split
    · exact operand.bind fun v _ ↦ waitFor_ensures
    · exact fault_ensures (not_dangles rfl)
  | awaiter question o =>
    exact (plain (List.mem_singleton.2 rfl) seek).bind fun v _ ↦ awaiterStep_ensures
  | region body cs cleanup fault =>
    have part {p : Node} (member : p ∈ cleanup.toList ++ fault.toList) :
        Safe bound aims (eval p none) :=
      plain (List.mem_append_right _ (List.mem_map_of_mem member)) none
    rw [step]
    simp only [Node.shape]
    split
    · exact fault_ensures (barred_not_dangles (by decide))
    · refine region_ensures (plain List.mem_cons_self none) (fun c member p child seek ↦ ?_)
        (fun p some ↦ part (List.mem_append_left _ (Option.mem_toList.2 some)))
        (fun p some ↦ part (List.mem_append_right _ (Option.mem_toList.2 some)))
      refine below c.binder.toList p (List.mem_append_left _ (List.mem_cons_of_mem _ ?_)) seek
      exact List.mem_flatMap.2 ⟨c, member, List.mem_map_of_mem child⟩
  | loop body breakLabel continueLabel =>
    exact loop_ensures (plain (List.mem_singleton.2 rfl)) breakLabel continueLabel fuel seek
  | label target => exact .pure trivial
  | goto target => exact leave_ensures (.of_jump (own target.id List.mem_cons_self))
  | switch value cases otherwise =>
    have child (c) (member : c ∈ value :: (cases.map Case.body ++ otherwise.toList)) :=
      plain (c := c) (List.mem_map_of_mem (by simpa [Shape.children] using member))
    rw [step]
    simp only [Node.shape]
    split
    · rename_i arm sought
      exact child arm (List.mem_cons_of_mem _ (soughtArm?_mem sought)) seek
    · exact selection_ensures child (fun _ _ ↦ caseFor_mem) fun _ _ ↦ caseFor_refused
  | branch test yes no =>
    have child (c) (member : c ∈ test :: (yes :: no.toList)) :=
      plain (c := c) (List.mem_map_of_mem member)
    rw [step]
    simp only [Node.shape]
    split
    · rename_i arm sought
      exact child arm (List.mem_cons_of_mem _ (soughtArm?_mem sought)) seek
    · exact selection_ensures child (fun _ _ ↦ sideFor_mem) fun _ _ ↦ sideFor_refused
  | lock guard body =>
    rw [step]
    simp only [Node.shape]
    split
    · exact fault_ensures (barred_not_dangles (by decide))
    · refine (plain List.mem_cons_self none).discard.bind fun _ _ ↦ ?_
      exact plain (List.mem_cons_of_mem _ (List.mem_singleton.2 rfl)) none
  | ret value =>
    cases value with
    | none => exact leave_ensures (.ret _)
    | some value =>
      exact (plain (List.mem_singleton.2 rfl) seek).bind fun v _ ↦ leave_ensures (.ret v)
  | raise value =>
    cases value with
    | none => exact rethrow_ensures
    | some value =>
      exact (plain (List.mem_singleton.2 rfl) seek).bind fun v _ ↦ leave_ensures (.thrown v)
  | assign target value =>
    refine (plain (List.mem_singleton.2 rfl) seek).bind fun v _ ↦ ?_
    exact (store_ensures (uses target List.mem_cons_self)).bind fun _ _ ↦ .pure trivial
  | binary op left right =>
    refine soughtOperand_ensures.bind fun entered _ ↦ ?_
    refine (plain List.mem_cons_self _).bind fun l _ ↦ ?_
    refine (plain (List.mem_cons_of_mem _ (List.mem_singleton.2 rfl)) _).bind fun r _ ↦ ?_
    exact binary_ensures
  | unary op o =>
    exact (plain (List.mem_singleton.2 rfl) seek).bind fun v _ ↦ unary_ensures
  | call callee args =>
    refine soughtOperand_ensures.bind fun entered _ ↦ ?_
    refine (Ensures.list fun operand member ↦ ?_).bind fun values _ ↦ invoke_ensures
    exact plain (List.mem_map_of_mem (List.fst_mem_of_mem_zipIdx member)) _
  | var source => exact load_ensures (uses source List.mem_cons_self)
  | const value => exact .pure trivial
  | defaultOf ty => exact .pure trivial

end Evaluator

open Eval in
/-- **Evaluations miss no name.** Where every variable of a tree has a slot, evaluating the tree
from its start or in search of a label loses no slot and finds each variable, and jumps that leave
the tree lead to targets of gotos in it. -/
theorem eval_ensures {s : Setting} {aims bound : SymbolId → Prop} (fuel : Nat) {n : Node}
    (within : n.Scoped bound) (targets : ∀ id ∈ n.targets, aims id) (seek : Option SymbolId) :
    Safe bound aims (eval s fuel n seek) := by
  induction fuel generalizing n bound seek with
  | zero => exact .throw .outOfFuel
  | succ fuel ih =>
    have noted {e : Event} : Safe bound aims (note s e) := by
      intro σ _
      rw [note_apply]
      exact .ok (.of_eq (noted_locals s σ _) (noted_persisted s σ _)) trivial
    refine noted.bind fun _ _ ↦ ?_
    obtain ⟨i, sh⟩ := n
    rw [Node.targets_mk] at targets
    refine Evaluator.step_ensures fuel within (fun id own ↦ targets id (List.mem_append_left _ own))
      (fun vs c scope seek ↦ ih ((Node.scoped_mk.1 within).2 vs c scope) (fun id inside ↦ ?_) seek)
      seek
    refine targets id (List.mem_append_right _ (List.mem_flatMap.2 ⟨c, ?_, inside⟩))
    rw [← sh.map_snd_scopes]
    exact List.mem_map_of_mem (f := Prod.snd) scope

/-! ### Jumps out of a block -/

open Evaluator in
/-- A jump that leaves the statements of a block leads to none of their labels. -/
theorem statements_catches {s : Setting} {eval : Evaluator} {all rest : List Node} {fuel : Nat}
    {seek : Option SymbolId} {last : Value} {σ : Frame} {label : SymbolId}
    (h : (statements s eval all fuel rest seek last σ).1 = .error (.jump label)) :
    ∀ n ∈ all, s.labels n label = false := by
  induction fuel generalizing rest seek last σ with
  | zero => cases rest <;> (rw [statements] at h; cases h)
  | succ fuel ih =>
    cases rest with
    | nil =>
      rw [statements] at h
      cases h
    | cons n rest =>
      rw [statements] at h
      dsimp only at h
      rcases eq : eval n seek σ with ⟨(jump | v | v | reason) | v, σ₁⟩
      · rw [eq] at h
        dsimp only at h
        split at h
        · rename_i none
          cases h
          intro m member
          have skipped := List.dropWhile_eq_nil_iff.1 none m member
          simpa using skipped
        · exact ih h
      · rw [eq] at h
        cases h
      · rw [eq] at h
        cases h
      · rw [eq] at h
        cases h
      · rw [eq] at h
        exact ih h

/-- A jump that leaves a body that is a block leads to no label in the body. -/
theorem eval_block_catches {s : Setting} {fuel : Nat} {root : Node} {seek : Option SymbolId}
    {σ : Frame} {label : SymbolId} (block : root.kind = .block) (distinct : root.ids.Nodup)
    (labels : s.labels = (LabelIndex.build root).contains)
    (h : (eval s fuel root seek σ).1 = .error (.jump label)) : label ∉ root.labelsWithin := by
  obtain ⟨i, sh⟩ := root
  cases sh with
  | block declared ns =>
    cases fuel with
    | zero => cases h
    | succ fuel =>
      rw [eval] at h
      dsimp only at h
      rw [Eval.bind_apply, Eval.note_apply] at h
      dsimp only at h
      rw [Evaluator.step] at h
      simp only [Node.shape] at h
      rw [Eval.bind_apply, Eval.declare_apply] at h
      have none := statements_catches h
      rw [Node.labelsWithin_mk]
      intro inside
      obtain ⟨n, member, inside⟩ := List.mem_flatMap.1 inside
      have found := none n member
      have inTree : n ∈ Node.walk ⟨i, .block declared ns⟩ :=
        Node.mem_walk_of_mem_children (Node.mem_walk_self n) member
      rw [labels, LabelIndex.build_contains distinct inTree] at found
      simp [inside] at found
  | _ => cases block

end Suspension
