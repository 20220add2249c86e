import Suspension.Proofs.Suspending.Running

/-!
# Leaving to wait

A body that takes a way out sets both copies of its state, hands over the awaiter and jumps to its
end (`IsSuspension.leaves`). The jump passes through everything around: blocks and loops do not
define its label, and a finally body is skipped, for the state is not negative
(`Layout.unwinds`). So nothing happens after the awaiter is handed over.
-/

namespace Suspension

open Steps Eval TransitionSystem

/-- A frame after some events that changed nothing but the record. -/
def Notes (allowed : Event → Prop) (σ σ' : Frame) : Prop :=
  ∃ new, σ' = { σ with moments := new ++ σ.moments } ∧
    ∀ m ∈ new, allowed m.event ∧ m.persisted = σ.persisted ∧ m.locals = σ.locals

namespace Notes

variable {allowed : Event → Prop} {σ σ' σ'' : Frame}

theorem refl (σ : Frame) : Notes allowed σ σ :=
  ⟨[], rfl, List.forall_mem_nil _⟩

theorem trans (h : Notes allowed σ σ') (h' : Notes allowed σ' σ'') : Notes allowed σ σ'' := by
  obtain ⟨new, rfl, all⟩ := h
  obtain ⟨new', rfl, all'⟩ := h'
  exact ⟨new' ++ new, by rw [List.append_assoc], List.forall_mem_append.2 ⟨all', all⟩⟩

/-- One event. -/
theorem noted (s : Setting) {e : Event} (h : allowed e) (σ : Frame) :
    Notes allowed σ (noted s e σ) := by
  rw [Eval.noted]
  split
  · exact ⟨[_], rfl, List.forall_mem_singleton.2 ⟨h, rfl, rfl⟩⟩
  · exact refl σ

theorem persisted (h : Notes allowed σ σ') : σ'.persisted = σ.persisted := by
  obtain ⟨new, rfl, -⟩ := h
  rfl

theorem locals (h : Notes allowed σ σ') : σ'.locals = σ.locals := by
  obtain ⟨new, rfl, -⟩ := h
  rfl

theorem awaiters (h : Notes allowed σ σ') : σ'.awaiters = σ.awaiters := by
  obtain ⟨new, rfl, -⟩ := h
  rfl

end Notes

/-- A frame after some events. -/
def Grows (allowed : Event → Prop) (σ σ' : Frame) : Prop :=
  ∃ new, σ'.moments = new ++ σ.moments ∧ ∀ m ∈ new, allowed m.event

namespace Grows

variable {allowed : Event → Prop} {σ σ' σ'' : Frame}

theorem trans (h : Grows allowed σ σ') (h' : Grows allowed σ' σ'') : Grows allowed σ σ'' := by
  obtain ⟨new, eq, all⟩ := h
  obtain ⟨new', eq', all'⟩ := h'
  exact ⟨new' ++ new, by rw [eq', eq, List.append_assoc], List.forall_mem_append.2 ⟨all', all⟩⟩

theorem mono {allowed' : Event → Prop} (h : Grows allowed σ σ') (le : ∀ e, allowed e → allowed' e) :
    Grows allowed' σ σ' := by
  obtain ⟨new, eq, all⟩ := h
  exact ⟨new, eq, fun m member ↦ le _ (all m member)⟩

/-- One event, with a change that leaves the record alone. -/
theorem noted (s : Setting) {e : Event} (h : allowed e) (σ : Frame)
    (same : σ'.moments = (Eval.noted s e σ).moments) : Grows allowed σ σ' := by
  rw [Eval.noted] at same
  split at same
  · exact ⟨[_], same, List.forall_mem_singleton.2 h⟩
  · exact ⟨[], same, List.forall_mem_nil _⟩

end Grows

theorem Notes.grows {allowed : Event → Prop} {σ σ' : Frame} (h : Notes allowed σ σ') :
    Grows allowed σ σ' := by
  obtain ⟨new, rfl, all⟩ := h
  exact ⟨new, rfl, fun m member ↦ (all m member).1⟩

/-- What happens at a way out before the awaiter is handed over: its nodes are visited, and the
state is set. -/
inductive Contract.BeforeHandOver (c : Contract) (d : Node) : Event → Prop
  | visit {n : Node} (within : n ∈ d.walk) : BeforeHandOver c d (.visit n.id none)
  | store {v : Variable} {value : Value} (state : v = c.state ∨ v = c.localState) :
    BeforeHandOver c d (.store v value)

/-- The nodes that are visited after an awaiter is handed over: the jump to the end, the conditions
that finally bodies are under, and the end. -/
inductive Lowered.LeavesBy (l : Lowered) : Node → Prop
  | jump (i : NodeId) : LeavesBy l ⟨i, .goto l.contract.exit⟩
  | guard {part g : Node} (guarded : IsGuarded l.contract part g) : LeavesBy l g
  | test {part g test n : Node} {no : Option Node} (guarded : IsGuarded l.contract part g)
    (within : g ∈ l.body.walk) (shape : g.shape = .branch test part no) (inside : n ∈ test.walk) :
    LeavesBy l n
  | exit (i : NodeId) : LeavesBy l ⟨i, .label l.contract.exit⟩

/-- What happens after an awaiter is handed over: the jump to the end of the body, and visits to
nodes on the way there. -/
def Lowered.AfterHandOver (l : Lowered) : Event → Prop
  | .visit i _ => ∀ n ∈ l.body.walk, n.id = i → l.LeavesBy n
  | .exit e => e = .jump l.contract.exit.id
  | _ => False

/-- What happens without an awaiter being asked anything. -/
def Lowered.AsksNothing (l : Lowered) : Event → Prop
  | .visit i _ => ∀ n ∈ l.body.walk, n.id = i → n.kind ≠ .awaiter
  | _ => True

theorem Lowered.LeavesBy.not_awaiter {l : Lowered} {n : Node} (h : l.LeavesBy n) :
    n.kind ≠ .awaiter := by
  cases h with
  | jump => rintro ⟨⟩
  | guard guarded =>
    cases guarded
    rintro ⟨⟩
  | test guarded _ branch inside =>
    cases guarded
    cases branch
    simp only [Node.walk_mk, Shape.children, List.flatMap_cons, List.flatMap_nil, List.append_nil,
      List.cons_append, List.nil_append, List.mem_cons, List.not_mem_nil, or_false] at inside
    rcases inside with rfl | rfl | rfl <;> rintro ⟨⟩
  | exit => rintro ⟨⟩

theorem Lowered.AfterHandOver.asksNothing {l : Lowered} {e : Event} (h : l.AfterHandOver e) :
    l.AsksNothing e := by
  cases e with
  | visit i seek => exact fun n within same ↦ (h n within same).not_awaiter
  | _ => trivial

section Straight

variable {s : Setting} {c : Contract} {K : List Steps.Task} {σ : Frame}

/-- Both copies of the state are set. -/
theorem IsUpdate.sets {value : Int64} {n d : Node} (h : IsUpdate c value n) (within : n ∈ d.walk)
    (outside : σ.locals.contains c.state.id = false)
    (slot : σ.persisted.contains c.state.id = true)
    (inner : σ.locals.contains c.localState.id = true) :
    ∃ σ', σ'.persisted = σ.persisted.insert c.state.id (.int value) ∧
      σ'.locals = σ.locals.insert c.localState.id (.int value) ∧ σ'.awaiters = σ.awaiters ∧
      σ'.host = σ.host ∧ Grows (c.BeforeHandOver d) σ σ' ∧
      (system s).Reaches ⟨.enter n none, K, σ⟩ ⟨.leave (.ok (.int value)), K, σ'⟩ := by
  cases h with
  | mk i j k =>
    have within' : (⟨j, .assign c.state ⟨k, .const (.int value)⟩⟩ : Node) ∈ d.walk :=
      Node.mem_children_walk List.mem_cons_self within
    have within'' : (⟨k, .const (.int value)⟩ : Node) ∈ d.walk :=
      Node.mem_children_walk List.mem_cons_self within'
    let σ₁ := noted s (.visit k none) (noted s (.visit j none) (noted s (.visit i none) σ))
    let σ₂ := { noted s (.store c.state (.int value)) σ₁ with
      persisted := σ₁.persisted.insert c.state.id (.int value) }
    let σ₃ := { noted s (.store c.localState (.int value)) σ₂ with
      locals := σ₂.locals.insert c.localState.id (.int value) }
    have set : assigned? s c.state (.int value) σ₁ = some σ₂ := by
      simp [assigned?, σ₂, σ₁, outside, slot]
    have set' : assigned? s c.localState (.int value) σ₂ = some σ₃ := by
      simp [assigned?, σ₃, σ₂, σ₁, inner]
    refine ⟨σ₃, by simp [σ₃, σ₂, σ₁], by simp [σ₃, σ₂, σ₁], by simp [σ₃, σ₂, σ₁],
      by simp [σ₃, σ₂, σ₁], ?_,
      (reaches_child rfl).trans ((reaches_child rfl).trans ((reaches_value rfl).trans
        ((reaches_assigned rfl set).trans (reaches_assigned rfl set'))))⟩
    exact (((Grows.noted s (.visit within) σ rfl).trans (.noted s (.visit within') _ rfl)).trans
      (.noted s (.visit within'') _ rfl)).trans
        ((Grows.noted s (.store (.inl rfl)) σ₁ rfl).trans (.noted s (.store (.inr rfl)) σ₂ rfl))

/-- An awaiter is handed over. -/
theorem reaches_handOver {i k : NodeId} {v : Variable} {awaiter : Value}
    (held : lookup σ v.id = some awaiter) :
    (system s).Reaches ⟨.enter ⟨i, .call onCompleted [⟨k, .var v⟩]⟩ none, K, σ⟩
      ⟨.leave (.ok .unit), K,
        { noted s (.handOver awaiter) (noted s (.visit k none) (noted s (.visit i none) σ)) with
          awaiters := σ.awaiters.push awaiter }⟩ := by
  have held' : lookup (noted s (.visit i none) σ) v.id = some awaiter := by
    rw [lookup, noted_locals, noted_persisted]
    exact held
  refine (reaches_child rfl).trans ((reaches_load held').trans (reaches_over ?_))
  simp only [leaveTo, nextOperand, perform, combine, Node.shape, List.nil_append,
    Evaluator.invoke, if_pos, bind_apply, handOver_apply, noted_awaiters]
  rfl

end Straight

/-! ### Trees -/

/-- What stands in a tree is not larger. -/
theorem Node.size_le_of_mem_walk {m n : Node} (h : m ∈ n.walk) : m.size ≤ n.size := by
  induction n using Node.induction with
  | step n ih =>
    rw [Node.walk_eq] at h
    rcases List.mem_cons.1 h with rfl | inside
    · exact Nat.le_refl _
    · obtain ⟨d, child, within⟩ := List.mem_flatMap.1 inside
      exact Nat.le_of_lt (Nat.lt_of_le_of_lt (ih d child within)
        (Node.size_lt_of_mem_children child))

/-- No task is above the root of a run. -/
theorem Steps.Lineage.root_tasks {root : Node} {K : List Steps.Task}
    (h : Lineage root root K) : K = [] := by
  cases h with
  | root => rfl
  | child outer awaits =>
    have above := Node.size_le_of_mem_walk outer.within
    have below := Node.size_lt_of_mem_children awaits.child
    omega

/-- A block waits for one of its statements. -/
theorem Steps.Task.Awaits.of_block {t : Steps.Task} {c : Node} (h : t.Awaits c)
    {declared : List Variable} {ns : List Node} (shape : t.node.shape = .block declared ns) :
    ∃ rest, t.stage = .statements rest := by
  obtain ⟨n, st⟩ := t
  obtain ⟨i, sh⟩ := n
  obtain rfl : sh = .block declared ns := shape
  obtain ⟨A, B, stages⟩ := h
  dsimp only at stages ⊢
  generalize same : st = st' at stages
  cases stages with
  | statements => exact ⟨_, rfl⟩
  | round shape => cases shape
  | operand same => cases same
  | operands same => exact absurd rfl same.not_block
  | test test => cases test
  | arm arm => cases arm
  | guard shape => cases shape
  | body shape => cases shape
  | filter ex clauses => simp [clausesOf, Node.shape] at clauses
  | handler member => cases member
  | fault outcomes part => cases part
  | cleanup outcomes part => cases part

theorem handlers_of_clause {n part : Node} {c : Clause Node} (member : c ∈ clausesOf n)
    (inside : part ∈ c.children) : part ∈ n.shape.handlers := by
  obtain ⟨i, sh⟩ := n
  cases sh with
  | region body cs cleanup fault =>
    exact List.mem_append_left _ (List.mem_append_left _ (List.mem_flatMap.2 ⟨c, member, inside⟩))
  | _ => cases member

theorem handlers_of_part {n part : Node}
    (h : (partsOf n).1 = some part ∨ (partsOf n).2 = some part) :
    part ∈ n.shape.handlers := by
  obtain ⟨i, sh⟩ := n
  cases sh with
  | region body cs cleanup fault =>
    rcases h with h | h
    · exact List.mem_append_left _ (List.mem_append_right _ (Option.mem_toList.2 h))
    · exact List.mem_append_right _ (Option.mem_toList.2 h)
  | _ => rcases h with h | h <;> cases h

/-- A part under the condition that the body is not on its way out does not run on the way out. -/
theorem IsGuarded.skips {s : Setting} {c : Contract} {K : List Steps.Task} {σ : Frame}
    {part g : Node} (h : IsGuarded c part g) {i : Int64}
    (held : lookup σ c.localState.id = some (.int i)) (suspended : ¬ i < 0) {allowed : Event → Prop}
    (guard : allowed (.visit g.id none)) (tests : ∀ test no, g.shape = .branch test part no →
      ∀ n ∈ test.walk, allowed (.visit n.id none)) :
    ∃ σ', Notes allowed σ σ' ∧
      (system s).Reaches ⟨.enter g none, K, σ⟩ ⟨.leave (.ok .unit), K, σ'⟩ := by
  cases h with
  | mk i₁ i₂ i₃ i₄ =>
    let state : Node := ⟨i₃, .var c.localState⟩
    let zero : Node := ⟨i₄, .const (.int 0)⟩
    let test : Node := ⟨i₂, .binary .lt state zero⟩
    let g : Node := ⟨i₁, .branch test part none⟩
    have visits := tests test none rfl
    have first : Notes allowed σ (noted s (.visit i₁ none) σ) := .noted s guard σ
    have second := first.trans (.noted s (visits test (Node.mem_walk_self test)) _)
    have third := second.trans (.noted s (visits state
      (Node.mem_children_walk List.mem_cons_self (Node.mem_walk_self test))) _)
    have last := third.trans (.noted s (visits zero (Node.mem_children_walk
      (List.mem_cons_of_mem _ List.mem_cons_self) (Node.mem_walk_self test))) _)
    have held' : lookup (noted s (.visit test.id none) (noted s (.visit i₁ none) σ))
        c.localState.id = some (.int i) := by
      rw [lookup, second.locals, second.persisted]
      exact held
    have fails (σ : Frame) : leaveTo s ⟨test, .operands [.int i] []⟩ (.ok (.int 0)) σ =
        give (.ok (.bool false)) σ := by
      have false : decide (i < 0) = false := decide_eq_false suspended
      simp only [leaveTo, nextOperand, perform, combine, test, Node.shape, List.cons_append,
        List.nil_append, binary, BinaryOp.apply, BinaryOp.onInts, false]
      rfl
    refine ⟨_, last, (@reaches_child _ _ _ _ _ .test _ _ _ rfl).trans
      ((@reaches_child _ _ _ _ _ (.operands [] [(zero, none)]) _ _ _ rfl).trans
        ((reaches_load held').trans ((reaches_sibling rfl).trans ((reaches_value rfl).trans
          ((reaches_over (fails _)).trans (reaches_over rfl))))))⟩

namespace Layout

variable {l : Lowered} (L : Layout l) {banned : String → Prop} {records : Bool}
variable {K : List Steps.Task} {σ : Frame}

include L in
/-- Visiting a node on the way to the end. -/
theorem after_visit {n : Node} (within : n ∈ l.body.walk) (leaves : l.LeavesBy n)
    (seek : Option SymbolId) : l.AfterHandOver (.visit n.id seek) := by
  intro m member same
  rw [List.inj_on_of_nodup_map L.ids member within same]
  exact leaves

include L in
/-- Visiting a node of a way out. -/
theorem asksNothing_visit {n d : Node} (within : n ∈ d.walk) (inside : d ∈ l.body.walk)
    (departs : d.Departs l.contract) : l.AsksNothing (.visit n.id none) := by
  intro m member same
  rw [List.inj_on_of_nodup_map L.ids member (Node.mem_walk_trans within inside) same]
  exact departs.not_awaiter within

include L in
/-- A body that takes a way out sets the state, hands over the awaiter, and jumps to its end. -/
theorem leaves {q : Point} {d : Node} (suspension : IsSuspension l.contract q d)
    (field : q.awaiter ∈ l.fields) (within : d ∈ l.body.walk) (h : l.Running banned σ) :
    ∃ awaiter σ₁ σ₂, σ.persisted.get? q.awaiter.id = some awaiter ∧
      Grows (l.contract.BeforeHandOver d)
        (noted (l.underway records banned).s (.visit d.id none) σ) σ₁ ∧
      σ₁.persisted = σ.persisted.insert l.contract.state.id (.int (Int64.ofNat q.index)) ∧
      σ₁.locals = σ.locals.insert l.contract.localState.id (.int (Int64.ofNat q.index)) ∧
      σ₁.host = σ.host ∧ Notes l.AfterHandOver
        { noted (l.underway records banned).s (.handOver awaiter) σ₁ with
        awaiters := σ.awaiters.push awaiter } σ₂ ∧
      (system (l.underway records banned).s).Reaches ⟨.enter d none, K, σ⟩
        ⟨.leave (.error (.jump l.contract.exit.id)), K, σ₂⟩ := by
  let s := (l.underway records banned).s
  have empty := IsSuspension.labelsWithin suspension
  have awaiters := L.added_apart.awaiters q.awaiter (L.fields ▸ field)
  have outside := h.outside q.awaiter.id (List.mem_cons_of_mem _ (List.mem_map_of_mem field))
  have slot := h.slots q.awaiter (List.mem_cons_of_mem _ (List.mem_append_right _ field))
  obtain ⟨awaiter, held⟩ := Option.isSome_iff_exists.1 slot
  cases suspension with
  | @mk i j k m wait update =>
    let handOver : Node := ⟨j, .call l.contract.notify [⟨k, .var q.awaiter⟩]⟩
    let leave : Node := ⟨m, .goto l.contract.exit⟩
    let d : Node := ⟨i, .block [] [wait, handOver, leave]⟩
    have exits : l.AfterHandOver (.exit (.jump l.contract.exit.id)) := rfl
    have withinWait : wait ∈ d.walk := Node.mem_children_walk List.mem_cons_self
      (Node.mem_walk_self d)
    have withinHandOver : handOver ∈ d.walk := Node.mem_children_walk
      (List.mem_cons_of_mem _ List.mem_cons_self) (Node.mem_walk_self d)
    have withinLeave : leave ∈ d.walk := Node.mem_children_walk
      (List.mem_cons_of_mem _ (List.mem_cons_of_mem _ List.mem_cons_self)) (Node.mem_walk_self d)
    have withinVar : (⟨k, .var q.awaiter⟩ : Node) ∈ d.walk :=
      Node.mem_children_walk List.mem_cons_self withinHandOver
    obtain ⟨σ₀, persisted, locals, same, host, grows, reach⟩ := @IsUpdate.sets s l.contract
      (⟨d, .statements [handOver, leave]⟩ :: K) (noted s (.visit d.id none) σ) _ _ d update
      withinWait
      (by rw [noted_locals, Store.contains, h.outside _ List.mem_cons_self]; rfl)
      (by rw [noted_persisted, Store.contains, h.state]; rfl)
      (by rw [noted_locals, Store.contains, h.localState]; rfl)
    rw [noted_persisted] at persisted
    rw [noted_locals] at locals
    rw [noted_awaiters] at same
    rw [noted_host] at host
    -- Both copies of the state were set, and the awaiter is in neither of them.
    have held' : lookup σ₀ q.awaiter.id = some awaiter := by
      rw [lookup, locals, persisted, Store.get?_insert, if_neg awaiters.2, outside,
        Store.get?_insert, if_neg awaiters.1]
      exact held
    let σ₁ := noted s (.visit k none) (noted s (.visit j none) σ₀)
    let σ₂ := { noted s (.handOver awaiter) σ₁ with awaiters := σ₀.awaiters.push awaiter }
    refine ⟨awaiter, σ₁, noted s (.exit (.jump l.contract.exit.id)) (noted s (.visit m none) σ₂),
      held, ?_, ?_, ?_, ?_, ?_, ?_⟩
    · exact grows.trans ((Grows.noted s (.visit withinHandOver) σ₀ rfl).trans
        (.noted s (.visit withinVar) _ rfl))
    · simp only [σ₁, noted_persisted, persisted]
    · simp only [σ₁, noted_locals, locals]
    · simp only [σ₁, noted_host, host]
    · rw [← same]
      exact (Notes.noted s (L.after_visit (Node.mem_walk_trans withinLeave within) (.jump m) none)
        σ₂).trans (.noted s exits _)
    · have handed := @reaches_handOver s (⟨d, .statements [leave]⟩ :: K) σ₀ j k q.awaiter
        awaiter held'
      rw [← L.notify] at handed
      refine (@reaches_child _ _ _ _ _ (.statements [handOver, leave]) _ _ _ rfl).trans (reach.trans
        ((reaches_sibling rfl).trans (handed.trans ((reaches_sibling rfl).trans
          ((reaches_goto m l.contract.exit).trans (reaches_outside fun c child ↦ ?_))))))
      have inside : c ∈ d.children := child
      refine (LabelIndex.build_contains L.ids (Node.mem_children_walk inside within) _).trans ?_
      rw [d.labelsWithin_eq, List.append_eq_nil_iff, List.flatMap_eq_nil_iff] at empty
      rw [empty.2 c inside]
      rfl

/-! ### The way to the end -/

include L in
/-- The end of a lowered body is in none of its parts. -/
theorem exit_free {n : Node} (within : n ∈ l.body.walk) (other : n ≠ l.body)
    (inner : n.children ≠ []) : l.contract.exit.id ∉ n.labelsWithin := by
  have expanded : l.contract.exit.id ∉ L.expanded.labelsWithin := by
    have name : l.contract.exit.id ∈ l.contract.names := by simp [Contract.names]
    intro found
    have pos := List.count_pos_iff.2 found
    rw [L.twin.count_labels, Node.labelsWithin_settle] at pos
    rcases Nat.eq_zero_or_pos (L.prepared.labelsWithin.count l.contract.exit.id) with none | some
    · have added := List.count_pos_iff.1
        (by omega : 0 < (L.added.labels.map Label.id).count l.contract.exit.id)
      exact (List.nodup_append.1 L.names).2.2 _ name _ (List.mem_append_right _ added) rfl
    · exact L.apart _ (List.mem_append_left _ name)
        (L.prepared.labelsWithin_symbols (List.count_pos_iff.1 some))
  rw [Node.walk_eq] at within
  obtain ⟨d, child, within⟩ := List.mem_flatMap.1 ((List.mem_cons.1 within).resolve_left other)
  intro found
  have found := Node.labelsWithin_subset within found
  have assembled := L.assembled
  generalize l.body = root at assembled child
  cases assembled with
  | mk i₀ i₁ i₂ i₃ i₄ i₅ i₆ i₇ =>
    simp only [Node.children, Node.shape, Shape.children, List.mem_cons, List.not_mem_nil,
      or_false] at child
    rcases child with rfl | rfl | rfl | rfl
    · cases found
    · simp [Node.labelsWithin_mk, Shape.children, Shape.ownLabels, L.twin.table_labels] at found
    · refine expanded ?_
      simpa [Node.labelsWithin_mk, Shape.children, Shape.ownLabels] using found
    · rw [Node.walk_mk] at within
      obtain rfl := List.mem_singleton.1 within
      exact inner rfl

omit L in
/-- A jump to a label that is nowhere in a loop leaves it. -/
theorem jump_leaves_round {s : Setting} {m body : Node} {breakLabel continueLabel : Option Label}
    {label : SymbolId} (shape : m.shape = .loop body breakLabel continueLabel)
    (free : label ∉ m.shape.ownLabels) (nowhere : s.labels body label = false) :
    leaveTo s ⟨m, .round⟩ (.error (.jump label)) σ = give (.error (.jump label)) σ := by
  rw [shape, Shape.ownLabels, List.map_append] at free
  have elsewhere {o : Option Label} (notOne : label ∉ o.toList.map Label.id) :
      o.any (·.id == label) = false := by
    cases o with
    | none => rfl
    | some other => exact beq_eq_false_iff_ne.2 fun same ↦ notOne (List.mem_singleton.2 same.symm)
  refine Lockstep.jumpInLoop_nowhere ⟨fun d member ↦ ?_, fun shape' ↦ ?_⟩
  · rw [statementsOf, shape] at member
    cases member
  · rw [shape] at shape'
    cases shape'
    exact ⟨nowhere, elsewhere fun inside ↦ free (List.mem_append_left _ inside),
      elsewhere fun inside ↦ free (List.mem_append_right _ inside)⟩

include L in
/-- The jump leaves a region behind its finally body, which is guarded and so does nothing. -/
theorem exit_leaves_body {m n : Node} {cs : List (Clause Node)} {cleanup fault : Option Node}
    {i : Int64} (within : m ∈ l.body.walk) (shape : m.shape = .region n cs cleanup fault)
    (lets : m.LetsOut l.contract) (leaves : ¬ n.Stays l.contract)
    (held : lookup σ l.contract.localState.id = some (.int i)) (suspended : ¬ i < 0) :
    ∃ σ', Notes l.AfterHandOver σ σ' ∧ (system (l.underway records banned).s).Reaches
      ⟨.leave (.error (.jump l.contract.exit.id)), ⟨m, .body⟩ :: K, σ⟩
      ⟨.leave (.error (.jump l.contract.exit.id)), K, σ'⟩ := by
  let s := (l.underway records banned).s
  have passing : Lockstep.Passing (.jump l.contract.exit.id) := ⟨by rintro _ ⟨⟩, by rintro _ ⟨⟩⟩
  rw [Node.LetsOut, shape] at lets
  have parts : (partsOf m).1 = cleanup := by
    rw [partsOf, shape]
  have runs : leaveTo s ⟨m, .body⟩ (.error (.jump l.contract.exit.id)) σ = _ :=
    (Lockstep.leaveTo_body_passing passing).trans
      ((Lockstep.runParts_passing passing).trans (Lockstep.runCleanup_passing passing))
  rw [parts] at runs
  cases cleanup with
  | none => exact ⟨σ, .refl σ, reaches_over runs⟩
  | some g =>
    obtain ⟨part, guarded⟩ := lets.2 leaves g List.mem_cons_self
    have inside : g ∈ l.body.walk := Node.mem_children_walk (by
      rw [Node.children, shape]
      simp [Shape.children]) within
    obtain ⟨σ', notes, reach⟩ := @IsGuarded.skips s _ (⟨m, .cleanup _⟩ :: K) _ _ _ guarded i held
      suspended l.AfterHandOver (L.after_visit inside (.guard guarded) none)
      fun test no shape d below ↦ by
        refine L.after_visit (Node.mem_walk_trans ?_ inside) (.test guarded inside shape below) none
        refine Node.mem_walk_trans below (Node.mem_children_walk ?_ (Node.mem_walk_self g))
        rw [Node.children, shape]
        exact List.mem_cons_self
    exact ⟨σ', notes, (reaches_sibling runs).trans (reach.trans (reaches_over rfl))⟩

include L in
/-- The jump to the end passes through every task on its way. -/
theorem passes_through {t : Steps.Task} {n : Node} {i : Int64} (awaits : t.Awaits n)
    (within : t.node ∈ l.body.walk) (other : t.node ≠ l.body)
    (passes : (l.underway records banned).Passes t) (leaves : ¬ n.Stays l.contract)
    (held : lookup σ l.contract.localState.id = some (.int i)) (suspended : ¬ i < 0) :
    ∃ σ', Notes l.AfterHandOver σ σ' ∧ (system (l.underway records banned).s).Reaches
      ⟨.leave (.error (.jump l.contract.exit.id)), t :: K, σ⟩
      ⟨.leave (.error (.jump l.contract.exit.id)), K, σ'⟩ := by
  let s := (l.underway records banned).s
  obtain ⟨m, st⟩ := t
  dsimp only at within other
  have child := awaits.child
  have free := L.exit_free within other (List.ne_nil_of_mem child)
  have nowhere {d : Node} (child : d ∈ m.children) : s.labels d l.contract.exit.id = false := by
    refine (LabelIndex.build_contains L.ids (Node.mem_children_walk child within) _).trans ?_
    refine Bool.eq_false_iff.2 fun found ↦ free ?_
    exact Node.labelsWithin_subset (Node.mem_children_walk child (Node.mem_walk_self m))
      (List.contains_iff_mem.1 found)
  -- A region is a node that the invariant admits, so that it lets the jump out.
  have letsOut {body : Node} {cs : List (Clause Node)} {cleanup fault : Option Node}
      (shape : m.shape = .region body cs cleanup fault) : m.LetsOut l.contract :=
    (passes.admits (Lockstep.not_block_of_region shape)).2.letsOut
  have notHandler (inside : n ∈ m.shape.handlers) : False := by
    cases shape : m.shape with
    | region body cs cleanup fault =>
      have lets := letsOut shape
      rw [Node.LetsOut, shape] at lets
      rw [shape] at inside
      exact leaves (lets.1 n inside)
    | _ => rw [shape] at inside; cases inside
  have goesOn (leave : leaveTo s ⟨m, st⟩ (.error (.jump l.contract.exit.id)) σ =
      give (.error (.jump l.contract.exit.id)) σ) : ∃ σ', Notes l.AfterHandOver σ σ' ∧
      (system s).Reaches ⟨.leave (.error (.jump l.contract.exit.id)), ⟨m, st⟩ :: K, σ⟩
        ⟨.leave (.error (.jump l.contract.exit.id)), K, σ'⟩ := ⟨σ, .refl σ, reaches_over leave⟩
  obtain ⟨A, B, stages⟩ := awaits
  dsimp only at stages
  generalize same : st = st' at stages
  cases stages with
  | statements shape =>
    subst same
    refine ⟨σ, .refl σ, reaches_outside fun d member ↦ nowhere ?_⟩
    rw [statementsOf, shape] at member
    rw [Node.children, shape]
    exact member
  | round shape =>
    subst same
    refine goesOn (jump_leaves_round shape (fun inside ↦ free ?_) (nowhere child))
    rw [m.labelsWithin_eq]
    exact List.mem_append_left _ inside
  | operand => subst same; exact goesOn rfl
  | operands => subst same; exact goesOn rfl
  | test => subst same; exact goesOn rfl
  | arm => subst same; exact goesOn rfl
  | guard => subst same; exact goesOn rfl
  | body shape =>
    subst same
    exact L.exit_leaves_body within shape (letsOut shape) leaves held suspended
  | filter ex clauses _ _ filter =>
    refine (notHandler (handlers_of_clause (clauses ▸ List.mem_append_right _ List.mem_cons_self)
      (List.mem_append_left _ (Option.mem_toList.2 filter)))).elim
  | handler member =>
    exact (notHandler (handlers_of_clause member (List.mem_append_right _ List.mem_cons_self))).elim
  | fault outcomes part => exact (notHandler (handlers_of_part (.inr part))).elim
  | cleanup outcomes part => exact (notHandler (handlers_of_part (.inl part))).elim

include L in
/-- At the top of the body the jump comes to its end. -/
theorem ends_at_exit (rest : List Node) (σ : Frame) :
    ∃ σ', Notes l.AfterHandOver σ σ' ∧ (system (l.underway records banned).s).Reaches
      ⟨.leave (.error (.jump l.contract.exit.id)), [⟨l.body, .statements rest⟩], σ⟩
      ⟨.leave (.ok .unit), [], σ'⟩ := by
  let s := (l.underway records banned).s
  obtain ⟨declared, load, dispatch, leave, i, shape, inner⟩ : ∃ declared load dispatch leave i,
      l.body.shape = .block declared [load, dispatch, leave, ⟨i, .label l.contract.exit⟩] ∧
        ∀ m ∈ [load, dispatch, leave], m.children ≠ [] := by
    have assembled := L.assembled
    generalize l.body = root at assembled
    cases assembled
    exact ⟨_, _, _, _, _, rfl, by simp [Node.children, Node.shape, Shape.children]⟩
  let exit : Node := ⟨i, .label l.contract.exit⟩
  have child {m : Node} (member : m ∈ [load, dispatch, leave, exit]) : m ∈ l.body.children := by
    rw [Node.children, shape]
    exact member
  have within {m : Node} (member : m ∈ [load, dispatch, leave, exit]) : m ∈ l.body.walk :=
    Node.mem_children_walk (child member) (Node.mem_walk_self l.body)
  have free : ∀ m ∈ [load, dispatch, leave], s.labels m l.contract.exit.id = false := by
    intro m member
    have among : m ∈ [load, dispatch, leave, exit] := List.mem_append_left [exit] member
    have other : m ≠ l.body := fun same ↦
      Nat.lt_irrefl _ (same ▸ Node.size_lt_of_mem_children (child among))
    refine (LabelIndex.build_contains L.ids (within among) _).trans ?_
    exact Bool.eq_false_iff.2 fun found ↦
      L.exit_free (within among) other (inner m member) (List.contains_iff_mem.1 found)
  have inside : exit ∈ [load, dispatch, leave, exit] :=
    List.mem_append_right [load, dispatch, leave] (List.mem_singleton_self exit)
  have found : s.labels exit l.contract.exit.id = true := by
    refine (LabelIndex.build_contains L.ids (within inside) _).trans ?_
    simp [exit, Node.labelsWithin_mk, Shape.ownLabels]
  have statements : statementsOf l.body = [load, dispatch, leave] ++ exit :: [] := by
    rw [statementsOf, shape]
    rfl
  exact ⟨_, .noted s (L.after_visit (within inside) (.exit i) _) σ,
    (reaches_target statements free found).trans ((reaches_value rfl).trans (reaches_over rfl))⟩

include L in
/-- The jump to the end of the body comes there, and does nothing on its way that could
be noticed. -/
theorem unwinds {n : Node} {i : Int64} (lineage : Lineage l.body n K)
    (passes : ∀ t ∈ K, (l.underway records banned).Passes t) (other : n ≠ l.body)
    (leaves : ¬ n.Stays l.contract) (held : lookup σ l.contract.localState.id = some (.int i))
    (suspended : ¬ i < 0) :
    ∃ σ', Notes l.AfterHandOver σ σ' ∧ (system (l.underway records banned).s).Reaches
      ⟨.leave (.error (.jump l.contract.exit.id)), K, σ⟩ ⟨.leave (.ok .unit), [], σ'⟩ := by
  induction lineage generalizing σ with
  | root => exact absurd rfl other
  | @child t n K outer awaits ih =>
    obtain ⟨passes, above⟩ := List.forall_mem_cons.1 passes
    by_cases top : t.node = l.body
    · obtain rfl : K = [] := (top ▸ outer).root_tasks
      obtain ⟨declared, ns, shape⟩ : ∃ declared ns, t.node.shape = .block declared ns := by
        have assembled := L.assembled
        rw [← top] at assembled
        generalize t.node = root at assembled
        cases assembled
        exact ⟨_, _, rfl⟩
      obtain ⟨rest, stage⟩ := awaits.of_block shape
      obtain ⟨m, st⟩ := t
      dsimp only at top stage
      subst top stage
      exact L.ends_at_exit rest σ
    · obtain ⟨σ₁, notes, reach⟩ :=
        L.passes_through awaits outer.within top passes leaves held suspended
      have around : ¬ t.node.Stays l.contract := fun stays ↦
        leaves fun m member ↦ stays m (Node.mem_walk_of_mem_children member awaits.child)
      have held' : lookup σ₁ l.contract.localState.id = some (.int i) := by
        rw [lookup, notes.locals, notes.persisted]
        exact held
      obtain ⟨σ₂, notes', reach'⟩ := ih above top around held'
      exact ⟨σ₂, notes.trans notes', reach.trans reach'⟩

end Layout

end Suspension
