import Suspension.Proofs.Steps.Agreement
import Suspension.Proofs.Suspending.Running
import Suspension.Proofs.Waiting.Hosts

/-!
# Frames of a run in one piece and in several

A body that waits for its futures runs in one piece; its lowered form may be left at every suspend
point, and loses the variables of the run with it. What the two runs have in common is what counts
at the place that they have come to: the variables that outlive the runs, those that the blocks and
clauses around bind, and the host, but for when futures are completed (`Alike`). Nodes tell no more
from their frames than that, so trees of one form go hand in hand (`Abreast.lawful`).
-/

namespace Suspension

namespace Steps

open Eval

/-- Frames that tell the same of what counts at a place. The variables that it is to `keep` outlive
the runs, and only the second run has those that are `new`. -/
structure Alike (keep new : SymbolId → Prop) (A : Scope) (σ τ : Frame) : Prop where
  host : σ.host.Alike τ.host
  handling : σ.handling = τ.handling
  kept : ∀ id, keep id → σ.locals.get? id = none ∧ τ.locals.get? id = none ∧
    ∃ v, σ.persisted.get? id = some v ∧ τ.persisted.get? id = some v
  others : ∀ id, ¬ keep id → ¬ new id → σ.persisted.get? id = none ∧ τ.persisted.get? id = none
  bound : ∀ id ∈ A.bound, ¬ keep id → ∃ v, σ.locals.get? id = some v ∧ τ.locals.get? id = some v
  held : ∀ p ∈ A.held, lookup σ p.1 = some p.2

/-- Ends of evaluations that are the same up to the place of a fault, and no jumps. -/
inductive SameEnding {α : Type} : Except Exit α → Except Exit α → Prop
  | value (a : α) : SameEnding (.ok a) (.ok a)
  | exit (e : Exit) (noJump : ∀ label, e ≠ .jump label) : SameEnding (.error e) (.error e)
  | fault (cause : FaultCause) (place place' : Option NodeId) : SameEnding
    (.error (.stop (.fault ⟨cause, place⟩))) (.error (.stop (.fault ⟨cause, place'⟩)))

theorem SameEnding.thrown {α : Type} (ex : Value) :
    SameEnding (.error (.thrown ex) : Except Exit α) (.error (.thrown ex)) :=
  .exit _ nofun

theorem SameEnding.outcomes {J : SymbolId → Prop} {E : Exit → Exit → Prop} {r r' : Outcome}
    (h : SameEnding r r') : Outcomes J E r r' := by
  cases h with
  | value v => exact .value v
  | fault cause place place' => exact .fault cause place place'
  | exit e noJump =>
    cases e with
    | jump label => exact absurd rfl (noJump label)
    | ret v => exact .ret v
    | thrown v => exact .thrown v
    | stop reason =>
      cases reason with
      | fault f => exact .fault f.cause f.node f.node
      | negationOverflow => exact .negationOverflow
      | outOfFuel => exact .outOfFuel

variable {keep new : SymbolId → Prop} {A B : Scope} {s s' : Setting} {σ τ : Frame}

/-- A variable of the run is assigned to. -/
theorem assigned_local {v : Variable} {value w : Value} (h : σ.locals.get? v.id = some w) :
    assigned? s v value σ =
      some { noted s (.store v value) σ with locals := σ.locals.insert v.id value } := by
  rw [assigned?, if_pos (by rw [Store.contains, h]; rfl)]

/-- A variable that outlives the run is assigned to. -/
theorem assigned_persisted {v : Variable} {value w : Value} (free : σ.locals.get? v.id = none)
    (h : σ.persisted.get? v.id = some w) : assigned? s v value σ =
      some { noted s (.store v value) σ with persisted := σ.persisted.insert v.id value } := by
  rw [assigned?, if_neg (by rw [Store.contains, free]; decide),
    if_pos (by rw [Store.contains, h]; rfl)]

namespace Alike

/-- Less may be in force. -/
theorem within (h : Alike keep new B σ τ) (le : A.Within B) : Alike keep new A σ τ :=
  { h with
    bound := fun id inside ↦ h.bound id (le.1 inside)
    held := fun p inside ↦ h.held p (le.2 inside) }

theorem noted (h : Alike keep new A σ τ) (s s' : Setting) (e e' : Event) :
    Alike keep new A (noted s e σ) (noted s' e' τ) where
  host := by simpa using h.host
  handling := by simpa using h.handling
  kept := by simpa using h.kept
  others := by simpa using h.others
  bound := by simpa using h.bound
  held := by simpa [lookup] using h.held

/-- What is bound around is read as the same, and as something. -/
theorem lookup_eq (h : Alike keep new A σ τ) {id : SymbolId} (known : id ∈ A.bound ∨ keep id) :
    ∃ v, lookup σ id = some v ∧ lookup τ id = some v := by
  by_cases stays : keep id
  · obtain ⟨free, free', v, value, value'⟩ := h.kept id stays
    exact ⟨v, by rw [lookup, free, value], by rw [lookup, free', value']⟩
  · obtain ⟨v, value, value'⟩ := h.bound id (known.resolve_right stays) stays
    exact ⟨v, by rw [lookup, value], by rw [lookup, value']⟩

/-- A variable of the run is given a value. -/
theorem insertLocal (h : Alike keep new A σ τ) {id : SymbolId} (other : ¬ keep id)
    (free : ∀ p ∈ A.held, p.1 ≠ id) (value : Value) : Alike keep new A
      { σ with locals := σ.locals.insert id value }
      { τ with locals := τ.locals.insert id value } := by
  refine { h with
    kept := fun j stays ↦ ?_
    bound := fun j inside notKept ↦ ?_
    held := fun p inside ↦ ?_ }
  · have apart : j ≠ id := by
      rintro rfl
      exact other stays
    simpa only [Store.get?_insert, if_neg apart] using h.kept j stays
  · simp only [Store.get?_insert]
    split
    · exact ⟨value, rfl, rfl⟩
    · exact h.bound j inside notKept
  · have held := h.held p inside
    simp only [lookup, Store.get?_insert, if_neg (free p inside)] at held ⊢
    exact held

/-- A variable that outlives the runs is given a value. -/
theorem insertPersisted (h : Alike keep new A σ τ) {id : SymbolId} (stays : keep id)
    (free : ∀ p ∈ A.held, p.1 ≠ id) (value : Value) : Alike keep new A
      { σ with persisted := σ.persisted.insert id value }
      { τ with persisted := τ.persisted.insert id value } := by
  refine { h with
    kept := fun j other ↦ ?_
    others := fun j other old ↦ ?_
    held := fun p inside ↦ ?_ }
  · obtain ⟨none, none', value⟩ := h.kept j other
    refine ⟨none, none', ?_⟩
    simp only [Store.get?_insert]
    split
    · exact ⟨_, rfl, rfl⟩
    · exact value
  · have apart : j ≠ id := by
      rintro rfl
      exact other stays
    simpa only [Store.get?_insert, if_neg apart] using h.others j other old
  · have held := h.held p inside
    simp only [lookup, Store.get?_insert, if_neg (free p inside)] at held ⊢
    exact held

/-- A variable that is bound around is assigned to in both runs. -/
theorem assigned (s s' : Setting) (h : Alike keep new A σ τ) {v : Variable}
    (known : v.id ∈ A.bound ∨ keep v.id)
    (free : ∀ p ∈ A.held, p.1 ≠ v.id) (value : Value) :
    ∃ σ' τ', assigned? s v value σ = some σ' ∧ assigned? s' v value τ = some τ' ∧
      Alike keep new A σ' τ' := by
  have told := h.noted s s' (.store v value) (.store v value)
  by_cases stays : keep v.id
  · obtain ⟨none, none', w, some, some'⟩ := h.kept v.id stays
    refine ⟨_, _, assigned_persisted none some, assigned_persisted none' some', ?_⟩
    rw [← noted_persisted s σ (.store v value), ← noted_persisted s' τ (.store v value)]
    exact told.insertPersisted stays free value
  · obtain ⟨w, some, some'⟩ := h.bound v.id (known.resolve_right stays) stays
    refine ⟨_, _, assigned_local some, assigned_local some', ?_⟩
    rw [← noted_locals s σ (.store v value), ← noted_locals s' τ (.store v value)]
    exact told.insertLocal stays free value

/-- The variables of a block start. -/
theorem declare (h : Alike keep new A σ τ) {vs : List Variable} (others : ∀ v ∈ vs, ¬ keep v.id)
    (free : ∀ v ∈ vs, ∀ p ∈ A.held, p.1 ≠ v.id) : Alike keep new (A.declare vs)
      { σ with locals := σ.locals.declare vs } { τ with locals := τ.locals.declare vs } := by
  have outside {id : SymbolId} (none : ∀ v ∈ vs, id ≠ v.id) : id ∉ vs.map Variable.id := by
    intro inside
    obtain ⟨v, member, same⟩ := List.mem_map.1 inside
    exact none v member same.symm
  refine { h with
    kept := fun j stays ↦ ?_
    bound := fun j inside notKept ↦ ?_
    held := fun p inside ↦ ?_ }
  · have apart := outside fun v member same ↦ others v member (same ▸ stays)
    simpa only [Store.get?_declare_of_notMem apart] using h.kept j stays
  · by_cases own : j ∈ vs.map Variable.id
    · obtain ⟨value, starts⟩ := Store.get?_declare_of_mem own
      exact ⟨value, starts _, starts _⟩
    · simp only [Store.get?_declare_of_notMem own]
      exact h.bound j ((List.mem_append.1 inside).resolve_left own) notKept
  · have held := h.held p inside
    simp only [lookup, Store.get?_declare_of_notMem (outside fun v member ↦ free v member p inside)]
      at held ⊢
    exact held

/-- The variable of a clause is bound. -/
theorem bind (h : Alike keep new A σ τ) {v : Variable} (old : ¬ new v.id)
    (free : ∀ p ∈ A.held, p.1 ≠ v.id) (value : Value) :
    Alike keep new (A.bind (some v)) (Eval.bound s v value σ) (Eval.bound s' v value τ) := by
  have told := h.noted s s' (.bind v value) (.bind v value)
  by_cases stays : keep v.id
  · obtain ⟨none, none', w, some, some'⟩ := h.kept v.id stays
    have has : σ.persisted.contains v.id = true := by rw [Store.contains, some]; rfl
    have has' : τ.persisted.contains v.id = true := by rw [Store.contains, some']; rfl
    rw [Eval.bound, Eval.bound, if_pos has, if_pos has']
    have after := told.insertPersisted stays free value
    rw [noted_persisted, noted_persisted] at after
    refine { after with bound := fun j inside notKept ↦ after.bound j ?_ notKept }
    refine (List.mem_append.1 inside).resolve_left fun own ↦ notKept ?_
    rw [List.mem_singleton.1 own]
    exact stays
  · -- The variable has no slot in storage, so both runs bind it among their own.
    obtain ⟨none, none'⟩ := h.others v.id stays old
    have has : σ.persisted.contains v.id = false := by rw [Store.contains, none]; rfl
    have has' : τ.persisted.contains v.id = false := by rw [Store.contains, none']; rfl
    rw [Eval.bound, Eval.bound, if_neg (by simp [has]), if_neg (by simp [has'])]
    have after := told.insertLocal stays free value
    rw [noted_locals, noted_locals] at after
    refine { after with bound := fun j inside notKept ↦ ?_ }
    rcases List.mem_append.1 inside with own | around
    · have same : j = v.id := List.mem_singleton.1 own
      exact ⟨value, by simp [same], by simp [same]⟩
    · exact after.bound j around notKept

/-- Operands that were evaluated are held. -/
theorem hold {before left : List Node} {done : List Value} {o : Node} {v : Value}
    (h : Alike keep new (A.hold before done (o :: left)) σ τ) (yields : Yields o (.ok v) σ)
    (length : done.length = before.length) :
    Alike keep new (A.hold (before ++ [o]) (done ++ [v]) left) σ τ := by
  rw [Scope.hold]
  split
  · rename_i suspends
    have all : (o :: left).any Node.containsAwait = true := by
      rw [List.any_cons, suspends, Bool.or_true]
    rw [Scope.hold, if_pos all] at h
    refine { h with held := fun p inside ↦ ?_ }
    have split : Scope.readsOf (before ++ [o]) (done ++ [v]) =
        Scope.readsOf before done ++ Scope.readsOf [o] [v] := by
      rw [Scope.readsOf, List.zip_append length.symm, List.filterMap_append]
      rfl
    rw [split, List.append_assoc] at inside
    rcases List.mem_append.1 inside with earlier | later
    · exact h.held p (List.mem_append_left _ earlier)
    · rcases List.mem_append.1 later with last | around
      · obtain ⟨i, sh⟩ := o
        cases sh with
        | var w =>
          obtain rfl := List.mem_singleton.1 last
          exact yields v rfl
        | _ => cases last
      · exact h.held p (List.mem_append_right _ around)
  · exact h.within (A.within_hold _ _ _)

/-- Where nothing is bound around, the variables that only the second run has make no difference. -/
theorem right {τ' : Frame} (h : Alike keep new A σ τ) (bare : A.bound = [])
    (old : ∀ id, keep id → ¬ new id) (host : σ.host.Alike τ'.host)
    (handling : τ'.handling = τ.handling)
    (locals : ∀ id, ¬ new id → τ'.locals.get? id = τ.locals.get? id)
    (persisted : ∀ id, ¬ new id → τ'.persisted.get? id = τ.persisted.get? id) :
    Alike keep new A σ τ' where
  host := host
  handling := h.handling.trans handling.symm
  kept id stays := by
    rw [locals id (old id stays), persisted id (old id stays)]
    exact h.kept id stays
  others id other notNew := by
    rw [persisted id notNew]
    exact h.others id other notNew
  bound id inside := by
    rw [bare] at inside
    cases inside
  held := h.held

end Alike

/-- The frames of two runs, the second of which is that of a lowered body. -/
structure Abreast (keep new : SymbolId → Prop) (l : Lowered) (A : Scope) (σ τ : Frame) : Prop where
  alike : Alike keep new A σ τ
  running : l.Running (fun _ ↦ False) τ

/-- A node that tells nothing of its frames but what is alike: it uses what is bound around or kept,
binds what is not held, and has nothing to do with futures. -/
structure Impartial (keep new : SymbolId → Prop) (A : Scope) (n : Node) : Prop where
  uses : ∀ v ∈ n.shape.uses, ¬ new v.id ∧ (v.id ∈ A.bound ∨ keep v.id)
  binds : ∀ v ∈ n.shape.declared ++ n.shape.binders, ¬ new v.id
  declares : ∀ v ∈ n.shape.declared, ¬ keep v.id
  held : ∀ id ∈ n.shape.ownSymbols, n.kind ≠ .var → ∀ p ∈ A.held, p.1 ≠ id
  targets : ∀ id ∈ n.shape.ownTargets, ¬ new id
  notAwait : n.kind ≠ .await
  notAwaiter : n.kind ≠ .awaiter
  notCall : n.kind ≠ .call

namespace Abreast

variable {l : Lowered}

theorem within (h : Abreast keep new l B σ τ) (le : A.Within B) : Abreast keep new l A σ τ :=
  ⟨h.alike.within le, h.running⟩

/-- Nothing is recorded. -/
theorem noted_mute {s : Setting} (mute : s.records = false) (e : Event) (σ : Frame) :
    Eval.noted s e σ = σ := by
  rw [Eval.noted, mute]
  rfl

/-- Where a node and one of its form go hand in hand, in two runs of which nothing is recorded. -/
def lockstep (keep new : SymbolId → Prop) (l : Lowered) (s s' : Setting) (n : Node)
    (Nodes : Scope → Node → Node → Prop) : Lockstep where
  s := s
  s' := s'
  Nodes := Nodes
  Frames := Abreast keep new l
  Jumps label := ¬ new label
  Escapes _ _ := False
  Admits A m _ := m = n ∧ Impartial keep new A m

/-! What happens in the second run alone -/

section Right

variable (bare : A.bound = []) (old : ∀ id, keep id → ¬ new id)

include bare old

/-- A variable that only the second run has is assigned to. -/
theorem assign_right (h : Abreast keep new l A σ τ) {v : Variable} {value : Value} {τ' : Frame}
    (set : assigned? s v value τ = some τ') (isNew : new v.id)
    (state : v.id = l.contract.state.id → value = .int Suspension.running)
    (localState : v.id = l.contract.localState.id → value = .int Suspension.running) :
    Abreast keep new l A σ τ' := by
  refine ⟨?_, h.running.assign set state localState⟩
  have apart {id : SymbolId} (other : ¬ new id) : id ≠ v.id := by
    rintro rfl
    exact other isNew
  rw [assigned?] at set
  split at set
  · cases set
    exact h.alike.right bare old (by simpa using h.alike.host) (by simp)
      (fun id other ↦ by simp [apart other]) fun id _ ↦ by simp
  · split at set
    · cases set
      exact h.alike.right bare old (by simpa using h.alike.host) (by simp) (fun id _ ↦ by simp)
        fun id other ↦ by simp [apart other]
    · cases set

/-- Variables that only the second run has start. -/
theorem declare_right (h : Abreast keep new l A σ τ) {vs : List Variable}
    (fresh : ∀ v ∈ vs, new v.id)
    (others : ∀ v ∈ vs,
      v.id ∉ l.contract.state.id :: l.contract.localState.id :: l.fields.map Variable.id) :
    Abreast keep new l A σ { τ with locals := τ.locals.declare vs } := by
  refine ⟨h.alike.right bare old h.alike.host rfl (fun id other ↦ ?_) fun _ _ ↦ rfl,
    h.running.declare others⟩
  refine Store.get?_declare_of_notMem (fun inside ↦ ?_) _
  obtain ⟨v, member, rfl⟩ := List.mem_map.1 inside
  exact other (fresh v member)

end Right

section Nodes

variable (mute : s.records = false) (mute' : s'.records = false) {n n' : Node}

include mute mute'

/-- An exit leaves the frames as they are. -/
theorem leave {e : Exit} (ends : Outcomes (fun label ↦ ¬ new label) (fun _ _ ↦ False)
      (.error e : Outcome) (.error e)) (h : Abreast keep new l A σ τ) :
    Outcomes (fun label ↦ ¬ new label) (fun _ _ ↦ False)
        ((Eval.leave s e : Eval Value) σ).1 ((Eval.leave s' e : Eval Value) τ).1 ∧
      Abreast keep new l A ((Eval.leave s e : Eval Value) σ).2
        ((Eval.leave s' e : Eval Value) τ).2 := by
  rw [leave_apply, leave_apply, noted_mute mute, noted_mute mute']
  exact ⟨ends, h⟩

theorem leaf (isLeaf : IsLeaf n.shape) (same : n.shape = n'.shape)
    (impartial : Impartial keep new A n)
    (h : Abreast keep new l A σ τ) :
    Outcomes (fun label ↦ ¬ new label) (fun _ _ ↦ False) (leaf s n σ).1 (leaf s' n' τ).1 ∧
      Abreast keep new l A (Steps.leaf s n σ).2 (Steps.leaf s' n' τ).2 := by
  obtain ⟨i, sh⟩ := n
  obtain ⟨i', sh'⟩ := n'
  obtain rfl : sh = sh' := same
  cases sh with
  | label => exact ⟨.value _, h⟩
  | const => exact ⟨.value _, h⟩
  | defaultOf => exact ⟨.value _, h⟩
  | goto target => exact leave mute mute' (.jump (impartial.targets _ List.mem_cons_self)) h
  | ret value =>
    cases value with
    | none => exact leave mute mute' (.ret _) h
    | some => exact isLeaf.elim
  | raise value =>
    cases value with
    | some => exact isLeaf.elim
    | none =>
      show Outcomes _ _ (Evaluator.rethrow s _ σ).1 (Evaluator.rethrow s' _ τ).1 ∧
        Abreast keep new l A (Evaluator.rethrow s _ σ).2 (Evaluator.rethrow s' _ τ).2
      unfold Evaluator.rethrow
      rw [bind_apply, bind_apply, get_apply, get_apply]
      dsimp only
      rw [← h.alike.handling]
      cases σ.handling with
      | nil => exact ⟨.fault _ _ _, h⟩
      | cons ex exs => exact leave mute mute' (.thrown ex) h
  | var v =>
    obtain ⟨value, found, found'⟩ :=
      h.alike.lookup_eq (impartial.uses v List.mem_cons_self).2
    show Outcomes _ _ (load v _ σ).1 (load v _ τ).1 ∧
      Abreast keep new l A (load v _ σ).2 (load v _ τ).2
    rw [load_apply, load_apply, found, found']
    exact ⟨.value value, h⟩
  | _ => exact isLeaf.elim

variable (names : ∀ id ∈ l.contract.state.id :: l.contract.localState.id ::
  l.fields.map Variable.id, new id)

include names

omit mute mute' in
/-- A variable is assigned to in both runs. -/
theorem assigned (s s' : Setting) (h : Abreast keep new l A σ τ) {v : Variable} (old : ¬ new v.id)
    (known : v.id ∈ A.bound ∨ keep v.id) (free : ∀ p ∈ A.held, p.1 ≠ v.id) (value : Value) :
    ∃ σ' τ', assigned? s v value σ = some σ' ∧ assigned? s' v value τ = some τ' ∧
      Abreast keep new l A σ' τ' := by
  obtain ⟨σ', τ', set, set', after⟩ := h.alike.assigned s s' known free value
  refine ⟨σ', τ', set, set', after, h.running.assign set' ?_ ?_⟩
  · intro same
    exact absurd (names _ (same ▸ List.mem_cons_self)) old
  · intro same
    exact absurd (names _ (same ▸ List.mem_cons_of_mem _ List.mem_cons_self)) old

theorem finish {o o' : Node} {v : Value} (same : SameUnary n.shape n'.shape o o')
    (impartial : Impartial keep new A n) (h : Abreast keep new l A σ τ) :
    Outcomes (fun label ↦ ¬ new label) (fun _ _ ↦ False) (finish s n v σ).1 (finish s' n' v τ).1 ∧
      Abreast keep new l A (Steps.finish s n v σ).2 (Steps.finish s' n' v τ).2 := by
  obtain ⟨i, sh⟩ := n
  obtain ⟨i', sh'⟩ := n'
  dsimp only [Node.shape] at same
  cases same with
  | await => exact absurd rfl impartial.notAwait
  | awaiter => exact absurd rfl impartial.notAwaiter
  | ret => exact leave mute mute' (.ret v) h
  | raise => exact leave mute mute' (.thrown v) h
  | assign _ _ target =>
    obtain ⟨old, known⟩ := impartial.uses target List.mem_cons_self
    obtain ⟨σ', τ', set, set', after⟩ := h.assigned names s s' old known
      (fun p inside ↦ impartial.held target.id List.mem_cons_self nofun p inside) v
    show Outcomes _ _ ((store s target v _ >>= fun _ ↦ pure v : Eval Value) σ).1
        ((store s' target v _ >>= fun _ ↦ pure v : Eval Value) τ).1 ∧
      Abreast keep new l A ((store s target v _ >>= fun _ ↦ pure v : Eval Value) σ).2
        ((store s' target v _ >>= fun _ ↦ pure v : Eval Value) τ).2
    rw [bind_apply, bind_apply, store_apply, store_apply, set, set']
    exact ⟨.value v, after⟩
  | unary _ _ op =>
    show Outcomes _ _ (unary op v _ σ).1 (unary op v _ τ).1 ∧
      Abreast keep new l A (unary op v _ σ).2 (unary op v _ τ).2
    rw [unary_frame, unary_frame]
    refine ⟨?_, h⟩
    unfold Eval.unary
    split
    · split
      · exact .negationOverflow
      · exact .value _
    · exact .fault _ _ _
    · cases v.asBool? with
      | some b => exact .value _
      | none => exact .fault _ _ _

omit mute mute' names in
theorem combine {os os' : List Node} {vs : List Value} (same : SameOperands n.shape n'.shape os os')
    (impartial : Impartial keep new A n) (h : Abreast keep new l A σ τ) :
    Outcomes (fun label ↦ ¬ new label) (fun _ _ ↦ False) (combine s n vs σ).1
        (combine s' n' vs τ).1 ∧
      Abreast keep new l A (Steps.combine s n vs σ).2 (Steps.combine s' n' vs τ).2 := by
  obtain ⟨i, sh⟩ := n
  obtain ⟨i', sh'⟩ := n'
  dsimp only [Node.shape] at same
  cases same with
  | call => exact absurd rfl impartial.notCall
  | binary op l r l' r' =>
    match vs with
    | [v, w] =>
      show Outcomes _ _ (binary op v w _ σ).1 (binary op v w _ τ).1 ∧
        Abreast keep new _ A (binary op v w _ σ).2 (binary op v w _ τ).2
      rw [binary_frame, binary_frame]
      refine ⟨?_, h⟩
      unfold Eval.binary
      rcases op.apply v w with - | (ex | value)
      · exact .fault _ _ _
      · exact .thrown _
      · exact .value _
    | [] => exact ⟨.value _, h⟩
    | [_] => exact ⟨.value _, h⟩
    | _ :: _ :: _ :: _ => exact ⟨.value _, h⟩

/-- Nodes of one form go hand in hand where they are impartial. -/
theorem lawful {n : Node} {Nodes : Scope → Node → Node → Prop}
    (labels : ∀ {A n n'}, Nodes A n n' → ∀ label, ¬ new label →
      s.labels n label = s'.labels n' label)
    (stable : ∀ {B sh' os os' o o'}, SameOperands n.shape sh' os os' → Nodes B o o' →
      o.isStable = o'.isStable) :
    (lockstep keep new l s s' n Nodes).Lawful where
  waits admits shape := by
    have kind := admits.2.notAwait
    rw [Node.kind, shape] at kind
    exact absurd rfl kind
  labels related old := labels related _ old
  stable same admits := by
    obtain ⟨rfl, -⟩ := admits
    exact stable same
  passing := False.elim
  escapes := False.elim
  escapes' := False.elim
  elsewhere := False.elim
  elsewhere' := False.elim
  within le h := h.within le
  handling h := h.alike.handling
  handle exs h := ⟨{ h.alike with handling := rfl }, { h.running with }⟩
  visit _ h := by
    simpa only [lockstep, noted_mute mute, noted_mute mute'] using h
  declare {A n n' declared ns σ σ'} admits shape h := by
    have declared_eq : n.shape.declared = declared := by rw [shape]; rfl
    have own : n.shape.ownSymbols = declared.map Variable.id := by rw [shape]; rfl
    -- A layer that declares is not itself a use of a variable.
    have kind : n.kind ≠ .var := by
      intro same
      rw [Node.kind, shape] at same
      cases same
    refine ⟨h.alike.declare (fun v member ↦ admits.2.declares v (declared_eq ▸ member))
      fun v member ↦ ?_, h.running.declare fun v member inside ↦ ?_⟩
    · exact admits.2.held v.id (own ▸ List.mem_map_of_mem member) kind
    · exact admits.2.binds v (List.mem_append_left _ (declared_eq ▸ member)) (names _ inside)
  bind {A n n' body cs cleanup fault clause v ex σ σ'} admits shape member bound h := by
    have binders : v ∈ n.shape.binders := by
      rw [shape]
      exact List.mem_filterMap.2 ⟨clause, member, bound⟩
    have own : v.id ∈ n.shape.ownSymbols := by
      rw [shape]
      exact List.mem_map_of_mem (List.mem_filterMap.2 ⟨clause, member, bound⟩)
    have kind : n.kind ≠ .var := by
      intro same
      rw [Node.kind, shape] at same
      cases same
    have old := admits.2.binds v (List.mem_append_right _ binders)
    exact ⟨h.alike.bind old (admits.2.held v.id own kind) ex,
      h.running.bind fun inside ↦ old (names _ inside)⟩
  hold h yields length := ⟨h.alike.hold yields length, h.running⟩
  leaf isLeaf same admits h := h.leaf mute mute' isLeaf same admits.2
  finish same admits _ h := h.finish mute mute' names same admits.2
  combine same admits h := h.combine same admits.2

end Nodes

/-! Operations of the host -/

/-- The host of the first run may differ in when futures are completed. -/
theorem host_left {host : Host} (h : Abreast keep new l A σ τ) (alike : host.Alike τ.host) :
    Abreast keep new l A { σ with host } τ :=
  ⟨{ h.alike with host := alike }, h.running⟩

theorem called (h : Abreast keep new l A σ τ) {callee : String} {vs vs' : List Value}
    (given : Given callee vs vs') (discreet : Host.Discreet callee vs) :
    (σ.host.call callee vs).1 = (τ.host.call callee vs').1 ∧
      Abreast keep new l A (Eval.called callee vs σ) (Eval.called callee vs' τ) := by
  obtain ⟨same, alike⟩ := h.alike.host.call given discreet
  exact ⟨same, { h.alike with host := alike }, { h.running with }⟩

/-- An operation answers both runs alike. -/
theorem invoke (s s' : Setting) (n n' : Node) (mute : s.records = false)
    (mute' : s'.records = false)
    {callee : String} {vs vs' : List Value} (h : Abreast keep new l A σ τ)
    (given : Given callee vs vs')
    (discreet : Host.Discreet callee vs) :
    SameEnding (Evaluator.invoke s callee vs n σ).1 (Evaluator.invoke s' callee vs' n' τ).1 ∧
      Abreast keep new l A (Evaluator.invoke s callee vs n σ).2
        (Evaluator.invoke s' callee vs' n' τ).2 := by
  rw [Evaluator.invoke, Evaluator.invoke]
  split
  · rename_i handsOver
    obtain rfl : vs = vs' := by
      cases given with
      | same => rfl
      | steps takes =>
        rw [handsOver] at takes
        cases takes
    cases vs with
    | nil => exact ⟨.value _, h⟩
    | cons awaiter vs =>
      dsimp only
      rw [bind_apply, bind_apply, handOver_apply, handOver_apply, noted_mute mute, noted_mute mute']
      exact ⟨.value _, { h.alike with }, { h.running with silent := False.elim }⟩
  · obtain ⟨same, after⟩ := h.called given discreet
    rw [callHost_apply, callHost_apply, same]
    split
    · exact ⟨.fault _ _ _, after⟩
    · rw [noted_mute mute, noted_mute mute']
      exact ⟨.value _, after⟩
    · rw [noted_mute mute, noted_mute mute']
      exact ⟨.thrown _, after⟩

end Abreast

end Steps

end Suspension
