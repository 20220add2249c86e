import Suspension.Proofs.Sessions
import Suspension.Proofs.Spilling.Storing
import Suspension.Proofs.Steps.Reaching
import Suspension.Proofs.Steps.Records
import Suspension.Proofs.Unsuspended.Copies

/-!
# Machines of bodies without suspend points

The machine of a body without suspend points is done in one move, and the move does what a run of
the body does (`Node.lower_plain`).

The copy that the machine runs is evaluated as the body is, for both have one form and hold their
labels in the same places. Around it stand the dispatch, which has nothing to do, and a return. So a
value becomes a returned value, and every other end stays, with one exception: the block around the
copy is one more place that jumps may lead to. A jump that leaves the body is a fault of the run,
but if the body defines its label, the block enters the copy again.
-/

namespace Suspension

open Steps Eval TransitionSystem

/-! ### A body and its copy -/

/-- How a body is run as it stands: suspend points are faults, and what happens is recorded. -/
def Node.recorded (n : Node) : Setting where
  labels := LabelIndex.build n
  records := true

/-- A node of a tree, and its copy in another tree. -/
structure Node.CopiesTo (root root' n n' : Node) : Prop where
  made : ∃ s s', runs n.copy s n' s'
  within : n ∈ root.walk
  within' : n' ∈ root'.walk

/-- A body and a tree with a copy of it. Nothing is stored. -/
def Node.copying (body root : Node) (base : Nat) : Storing where
  s := body.recorded
  s' := root.recorded
  base := base
  Nodes _ := CopiesTo body root

namespace Node

variable {body root inner : Node} {supply : Supply}

/-- Copies have one form. -/
theorem CopiesTo.unfolds (older : body.Older supply) {held : Held} {n n' : Node}
    (h : CopiesTo body root n n') : (copying body root supply.symbol).Unfolds held n n' := by
  obtain ⟨s, s', run⟩ := h.made
  rw [copy_eq, runs_bind] at run
  obtain ⟨sh, s₁, children, step⟩ := run
  obtain ⟨x, source, rfl, threads⟩ := Runs.shape (f := copy)
    (Q := fun n s n' s' (_ : Unit) ↦ runs n.copy s n' s') (fun a child _ _ _ run ↦ ⟨(), run⟩)
    children
  cases step
  refine .layer ?_ fun id own ↦ older id (List.mem_flatMap.2 ⟨n, h.within, own⟩)
  rw [← source]
  refine .of_map fun y member _ ↦ ⟨?_, ?_, ?_⟩
  · obtain ⟨s₂, s₃, made⟩ := threads.of_mem member
    exact ⟨s₂, s₃, made⟩
  · refine mem_children_walk ?_ h.within
    rw [Node.children, ← source, Shape.children_map]
    exact List.mem_map_of_mem member
  · refine mem_children_walk ?_ h.within'
    rw [Node.children, Node.shape, Shape.children_map]
    exact List.mem_map_of_mem member

theorem CopiesTo.labels (numbered : body.Numbered) (distinct : root.ids.Nodup) {n n' : Node}
    (h : CopiesTo body root n n') (label : SymbolId) :
    body.recorded.labels n label = root.recorded.labels n' label := by
  obtain ⟨s, s', run⟩ := h.made
  show (LabelIndex.build body).contains n label = (LabelIndex.build root).contains n' label
  rw [LabelIndex.build_contains_of_numbered numbered h.within,
    LabelIndex.build_contains distinct h.within', ← labelsWithin_unnumbered n',
    (copied run).same, labelsWithin_unnumbered]

theorem copying_lawful (older : body.Older supply) (numbered : body.Numbered)
    (distinct : root.ids.Nodup) : (copying body root supply.symbol).Lawful where
  waits := rfl
  records := rfl
  labels h := h.labels numbered distinct
  passes h :=
    passesOn (fun _ within _ ↦ LabelIndex.build_contains_of_numbered numbered within _) _ h.within
  unfolds h := h.unfolds older

end Node

/-! ### Around the copy -/

section Around

variable {s : Setting} {c : Contract} {inner root : Node} {base : Nat} {store store' : Store}
  {host : Host}

/-- A frame of a machine before it comes to the body: the state can be read, its copy has a slot,
and nothing has happened that the body could tell. -/
structure Outset (c : Contract) (base : Nat) (i : Int64) (origin σ : Frame) : Prop where
  state : lookup σ c.state.id = some (.int i)
  copy : σ.locals.contains c.localState.id = true
  agree : Agree base [] origin σ

namespace Outset

variable {i : Int64} {origin σ : Frame}

/-- A machine declares the copy of its state. -/
theorem start (j : NodeId) (slot : store'.get? c.state.id = some (.int i))
    (apart : c.state.id ≠ c.localState.id) (new : base ≤ c.localState.id.toNat)
    (same : ∀ id : SymbolId, id.toNat < base → store.get? id = store'.get? id) :
    Outset c base i { persisted := store, host }
      { noted s (.visit j none) { persisted := store', host } with
        locals := (noted s (.visit j none) { persisted := store', host }).locals.declare
          [c.localState] } where
  state := by
    have free : c.state.id ∉ [c.localState].map Variable.id := by simpa using apart
    -- The block has a slot for the copy only, so the state is read from the storage.
    rw [lookup, noted_persisted, noted_locals, Store.get?_declare_of_notMem free]
    exact slot
  copy := Store.contains_declare (.inl List.mem_cons_self)
  agree := by
    have began : Agree base [] ({ persisted := store, host } : Frame)
        { persisted := store', host } :=
      ⟨fun _ _ ↦ rfl, same, rfl, rfl, rfl, rfl, List.forall_mem_nil _⟩
    have young : ∀ id ∈ [c.localState].map Variable.id,
        base ≤ id.toNat ∧ ∀ p ∈ ([] : Held), p.1 ≠ id := by simpa using new
    have visited : Agree base [] _ (noted s (.visit j none) { persisted := store', host }) :=
      began.noted_right rfl
    obtain ⟨known, -, -, declared⟩ := visited.declare_right young
    exact declared.forget

theorem visit (h : Outset c base i origin σ) (j : NodeId) :
    Outset c base i origin (noted s (.visit j none) σ) where
  state := by
    rw [lookup, noted_locals, noted_persisted]
    exact h.state
  copy := by rw [noted_locals, h.copy]
  agree := h.agree.noted_right rfl

/-- The state is copied. -/
theorem copied (h : Outset c base i origin σ) (new : base ≤ c.localState.id.toNat) :
    ∃ σ', assigned? s c.localState (.int i) σ = some σ' ∧
      lookup σ' c.localState.id = some (.int i) ∧ Agree base [] origin σ' := by
  have set : assigned? s c.localState (.int i) σ =
      some { noted s (.store c.localState (.int i)) σ with
        locals := σ.locals.insert c.localState.id (.int i) } := by rw [assigned?, if_pos h.copy]
  have stored : Agree base ([] ++ []) origin (noted s (.store c.localState (.int i)) σ) :=
    h.agree.noted_right rfl
  have inserted := stored.insert_right new (List.forall_mem_nil _) (.int i)
  rw [noted_locals] at inserted
  exact ⟨_, set, lookup_assigned s σ set, inserted.forget⟩

end Outset

/-- The machine comes to the body behind a dispatch without cases, and nothing happens before. -/
theorem IsAssembled.enters (assembled : IsAssembled c inner [] root) {i : Int64}
    (slot : store'.get? c.state.id = some (.int i)) (apart : c.state.id ≠ c.localState.id)
    (new : base ≤ c.localState.id.toNat)
    (same : ∀ id : SymbolId, id.toNat < base → store.get? id = store'.get? id) :
    ∃ j rest σ, (system s).Reaches (start root none { persisted := store', host })
      ⟨.enter inner none, [⟨⟨j, .ret (some inner)⟩, .operand⟩, ⟨root, .statements rest⟩], σ⟩ ∧
      Agree base [] { persisted := store, host } σ := by
  cases assembled with
  | mk i₀ i₁ i₂ i₃ i₄ i₅ i₆ i₇ =>
    let load : Node := ⟨i₁, .assign c.localState ⟨i₂, .var c.state⟩⟩
    let dispatch : Node :=
      ⟨i₃, .switch ⟨i₄, .var c.localState⟩ [] (some ⟨i₅, .defaultOf .unit⟩)⟩
    let leave : Node := ⟨i₆, .ret (some inner)⟩
    let exit : Node := ⟨i₇, .label c.exit⟩
    let root : Node := ⟨i₀, .block [c.localState] [load, dispatch, leave, exit]⟩
    have first := @Outset.start s c base store store' host i i₀ slot apart new same
    have second := first.visit (s := s) i₁
    obtain ⟨τ, set, copied, third⟩ := (second.visit (s := s) i₂).copied (s := s) new
    have copied' : lookup (noted s (.visit i₃ none) τ) c.localState.id = some (.int i) := by
      rw [lookup, noted_locals, noted_persisted]
      exact copied
    have fourth : Agree base [] _ (noted s (.visit i₄ none) (noted s (.visit i₃ none) τ)) :=
      (third.noted_right rfl).noted_right rfl
    have fifth : Agree base [] _ (noted s (.visit i₆ none) (noted s (.visit i₅ none)
        (noted s (.visit i₄ none) (noted s (.visit i₃ none) τ)))) :=
      (fourth.noted_right rfl).noted_right rfl
    refine ⟨i₆, [exit], _, ?_, fifth⟩
    have loads : (system s).Reaches (start root none { persisted := store', host })
        ⟨.leave (.ok (.int i)), [⟨root, .statements [dispatch, leave, exit]⟩], τ⟩ :=
      (@reaches_child _ _ _ _ _ (.statements _) _ _ _ rfl).trans
        ((reaches_child rfl).trans ((reaches_load second.state).trans (reaches_assigned rfl set)))
    have passes : (system s).Reaches
        ⟨.leave (.ok (.int i)), [⟨root, .statements [dispatch, leave, exit]⟩], τ⟩
        ⟨.leave (.ok .unit), [⟨root, .statements [leave, exit]⟩], _⟩ :=
      (reaches_sibling rfl).trans ((reaches_child rfl).trans ((reaches_load copied').trans
        ((reaches_sibling rfl).trans ((reaches_value rfl).trans (reaches_over rfl)))))
    exact loads.trans (passes.trans ((reaches_sibling rfl).trans (reaches_child rfl)))

/-- What a body ends as that is returned. -/
def returned : Outcome → Outcome
  | .ok v => .error (.ret v)
  | .error e => .error e

/-- Leaving to a return in a block that no jump leads back into. -/
theorem reaches_returned {j : NodeId} {rest : List Node} {r : Outcome} {σ τ : Frame}
    (free : ∀ label, r = .error (.jump label) → ∀ m ∈ statementsOf root, s.labels m label = false)
    (frames : Agree base [] σ τ) : ∃ τ', (system s).Reaches
      ⟨.leave r, [⟨⟨j, .ret (some inner)⟩, .operand⟩, ⟨root, .statements rest⟩], τ⟩
      ⟨.leave (returned r), [], τ'⟩ ∧ Agree base [] σ τ' := by
  cases r with
  | ok v =>
    have left : finish s ⟨j, .ret (some inner)⟩ v τ =
        (.error (.ret v), noted s (.exit (.ret v)) τ) := leave_apply s τ _
    refine ⟨noted s (.exit (.ret v)) τ, ?_, frames.noted_right rfl⟩
    refine reaches_leave (m := give (.error (.ret v)) (noted s (.exit (.ret v)) τ)) ?_
      (reaches_over rfl)
    show perform (finish s ⟨j, .ret (some inner)⟩ v) τ = _
    rw [perform, left]
  | error e =>
    refine ⟨τ, (reaches_over rfl).trans ?_, frames⟩
    cases e with
    | jump label => exact reaches_outside (free label rfl)
    | _ => exact reaches_over rfl

end Around

/-! ### Around a copy -/

/-- The symbols of a fresh contract are new, and no two of them are one. -/
theorem Contract.fresh_names {notify : String} {supply : Supply}
    (whole : (Contract.fresh notify supply).2.Whole) :
    (∀ id ∈ (Contract.fresh notify supply).1.names, supply.symbol ≤ id.toNat) ∧
      (Contract.fresh notify supply).1.names.Nodup := by
  obtain ⟨-, -, -, names⟩ := runs_fresh (s := supply) (c := (Contract.fresh notify supply).1) rfl
  rw [names]
  exact ⟨fun id inside ↦ (Supply.mem_fresh whole inside).1, Supply.fresh_nodup whole⟩

/-- A lowered body around a copy of a tree whose symbols are older than those around it. -/
structure Lowered.Encloses (l : Lowered) (body inner : Node) (supply : Supply) : Prop extends
    l.Wraps body inner where
  older : body.Older supply
  numbered : body.Numbered
  new : ∀ id ∈ l.contract.names, supply.symbol ≤ id.toNat
  distinct : l.contract.names.Nodup

namespace Lowered.Encloses

variable {l : Lowered} {body inner : Node} {supply : Supply} (h : l.Encloses body inner supply)

include h

theorem copies : Node.CopiesTo body l.body body inner :=
  ⟨h.made, Node.mem_walk_self _, h.assembled.within⟩

theorem lawful : (body.copying l.body supply.symbol).Lawful :=
  Node.copying_lawful h.older h.numbered h.ids

theorem passes : ∀ n ∈ body.walk, PassesOn body.recorded n :=
  passesOn fun _ within _ ↦ LabelIndex.build_contains_of_numbered h.numbered within _

/-- A jump to an old label that the tree does not define leaves the lowered body. -/
theorem free {label : SymbolId} (old : label.toNat < supply.symbol)
    (outside : label ∉ body.labelsWithin) :
    ∀ m ∈ statementsOf l.body, l.body.recorded.labels m label = false := by
  intro m member
  have within : m ∈ l.body.walk := by
    refine Node.mem_children_walk ?_ (Node.mem_walk_self _)
    rw [statementsOf] at member
    split at member
    · rename_i shape
      rw [Node.children, shape]
      exact member
    · cases member
  obtain ⟨s, s', run⟩ := h.made
  have same : inner.labelsWithin = body.labelsWithin := by
    rw [← Node.labelsWithin_unnumbered, (Node.copied run).same, Node.labelsWithin_unnumbered]
  show (LabelIndex.build l.body).contains m label = false
  rw [LabelIndex.build_contains h.ids within]
  refine Bool.eq_false_iff.2 fun found ↦ ?_
  have inside := Node.labelsWithin_subset within (List.contains_iff_mem.1 found)
  rw [h.assembled.labels rfl, same] at inside
  rcases List.mem_append.1 inside with own | exit
  · exact outside own
  · have new := h.new l.contract.exit.id (by simp [Contract.names])
    rw [← List.mem_singleton.1 exit] at new
    omega

section

variable {store store' : Store} {host : Host} {i : Int64}
  (same : ∀ id : SymbolId, id.toNat < supply.symbol → store.get? id = store'.get? id)
  (slot : store'.get? l.contract.state.id = some (.int i))

include same slot

/-- The copy is entered with nothing around it that tells a difference. -/
theorem enters : ∃ j rest σ, (system l.body.recorded).Reaches
    (start l.body none { persisted := store', host })
    ⟨.enter inner none, [⟨⟨j, .ret (some inner)⟩, .operand⟩, ⟨l.body, .statements rest⟩], σ⟩ ∧
      Agree supply.symbol [] { persisted := store, host } σ := by
  refine h.assembled.enters slot ?_ (h.new _ (by simp [Contract.names])) same
  have apart := (List.nodup_cons.1 h.distinct).1
  exact fun eq ↦ apart (by simp [eq])

/-- If the tree comes to an end that is no jump into it, the lowered body ends alike. -/
theorem ends {fuel : Nat} {r : Outcome} {σ : Frame}
    (run : eval body.recorded fuel body none { persisted := store, host } = (r, σ))
    (enough : r ≠ .error (.stop .outOfFuel))
    (leaves : ∀ label, r = .error (.jump label) → label ∉ body.labelsWithin) :
    ∃ r' σ', (system l.body.recorded).Ends (start l.body none { persisted := store', host })
        (returned r', σ') ∧
      Storing.EndsWithin supply.symbol r r' ∧ Agree supply.symbol [] σ σ' := by
  obtain ⟨j, rest, τ, entered, agree⟩ := h.enters same slot
  obtain ⟨r', τ', ⟨N, ended⟩, within, after⟩ :=
    Storing.ends h.lawful h.passes h.copies agree run enough
  have enough' : r' ≠ .error (.stop .outOfFuel) := by
    rintro rfl
    cases within with
    | outOfFuel => exact enough rfl
    | escape stand => exact stand.elim
  have free : ∀ label, r' = .error (.jump label) →
      ∀ m ∈ statementsOf l.body, l.body.recorded.labels m label = false := by
    rintro label rfl
    cases within with
    | jump old => exact h.free old (leaves label rfl)
    | escape stand => exact stand.elim
  obtain ⟨σ', gone, after'⟩ := reaches_returned free after
  have left : (system l.body.recorded).Reaches _ _ :=
    entered.trans ((reaches_of_eval (ended N (Nat.le_refl N)) enough').trans gone)
  exact ⟨r', σ', ⟨_, left, rfl⟩, within, after'⟩

/-- If the lowered body comes to an end, so does the tree. -/
theorem ends_of_ends {r' : Outcome} {σ' : Frame} (enough : r' ≠ .error (.stop .outOfFuel))
    (ended : (system l.body.recorded).Ends (start l.body none { persisted := store', host })
      (r', σ')) :
    ∃ r σ, r ≠ .error (.stop .outOfFuel) ∧ ∃ N, ∀ f ≥ N,
      eval body.recorded f body none { persisted := store, host } = (r, σ) := by
  obtain ⟨j, rest, τ, entered, agree⟩ := h.enters same slot
  have later := ended.after entered
  obtain ⟨N, halts⟩ := later.not_live
  rcases copied : eval l.body.recorded N inner none τ with ⟨x, τ'⟩
  have enough' : x ≠ .error (.stop .outOfFuel) := by
    rintro rfl
    rcases follows_eval N inner none _ τ with reach | late
    · rw [copied] at reach
      have gone : (system l.body.recorded).Reaches
          ⟨.leave (.error (.stop .outOfFuel)),
            [⟨⟨j, .ret (some inner)⟩, .operand⟩, ⟨l.body, .statements rest⟩], τ'⟩
          ⟨.leave (.error (.stop .outOfFuel)), [], τ'⟩ :=
        (reaches_over rfl).trans (reaches_over rfl)
      exact enough (congrArg Prod.fst (later.unique ⟨_, reach.trans gone, rfl⟩))
    · exact halts late.live
  obtain ⟨r, σ, ends, alike, -⟩ :=
    (Storing.evaluatesLike h.lawful h.passes h.copies agree).back copied enough'
  refine ⟨r, σ, ?_, ends⟩
  rintro rfl
  cases alike with
  | outOfFuel => exact enough' rfl
  | escape stand => exact stand.elim

end

end Lowered.Encloses

/-! ### Runs and moves -/

/-- One run of a body as it stands, with values for parameters. What happens is recorded. -/
def Node.runWith (args : List (Variable × Value)) (fuel : Nat) (body : Node) (host : Host) :
    Except Stop Completion × Frame :=
  runBody body.recorded fuel body (({} : Store).insertAll args) host

/-- What a move answers if the body ends so. -/
inductive Session.Answers (host : Host) : Except Stop Completion → Except Stop Progress → Prop
  | normal (value : Value) : Answers host (.ok (.normal value)) (.ok (.completed value))
  | returned (value : Value) : Answers host (.ok (.returned value)) (.ok (.completed value))
  | threw (ex : Value) (place : Option NodeId) : Answers host (.ok (.threw ex))
    (.error (.fault ⟨.unhandled (ex.text host.futures), place⟩))
  | fault (cause : FaultCause) (place place' : Option NodeId) :
    Answers host (.error (.fault ⟨cause, place⟩)) (.error (.fault ⟨cause, place'⟩))
  | negationOverflow : Answers host (.error .negationOverflow) (.error .negationOverflow)

/-- A move with some fuel does what a run of a body did that ended so. -/
structure Machine.MovesLike (base : Nat) (m : Machine) (host : Host) (fuel : Nat)
    (r : Except Stop Completion) (σ : Frame) : Prop where
  answers : Session.Answers σ.host r (Session.moveNext fuel ⟨m, host⟩).1
  world : (Session.moveNext fuel ⟨m, host⟩).2.host = σ.host
  /-- Variables whose numbers are below the bound have the same values after it. -/
  values : ∀ id : SymbolId, id.toNat < base →
    (Session.moveNext fuel ⟨m, host⟩).2.machine.persisted.get? id = σ.persisted.get? id
  /-- The same operations of the host were called, with the same arguments. -/
  calls : (m.run fuel host true).2.calls = σ.calls

/-- If a move of a machine is over, so is a run of a body with values for parameters. If the run is
over, and does not end with a jump to a label of the body itself, the move is over as well, and both
have done the same. -/
structure Machine.Performs (base : Nat) (m : Machine) (host : Host) (body : Node)
    (args : List (Variable × Value)) : Prop where
  forth : ∀ {fuel : Nat} {r : Except Stop Completion} {σ : Frame},
    body.runWith args fuel host = (r, σ) → r ≠ .error .outOfFuel →
    (∀ label ∈ body.labelsWithin, r ≠ .error (.fault ⟨.undefinedLabel label, none⟩)) →
    ∃ N, ∀ f ≥ N, m.MovesLike base host f r σ
  back : ∀ {fuel : Nat}, (Session.moveNext fuel ⟨m, host⟩).1 ≠ .error .outOfFuel →
    ∃ r σ, r ≠ .error .outOfFuel ∧ ∃ N, ∀ f ≥ N, body.runWith args f host = (r, σ)

/-- A run that returns what another run comes to makes a move that does the same. -/
theorem Machine.MovesLike.of_run {base fuel : Nat} {m : Machine} {host : Host} {r r' : Outcome}
    {σ σ' : Frame} (ran : m.run fuel host = (completion (returned r'), σ'.forget))
    (recorded : (m.run fuel host true).2 = σ') (enough : r ≠ .error (.stop .outOfFuel))
    (within : Storing.EndsWithin base r r') (frames : Agree base [] σ σ') :
    m.MovesLike base host fuel (completion r) σ := by
  have moved : (Session.moveNext fuel ⟨m, host⟩).2.host = σ'.host ∧
      (Session.moveNext fuel ⟨m, host⟩).2.machine.persisted = σ'.persisted := by
    rcases done : completion (returned r') with reason | c
    · rw [done] at ran
      rw [Session.moveNext_stopped (s := ⟨m, host⟩) ran]
      exact ⟨rfl, rfl⟩
    · rw [done] at ran
      rw [Session.moveNext_completed (s := ⟨m, host⟩) ran rfl]
      exact ⟨rfl, rfl⟩
  refine ⟨?_, moved.1.trans frames.host.symm, fun id old ↦ ?_, by rw [recorded, frames.calls]⟩
  · rw [frames.host]
    cases within with
    | value v =>
      rw [Session.moveNext_completed (s := ⟨m, host⟩) ran rfl]
      exact .normal v
    | ret v =>
      rw [Session.moveNext_completed (s := ⟨m, host⟩) ran rfl]
      exact .returned v
    | thrown v =>
      rw [Session.moveNext_completed (s := ⟨m, host⟩) ran rfl]
      exact .threw v _
    | jump old =>
      rw [Session.moveNext_stopped (s := ⟨m, host⟩) ran]
      exact .fault _ _ _
    | fault cause place place' =>
      rw [Session.moveNext_stopped (s := ⟨m, host⟩) ran]
      exact .fault cause place place'
    | negationOverflow =>
      rw [Session.moveNext_stopped (s := ⟨m, host⟩) ran]
      exact .negationOverflow
    | outOfFuel => exact absurd rfl enough
    | escape stand => exact stand.elim
  · rw [moved.2, frames.persisted id old]

/-- The machine of a lowered body around a copy of a tree does what the tree does. -/
theorem Lowered.Encloses.performs {l : Lowered} {body inner : Node} {supply : Supply}
    (h : l.Encloses body inner supply) {args : List (Variable × Value)} (host : Host)
    (older : ∀ a ∈ args, a.1.id.toNat < supply.symbol) :
    ((Machine.start l).withArguments args).Performs supply.symbol host body args := by
  have new := h.new l.contract.state.id (by simp [Contract.names])
  have slot := Machine.start_state new older
  let store : Store := ({} : Store).insertAll args
  let store' : Store := (Machine.start l).persisted.insertAll args
  -- The machine's store has the slots of the contract besides, and no old symbol is one of them.
  have same : ∀ id : SymbolId, id.toNat < supply.symbol → store.get? id = store'.get? id := by
    intro id old
    refine Store.get?_insertAll_congr args ?_
    have other : l.contract.state.id ≠ id := by
      rintro rfl
      omega
    have nothing : id ∉ l.persisted.map Variable.id := by
      rw [Lowered.persisted, h.hoisted, h.fields]
      simpa using other.symm
    show _ = ((({} : Store).declare l.persisted).insert l.contract.state.id (.int running)).get? id
    rw [Store.get?_insert, if_neg (Ne.symm other), Store.get?_declare_of_notMem nothing]
  rw [Machine.withArguments_eq]
  constructor
  -- From the body to the machine, and back.
  · intro fuel x σ run enough leaves
    rcases evaluates : eval body.recorded fuel body none { persisted := store, host } with ⟨r, τ⟩
    obtain ⟨rfl, rfl⟩ := Prod.mk.inj (run.symm.trans (runBody_of_eval evaluates))
    rw [Ne, completion_eq_outOfFuel] at enough
    have leaves' : ∀ label, r = .error (.jump label) → label ∉ body.labelsWithin := by
      rintro label rfl inside
      exact leaves label inside rfl
    obtain ⟨r', σ', ends, within, agree⟩ := h.ends same slot evaluates enough leaves'
    obtain ⟨N, recorded⟩ := eval_of_ends ends
    obtain ⟨N', silent⟩ := eval_of_ends (ends_forget ends)
    refine ⟨max N N', fun f le ↦ .of_run ?_ ?_ enough within agree⟩
    · exact runBody_of_eval (silent f (Nat.le_trans (Nat.le_max_right N N') le))
    · have ran := runBody_of_eval (recorded f (Nat.le_trans (Nat.le_max_left N N') le))
      exact congrArg Prod.snd ran
  · intro fuel enough
    rcases silent : eval l.body.recorded.mute fuel l.body none { persisted := store', host } with
      ⟨x, τ⟩
    have ran : Machine.run { Machine.start l with persisted := store' } fuel host =
        (completion x, τ) := runBody_of_eval silent
    have enough' : x ≠ .error (.stop .outOfFuel) := by
      rintro rfl
      exact enough (congrArg Prod.fst (Session.moveNext_stopped (s := ⟨_, host⟩) ran))
    obtain ⟨σ', ends, -⟩ := ends_of_forget (σ := { persisted := store', host })
      (ends_of_eval silent enough')
    obtain ⟨r, σ, some, N, evaluates⟩ := h.ends_of_ends same slot enough' ends
    exact ⟨completion r, σ, mt completion_eq_outOfFuel.1 some, N,
      fun f le ↦ runBody_of_eval (evaluates f le)⟩

/-- **Without suspend points lowering changes nothing.** A legal body without suspend points is
lowered, whatever the options, to itself behind a dispatch without cases, up to the numbers of its
nodes: there are no states, no hoisted variables and no fields. With any values for parameters, if
the first move of its machine is over, so is a run of the body. If the run is over, and not with a
jump to a label of the body that nothing in the body catches, the move is over as well. Then it
calls the same operations of the host and leaves the same values in all variables of the body, and
it completes with the value that the run comes to or returns, fails with an exception that the run
does not catch, and fails as the run fails. A jump to a label of the body that nothing in the body
catches is something else for the machine, for it enters the body again, and may do so
without end. -/
theorem Node.lower_plain {body : Node} {supply : Supply} (options : LoweringOptions)
    (plain : body.containsAwait = false) (legal : body.check options.reduceHandlers = .ok ())
    (older : body.Older supply) (whole : (Contract.fresh onCompleted supply).2.Whole)
    (numbered : body.Numbered) : ∃ l supply',
      body.lower options (Contract.fresh onCompleted supply).1
        (Contract.fresh onCompleted supply).2 =
        .ok (l, supply') ∧ l.Holds body ∧
      ∀ (args : List (Variable × Value)) (host : Host),
        (∀ a ∈ args, a.1.id.toNat < supply.symbol) →
        ((Machine.start l).withArguments args).Performs supply.symbol host body args := by
  obtain ⟨l, supply', inner, lowers, contract, wraps⟩ := @lower_eq_copy body options
    (Contract.fresh onCompleted supply).1 (Contract.fresh onCompleted supply).2 plain legal
  obtain ⟨new, distinct⟩ := Contract.fresh_names whole
  rw [← contract] at new distinct
  have encloses : l.Encloses body inner supply := ⟨wraps, older, numbered, new, distinct⟩
  exact ⟨l, supply', lowers, wraps.holds, fun args host olderArgs ↦
    encloses.performs host olderArgs⟩

/-- A loop that is left by a jump, in a body with a parameter. -/
theorem Node.lower_plain_countdown : ∃ (body : Node) (x : Variable),
    (body.runWith [(x, .int 2)] 20 {}).1 = .ok (.returned (.str "done")) ∧
      (body.runWith [(x, .int 2)] 20 {}).2.calls.length = 2 ∧
      ∃ l supply', body.lower { spill := false } (Contract.fresh onCompleted ⟨20, 4⟩).1
          (Contract.fresh onCompleted ⟨20, 4⟩).2 = .ok (l, supply') ∧ l.Holds body ∧
        ((Machine.start l).withArguments [(x, .int 2)]).Performs 4 {} body [(x, .int 2)] := by
  let x : Variable := ⟨1, "x", .int⟩
  let round : Node := ⟨10, .block [] [
    ⟨2, .branch ⟨1, .binary .eq ⟨3, .var x⟩ ⟨4, .const (.int 0)⟩⟩ ⟨5, .goto ⟨3, "out"⟩⟩ none⟩,
    ⟨6, .call "trace" [⟨7, .var x⟩]⟩,
    ⟨8, .assign x ⟨9, .binary .sub ⟨11, .var x⟩ ⟨12, .const (.int 1)⟩⟩⟩]⟩
  let body : Node := ⟨13, .block [] [⟨14, .loop round none none⟩, ⟨15, .label ⟨3, "out"⟩⟩,
    ⟨16, .ret (some ⟨17, .const (.str "done")⟩)⟩]⟩
  have older : body.Older ⟨20, 4⟩ := by decide +kernel
  have whole : (Contract.fresh onCompleted ⟨20, 4⟩).2.Whole := by
    show (Contract.fresh onCompleted ⟨20, 4⟩).2.symbol ≤ UInt64.size
    decide +kernel
  have numbered : body.Numbered := numbered_of_nodup (by decide +kernel)
  obtain ⟨l, supply', lowers, holds, performs⟩ := Node.lower_plain { spill := false }
    (show body.containsAwait = false by decide +kernel) (by decide +kernel) older whole numbered
  refine ⟨body, x, by decide +kernel, by decide +kernel, l, supply', lowers, holds, ?_⟩
  exact performs [(x, .int 2)] {} (List.forall_mem_singleton.2 (by decide))

/-- A run that ends with a jump into a part of the body that was not entered, and a body in which
two nodes have one number: the machines of both do something else. -/
theorem Node.lower_plain_reenters :
    (∃ (body : Node) (l : Lowered), body.LowersTo ⟨5, 2⟩ l ∧ body.containsAwait = false ∧
      body.ids.Nodup ∧
      (body.runWith [] 9 {}).1 = .error (.fault ⟨.undefinedLabel 1, none⟩) ∧
      (Session.moveNext 9 ⟨Machine.start l, {}⟩).1 = .ok (.completed .unit)) ∧
    ∃ (body : Node) (l : Lowered), body.LowersTo ⟨5, 2⟩ l ∧ body.containsAwait = false ∧
      (body.runWith [] 9 {}).1 = .ok (.threw (.str "x")) ∧
      (Session.moveNext 9 ⟨Machine.start l, {}⟩).1 = .ok (.completed .unit) := by
  constructor
  · let body : Node := ⟨0, .branch ⟨1, .goto ⟨1, "a"⟩⟩ ⟨2, .label ⟨1, "a"⟩⟩ none⟩
    have older : body.Older ⟨5, 2⟩ := by decide +kernel
    obtain ⟨l, lowers, moves⟩ := exists_lowersTo_with older
      (fun l ↦ decide ((Session.moveNext 9 ⟨Machine.start l, {}⟩).1 = .ok (.completed .unit)))
      (by decide +kernel)
    exact ⟨body, l, lowers, by decide +kernel, by decide +kernel, by decide +kernel,
      of_decide_eq_true moves⟩
  · let body : Node := ⟨0, .block [] [⟨1, .goto ⟨1, "a"⟩⟩,
      ⟨2, .raise (some ⟨3, .const (.str "x")⟩)⟩, ⟨2, .label ⟨1, "a"⟩⟩]⟩
    have older : body.Older ⟨5, 2⟩ := by decide +kernel
    obtain ⟨l, lowers, moves⟩ := exists_lowersTo_with older
      (fun l ↦ decide ((Session.moveNext 9 ⟨Machine.start l, {}⟩).1 = .ok (.completed .unit)))
      (by decide +kernel)
    exact ⟨body, l, lowers, by decide +kernel, by decide +kernel, of_decide_eq_true moves⟩

end Suspension
