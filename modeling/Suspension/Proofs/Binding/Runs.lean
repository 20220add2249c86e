import Suspension.Proofs.Binding.Evaluation
import Suspension.Proofs.Binding.Jumps
import Suspension.Proofs.Binding.Scopes
import Suspension.Proofs.Sessions

/-!
# Names in lowered bodies

Where every variable of a body is used in the scope of its declaration, no name is declared twice
and every jump leads to a label of the body, the lowered body is as well-formed: what each variable
stands for is declared around its use, or kept by the driver, or a parameter
(`Lowered.WellFormed`). And well-formed bodies do not go wrong over a name, however often they are
left and entered again: no move of a session finds a variable without a slot or a label that nothing
defines (`Node.LowersTo.well_formed`).
-/

namespace Suspension

/-- The names in a lowered body, with some parameters, are in order. -/
structure Lowered.WellFormed (l : Lowered) (params : List Variable) : Prop where
  /-- Every label is defined once, and every jump leads to one. -/
  labels : l.body.labelsWithin.Nodup
  targets : l.body.targets ⊆ l.body.labelsWithin
  /-- The variables that outlive a run are distinct, and no block declares one of them. -/
  persisted : (l.persisted.map Variable.id).Nodup
  undeclared : ∀ v ∈ l.persisted, v.id ∉ l.body.declared
  /-- Every variable outlives the runs, or is a parameter, or is declared around its uses. -/
  inScope : l.body.Scoped fun id ↦
    id ∈ l.persisted.map Variable.id ∨ id ∈ params.map Variable.id

/-! ### Runs -/

section Runs

variable {body : Node} {bound : SymbolId → Prop} {s : Setting}

/-- A run of a body misses no name, if its variables have slots and its jumps lead to its labels.
The slots that outlive the run are still there. -/
theorem runBody_sound (block : body.kind = .block) (distinct : body.ids.Nodup)
    (labels : s.labels = (LabelIndex.build body).contains) (inScope : body.Scoped bound)
    (closed : body.targets ⊆ body.labelsWithin) (fuel : Nat) {persisted : Store} (host : Host)
    (slots : ∀ id, bound id → persisted.contains id = true) :
    (∀ f, (runBody s fuel body persisted host).1 = .error (.fault f) → ¬ f.cause.Dangles) ∧
      ∀ id, persisted.contains id = true →
        (runBody s fuel body persisted host).2.persisted.contains id = true := by
  have safe : Eval.Safe bound (· ∈ body.targets) (eval s fuel body none) :=
    eval_ensures fuel inScope (fun _ ↦ id) none
  have ends := safe { persisted, host } fun id inside ↦ .inr (slots id inside)
  refine ⟨fun f stopped dangles ↦ ?_, fun id slot ↦ ends.grows.persisted id slot⟩
  have run : completion (eval s fuel body none { persisted, host }).1 = .error (.fault f) := stopped
  rcases eq : (eval s fuel body none { persisted, host }).1 with (label | v | v | reason) | v
  · -- No jump leaves a block that holds its label.
    exact eval_block_catches block distinct labels eq (closed ((ends.exit _ eq).jump label rfl))
  · rw [eq] at run
    cases run
  · rw [eq] at run
    cases run
  · rw [eq] at run
    cases run
    exact (ends.exit _ eq).fault f rfl dangles
  · rw [eq] at run
    cases run

end Runs

/-! ### Sessions -/

/-- The driver finds no fault over a name. -/
theorem FaultCause.not_dangles_of_isDrivers {cause : FaultCause} (h : cause.isDrivers = true) :
    ¬ cause.Dangles := by
  rintro (⟨v, rfl⟩ | ⟨label, rfl⟩) <;> cases h

/-- The machine of a lowered body, with slots for all that is bound around it. -/
structure Machine.Holds (m : Machine) (l : Lowered) (bound : SymbolId → Prop) : Prop where
  body : m.body = l.body
  labels : m.labels = LabelIndex.build l.body
  slots : ∀ id, bound id → m.persisted.contains id = true

theorem Machine.withArgument_holds {m : Machine} {l : Lowered} {bound : SymbolId → Prop}
    (h : m.Holds l bound) (v : Variable) (value : Value) :
    (m.withArgument v value).Holds l fun id ↦ id = v.id ∨ bound id := by
  refine ⟨h.body, h.labels, fun id inside ↦ ?_⟩
  rw [withArgument, Store.contains_insert]
  rcases inside with rfl | old
  · simp
  · rw [h.slots id old, Bool.or_true]

theorem Machine.withArguments_holds {m : Machine} {l : Lowered} {bound : SymbolId → Prop}
    (h : m.Holds l bound) (args : List (Variable × Value)) :
    (m.withArguments args).Holds l fun id ↦ id ∈ args.map (·.1.id) ∨ bound id := by
  induction args generalizing m bound with
  | nil => exact ⟨h.body, h.labels, fun id inside ↦ h.slots id (inside.resolve_left nofun)⟩
  | cons a args ih =>
    obtain ⟨body, labels, slots⟩ := ih (withArgument_holds h a.1 a.2)
    refine ⟨body, labels, fun id inside ↦ slots id ?_⟩
    rw [List.map_cons, List.mem_cons, or_assoc] at inside
    tauto

/-- A machine starts with slots for what outlives its runs. -/
theorem Machine.start_holds (l : Lowered) :
    (start l).Holds l (· ∈ l.persisted.map Variable.id) := by
  refine ⟨rfl, rfl, fun id inside ↦ ?_⟩
  exact Store.contains_insert_of (Store.contains_declare (.inl inside))

namespace Session

variable {l : Lowered} {bound : SymbolId → Prop} {s t : Session}

variable (distinct : l.body.ids.Nodup) (block : l.body.kind = .block)
variable (inScope : l.body.Scoped bound) (closed : l.body.targets ⊆ l.body.labelsWithin)

include distinct block inScope closed

theorem run_sound (h : s.machine.Holds l bound) (fuel : Nat) :
    (∀ f, (s.machine.run fuel s.host).1 = .error (.fault f) → ¬ f.cause.Dangles) ∧
      ∀ id, s.machine.persisted.contains id = true →
        (s.machine.run fuel s.host).2.persisted.contains id = true := by
  obtain ⟨⟨body, stateVar, labels, persisted, callbacks, resumptions⟩, host⟩ := s
  obtain ⟨rfl, rfl, slots⟩ := h
  exact runBody_sound block distinct rfl inScope closed fuel host slots

/-- A move loses no slot. -/
theorem moveNext_holds (h : s.machine.Holds l bound) (fuel : Nat) :
    (s.moveNext fuel).2.machine.Holds l bound := by
  obtain ⟨callbacks, machine⟩ := s.moveNext_machine fuel
  rw [machine]
  exact ⟨h.body, h.labels, fun id inside ↦
    (run_sound distinct block inScope closed h fuel).2 id (h.slots id inside)⟩

/-- No slot is ever lost. -/
theorem Later.holds (later : s.Later t) (h : s.machine.Holds l bound) :
    t.machine.Holds l bound := by
  induction later with
  | start => exact h
  | move earlier fuel ih => exact moveNext_holds distinct block inScope closed ih fuel
  | world earlier host ih => exact ih

/-- No move is stopped over a name. -/
theorem Later.sound (later : s.Later t) (h : s.machine.Holds l bound) (fuel : Nat) (f : Fault)
    (stopped : (t.moveNext fuel).1 = .error (.fault f)) : ¬ f.cause.Dangles := by
  rcases moveNext_error stopped with run | drivers
  · exact (run_sound distinct block inScope closed
      (later.holds distinct block inScope closed h) fuel).1 f run
  · exact FaultCause.not_dangles_of_isDrivers drivers

end Session

/-- **Lowering keeps names in order.** In a body no variable is declared twice and no label defined
twice, every jump leads to a label, and every variable is used in the scope of its declaration or is
a parameter. Then the lowered body is well-formed in the same sense, and with values for the
parameters no sequence of moves is ever stopped by a variable without a slot or by a jump to an
undefined label. -/
theorem Node.LowersTo.well_formed {body : Node} {supply : Supply} {l : Lowered}
    (params : List Variable) (lowers : body.LowersTo supply l)
    (declared : (body.names true).Nodup) (labels : body.labelsWithin.Nodup)
    (closed : body.targets ⊆ body.labelsWithin)
    (inScope : body.Scoped (· ∈ params.map Variable.id)) :
    l.WellFormed params ∧ ∀ (args : List (Variable × Value)) (host : Host) (s : Session),
      params.map Variable.id ⊆ args.map (·.1.id) →
        Session.Later ⟨(Machine.start l).withArguments args, host⟩ s →
          ∀ fuel f, (s.moveNext fuel).1 = .error (.fault f) → ¬ f.cause.Dangles := by
  obtain ⟨L, s, s', -, le, prepares, whole, -⟩ := lowers.layout
  obtain ⟨once, defined⟩ := lowers.labels labels closed
  have older : ∀ id ∈ body.names true, id.toNat < s.symbol := fun id inside ↦
    lowers.1.le le id (body.names_symbols inside)
  have distinct := L.variables_nodup (prepare_distinct prepares lowers.legal declared older whole)
  have within := L.inScope (prepare_scoped prepares lowers.legal inScope)
  obtain ⟨persisted, -, apart⟩ := List.nodup_append.1 distinct
  refine ⟨⟨once, defined, persisted, fun v member own ↦
    apart v.id (List.mem_map_of_mem member) v.id own rfl, within⟩,
    fun args host t given later fuel f stopped ↦ ?_⟩
  have block : l.body.kind = .block := by
    have assembled := L.assembled
    revert assembled
    generalize l.body = root
    rintro ⟨⟩
    rfl
  have started := Machine.withArguments_holds (Machine.start_holds l) args
  refine later.sound L.ids block (within.mono fun id known ↦ ?_) defined started fuel f stopped
  exact known.elim .inr fun param ↦ .inl (given param)

/-- A jump out of a protected region whose finally body suspends, past a hoisted variable. -/
theorem Node.LowersTo.well_formed_exit : ∃ (body : Node) (params : List Variable) (l : Lowered),
    body.LowersTo { node := 12, symbol := 5 } l ∧ l.WellFormed params ∧
      ∀ (args : List (Variable × Value)) (host : Host) (s : Session),
        params.map Variable.id ⊆ args.map (·.1.id) →
          Session.Later ⟨(Machine.start l).withArguments args, host⟩ s →
            ∀ fuel f, (s.moveNext fuel).1 = .error (.fault f) → ¬ f.cause.Dangles := by
  let p : Variable := ⟨1, "p", .any⟩
  let x : Variable := ⟨2, "x", .any⟩
  let e : Variable := ⟨3, "e", .any⟩
  let done : Label := ⟨4, "done"⟩
  let inside : Node := ⟨4, .block [] [⟨2, .assign x ⟨1, .await ⟨0, .var p⟩ none .any⟩⟩,
    ⟨3, .goto done⟩]⟩
  let body : Node := ⟨11, .block [x] [⟨8, .region inside [⟨some e, none, ⟨5, .var e⟩⟩]
    (some ⟨7, .await ⟨6, .var p⟩ none .unit⟩) none⟩, ⟨9, .label done⟩, ⟨10, .var x⟩]⟩
  have small : body.symbols.all (·.toNat < 5) = true := by decide +kernel
  have older : ∀ id ∈ body.symbols, id.toNat < 5 := by simpa using small
  obtain ⟨l, lowers⟩ := @Node.exists_lowersTo body { node := 12, symbol := 5 } older
    (by decide +kernel)
  have inScope : body.Scoped (· ∈ [p].map Variable.id) := by
    simp [body, inside, p, x, e, Node.scoped_iff, Shape.uses, Shape.scopes, Shape.children,
      Clause.children]
  exact ⟨body, [p], l, lowers, lowers.well_formed [p] (by decide) (by decide) (by decide) inScope⟩

end Suspension
