import Suspension.Proofs.Steps.Seeking
import Suspension.Proofs.Waiting.Outcomes

/-!
# Two runs at corresponding places

A run in one piece and a session are at corresponding places (`Layout.Related`) when they are about
to enter the nodes of a part, or have left them with the same, and the tasks above stand for each
other. Where a part has one form, the two runs go hand in hand by a step each
(`Layout.Fits.enters_layer`, `Layout.Fits.leaves_layer`).
-/

namespace Suspension

open Steps Eval TransitionSystem Session

/-! ### Blocks -/

/-- A label is sought in the statement of a block that holds it. -/
theorem Steps.proceeds_sought {s : Setting} (mute : s.records = false) {n c : Node}
    {declared : List Variable} {before rest : List Node}
    (shape : n.shape = .block declared (before ++ c :: rest)) {label : SymbolId}
    (free : ∀ a ∈ before, s.labels a label = false) (found : s.labels c label = true)
    {K : List Steps.Task} {σ : Frame} : (system s).Proceeds ⟨.enter n (some label), K, σ⟩
      ⟨.enter c (some label), ⟨n, .statements rest⟩ :: K,
        { σ with locals := σ.locals.declare declared }⟩ := by
  refine .of_next ?_
  show (enterNode s n (some label) σ).on K = _
  rw [enterNode, Abreast.noted_mute mute, startNode, shape]
  dsimp only
  rw [fromLabel_eq free found]
  rfl

/-- The only statement of a block is entered, which holds what is sought. -/
theorem Steps.proceeds_only {s : Setting} (mute : s.records = false) {n c : Node}
    (shape : n.shape = .block [] [c]) {seek : Option SymbolId} (found : Finds s c seek)
    {K : List Steps.Task} {σ : Frame} :
    (system s).Proceeds ⟨.enter n seek, K, σ⟩ ⟨.enter c seek, ⟨n, .statements []⟩ :: K, σ⟩ := by
  cases seek with
  | none =>
    refine .of_next ?_
    show (enterNode s n none σ).on K = _
    rw [enterNode, Abreast.noted_mute mute, startNode, shape]
    rfl
  | some label =>
    have split : n.shape = .block [] ([] ++ c :: []) := shape
    exact proceeds_sought mute split (List.forall_mem_nil _) (found label rfl)

/-- What is sought in a block is sought in its only statement. -/
theorem Steps.Finds.only {n c : Node} (shape : n.shape = .block [] [c]) {seek : Option SymbolId}
    (found : Finds waiting n seek) : Finds waiting c seek := by
  intro label eq
  have held : n.labelsWithin.contains label = true := found label eq
  rw [n.labelsWithin_eq, Node.children, shape] at held
  simpa [Shape.ownLabels, Shape.children, waiting] using held

namespace Layout

variable {l : Lowered} (L : Layout l) (params : List SymbolId)

/-- A run in one piece and a session that are at corresponding places, or over. -/
inductive Related : Configuration → UnderWay → Prop
  | enter {A : Scope} {k : Part} {seek : Option SymbolId} {K K' : List Steps.Task} {σ τ : Frame}
    {m : Machine} (fits : L.Fits params A k) (outer : L.Stacks params A k K K')
    (sought : ∀ label, seek = some label → ¬ L.New label)
    (frames : Abreast (l.outlasts params) L.New l A σ τ) :
    Related ⟨.enter k.first seek, K, σ⟩ ⟨m, ⟨.enter (k.second l.contract) seek, K', τ⟩⟩
  | leave {A : Scope} {k : Part} {r r' : Outcome} {K K' : List Steps.Task} {σ τ : Frame}
    {m : Machine} (outer : L.Stacks params A k K K')
    (outcomes : Outcomes (fun label ↦ ¬ L.New label) (fun _ _ ↦ False) r r')
    (yields : Yields k.first r σ) (frames : Abreast (l.outlasts params) L.New l A σ τ) :
    Related ⟨.leave r, K, σ⟩ ⟨m, ⟨.leave r', K', τ⟩⟩
  | finished {e e' : Exit} {σ τ : Frame} {m : Machine}
    (outcomes : Outcomes (fun label ↦ ¬ L.New label) (fun _ _ ↦ False) (.error e : Outcome)
    (.error e'))
    (host : σ.host.Alike τ.host) : Related ⟨.leave (.error e), [], σ⟩
    ⟨m, ⟨.leave (.error e'), [], τ⟩⟩

/-- Both go on to corresponding places. -/
def Advances (c : Configuration) (d : UnderWay) : Prop :=
  ∃ c' d', (system waiting).Proceeds c c' ∧ driving.Proceeds d d' ∧ L.Related params c' d' ∧
    l.Serves d'.machine

variable {L params} {A B : Scope} {k z : Part} {x : Shape Part} {K K' : List Steps.Task}
  {σ τ : Frame}
variable {s : Session} {m : Machine} {c c' : Configuration} {d d' : UnderWay}

/-- What comes before makes no difference. -/
theorem Advances.of_reaches (h : L.Advances params c' d') (before : (system waiting).Reaches c c')
    (before' : driving.Reaches d d') : L.Advances params c d := by
  obtain ⟨e, e', proceeds, proceeds', related, serves⟩ := h
  exact ⟨e, e', before.trans_proceeds proceeds, before'.trans_proceeds proceeds', related, serves⟩

/-- Moves of one form lead to corresponding places. -/
theorem Related.of_moves {mv mv' : Move} (fits : L.Fits params A k)
    (layered : k.Layered l.keeps l.contract x) (plain : x.kind ≠ .call)
    (outer : L.Stacks params A k K K')
    (moves : (Abreast.lockstep (l.outlasts params) L.New l waiting l.setting k.first
      (Fits.Kids L params x)).Moves A k.first (k.second l.contract) mv mv') :
    L.Related params (mv.on K) ⟨m, mv'.on K'⟩ := by
  cases moves with
  | give outcomes frames yields => exact .leave outer outcomes yields frames
  | descend stages nodes sought frames =>
    obtain ⟨z, child, rfl, rfl, inside⟩ := nodes
    exact .enter inside (.layer fits layered plain child stages outer) sought frames

namespace Fits

/-- The nodes of a layer have nothing to do with futures. -/
theorem impartial (fair : L.Fair params) (fits : L.Fits params A k)
    (layered : k.Layered l.keeps l.contract x) (plain : x.kind ≠ .call) :
    Impartial (l.outlasts params) L.New A k.first := by
  have kind : k.settled.kind = x.kind := by rw [Node.kind, layered.settled, Shape.kind_map]
  exact fits.place.impartial fair (kind ▸ layered.notAwait) (kind ▸ plain)

/-- A layer is entered in both runs. -/
theorem enters_layer (fair : L.Fair params) (fits : L.Fits params A k)
    (layered : k.Layered l.keeps l.contract x) (plain : x.kind ≠ .call)
    (outer : L.Stacks params A k K K')
    {seek : Option SymbolId} (sought : ∀ label, seek = some label → ¬ L.New label)
    (frames : Abreast (l.outlasts params) L.New l A σ τ)
    (aboard : l.Aboard s ⟨m, ⟨.enter (k.second l.contract) seek, K', τ⟩⟩) :
    L.Advances params ⟨.enter k.first seek, K, σ⟩
      ⟨m, ⟨.enter (k.second l.contract) seek, K', τ⟩⟩ := by
  have law : (Abreast.lockstep (l.outlasts params) L.New l waiting l.setting k.first
    (Kids L params x)).Lawful := lawful rfl rfl (fun _ _ ↦ rfl) rfl layered plain
  exact ⟨_, _, .of_next rfl, aboard.proceeds rfl (.of_next rfl), .of_moves fits layered plain outer
    (Lockstep.enter law (fits.layer layered plain) ⟨rfl, fits.impartial fair layered plain⟩ seek
      sought frames), aboard.serves⟩

/-- Both runs leave to a layer. -/
theorem leaves_layer (fair : L.Fair params) (fits : L.Fits params A k)
    (layered : k.Layered l.keeps l.contract x) (plain : x.kind ≠ .call) {st st' : Stage}
    (stages : StageMatch (fun label ↦ ¬ L.New label) (fun _ _ ↦ False) A k.first
    (k.second l.contract)
      st st' B z.first (z.second l.contract))
    (outer : L.Stacks params A k K K') {r r' : Outcome}
    (outcomes : Outcomes (fun label ↦ ¬ L.New label) (fun _ _ ↦ False) r r')
    (yields : Yields z.first r σ) (frames : Abreast (l.outlasts params) L.New l B σ τ)
    (aboard : l.Aboard s ⟨m, ⟨.leave r', ⟨k.second l.contract, st'⟩ :: K', τ⟩⟩) :
    L.Advances params ⟨.leave r, ⟨k.first, st⟩ :: K, σ⟩
      ⟨m, ⟨.leave r', ⟨k.second l.contract, st'⟩ :: K', τ⟩⟩ := by
  have law : (Abreast.lockstep (l.outlasts params) L.New l waiting l.setting k.first
    (Kids L params x)).Lawful := lawful rfl rfl (fun _ _ ↦ rfl) rfl layered plain
  exact ⟨_, _, .of_next rfl, aboard.proceeds rfl (.of_next rfl), .of_moves fits layered plain outer
    (Lockstep.leave law (fits.layer layered plain)
      (fun _ ↦ ⟨rfl, fits.impartial fair layered plain⟩) stages outcomes frames yields),
      aboard.serves⟩

/-- What is sought in a part is found in its expansion. -/
theorem finds {k : Part} (fits : L.Fits params A k) {seek : Option SymbolId}
    (found : Finds waiting k.first seek) (sought : ∀ label, seek = some label → ¬ L.New label) :
    Finds l.setting (k.second l.contract) seek := by
  intro label eq
  exact (fits.labels (sought label eq)).symm.trans (found label eq)

end Fits

/-! ### Leaving statements -/

/-- Exits that leave a statement of blocks that are not alike: both blocks are left, or both are
entered again through that statement, if nothing else in them holds an old label. -/
theorem error_in_blocks {n n' c c' : Node} {ds ds' : List Variable}
    {before before' rest rest' : List Node} (left left' : List Node)
    (shape : n.shape = .block ds (before ++ c :: rest))
    (shape' : n'.shape = .block ds' (before' ++ c' :: rest'))
    (free : ∀ label, ¬ L.New label → ∀ a ∈ before ++ rest, waiting.labels a label = false)
    (free' : ∀ label, ¬ L.New label → ∀ a ∈ before' ++ rest', l.setting.labels a label = false)
    (same : ∀ label, ¬ L.New label → waiting.labels c label = l.setting.labels c' label)
    {e e' : Exit}
    (outcomes : Outcomes (fun label ↦ ¬ L.New label) (fun _ _ ↦ False) (.error e : Outcome)
      (.error e')) :
    (leaveTo waiting ⟨n, .statements left⟩ (.error e) σ = give (.error e) σ ∧
      leaveTo l.setting ⟨n', .statements left'⟩ (.error e') τ = give (.error e') τ ∧
      ∀ label, e = .jump label → waiting.labels c label = false) ∨
    ∃ label, ¬ L.New label ∧ waiting.labels c label = true ∧
      leaveTo waiting ⟨n, .statements left⟩ (.error e) σ =
        descend n (.statements rest) c (some label) σ ∧
      leaveTo l.setting ⟨n', .statements left'⟩ (.error e') τ =
        descend n' (.statements rest') c' (some label) τ := by
  cases outcomes with
  | @jump label old =>
    have all : statementsOf n = before ++ c :: rest := by rw [statementsOf, shape]
    have all' : statementsOf n' = before' ++ c' :: rest' := by rw [statementsOf, shape']
    obtain ⟨front, back⟩ := List.forall_mem_append.1 (free label old)
    obtain ⟨front', back'⟩ := List.forall_mem_append.1 (free' label old)
    have agree := same label old
    -- Of all statements only this one may hold the label, and it does in both blocks or in none.
    cases holds : waiting.labels c label with
    | true =>
      rw [holds] at agree
      refine .inr ⟨label, old, holds, ?_, ?_⟩
      · show jumpInBlock waiting n label σ = _
        rw [jumpInBlock, all, fromLabel_eq front holds]
      · show jumpInBlock l.setting n' label τ = _
        rw [jumpInBlock, all', fromLabel_eq front' agree.symm]
    | false =>
      rw [holds] at agree
      refine .inl ⟨?_, ?_, fun _ same ↦ Exit.jump.inj same ▸ holds⟩
      · show jumpInBlock waiting n label σ = _
        rw [jumpInBlock, all, fromLabel_eq_nil]
        exact List.forall_mem_append.2 ⟨front, List.forall_mem_cons.2 ⟨holds, back⟩⟩
      · show jumpInBlock l.setting n' label τ = _
        rw [jumpInBlock, all', fromLabel_eq_nil]
        exact List.forall_mem_append.2 ⟨front', List.forall_mem_cons.2 ⟨agree.symm, back'⟩⟩
  | escape stand => exact stand.elim
  | _ => exact .inl ⟨rfl, rfl, fun _ same ↦ by cases same⟩

include L in
/-- Where labels are, in a lowered body. -/
theorem labels_setting {n : Node} (within : n ∈ l.body.walk) (label : SymbolId) :
    l.setting.labels n label = n.labelsWithin.contains label := by
  have law : (L.voyage false {} {} 0).Lawful := L.lawful
  exact law.labels n within label

end Layout

end Suspension
