import Suspension.Proofs.Waiting.Asking

/-!
# Leaving a suspend point

A suspend point acquires an awaiter from the value of its operand, waits for it and is left with its
outcome. A body that waits in one piece does so at once (`Layout.WaitTasks.leaves`). Its lowered
form stores the awaiter, asks it whether it is completed, and comes to the outcome either directly
or by another run (`Layout.awaits`). Both are left with the same (`Layout.leaves_point`).
-/

namespace Suspension

open Steps Eval TransitionSystem Session

/-- Where an operation is about to be called that makes a text of its arguments, no future is among
them. -/
def Steps.Configuration.Discreet (c : Configuration) : Prop :=
  ∀ (n : Node) (callee : String) (os : List Node) (done : List Value) (v : Value)
    (K : List Steps.Task), c.control = .leave (.ok v) → c.tasks = ⟨n, .operands done []⟩ :: K →
      n.shape = .call callee os → Host.Discreet callee (done ++ [v])

theorem Steps.Configuration.Discreet.of_call {n : Node} {callee : String} {os : List Node}
    {done : List Value} {v : Value} {K : List Steps.Task} {σ : Frame}
    (h : Configuration.Discreet ⟨.leave (.ok v), ⟨n, .operands done []⟩ :: K, σ⟩)
    (shape : n.shape = .call callee os) : Host.Discreet callee (done ++ [v]) :=
  h n callee os done v K rfl rfl shape

/-- Cells that correspond are there in both hosts or in none, with one outcome. -/
theorem Host.Alike.cell? {h h' : Host} (a : h.Alike h') (v : Value) :
    (∃ i f f', Eval.cell? h v = some (i, f) ∧ Eval.cell? h' v = some (i, f') ∧ v = .future i ∧
      h'.future? i = some f' ∧ f.outcome = f'.outcome) ∨
    Eval.cell? h v = none ∧ Eval.cell? h' v = none := by
  cases v with
  | future i =>
    have same := a.future? i
    rw [Eval.cell?, Eval.cell?]
    cases found : h.future? i with
    | none =>
      rw [found] at same
      cases found' : h'.future? i with
      | none => exact .inr ⟨rfl, rfl⟩
      | some f' =>
        rw [found'] at same
        cases same
    | some f =>
      rw [found] at same
      cases found' : h'.future? i with
      | none =>
        rw [found'] at same
        cases same
      | some f' =>
        rw [found'] at same
        exact .inl ⟨i, f, f', rfl, rfl, rfl, found', Option.some.inj same⟩
  | _ => exact .inr ⟨rfl, rfl⟩

/-- To wait is to acquire an awaiter, and to wait for that. -/
theorem waitFor_acquired (s : Setting) (name : String) (v : Value) (n : Node) :
    Evaluator.waitFor s (some name) v n =
      (Evaluator.invoke s name [v] n >>= fun w ↦ Evaluator.waitFor s none w n) := rfl

/-- What is waited for has no cell. -/
theorem waitFor_none {s : Setting} {v : Value} {n : Node} {σ : Frame} (h : cell? σ.host v = none) :
    Evaluator.waitFor s none v n σ = fault (.notAwaitable v.type) n σ := by
  show (cell v n >>= fun c ↦ wait c.1 c.2 >>= fun f ↦ result f n : Eval Value) σ = _
  rw [bind_apply, cell_apply, h]
  rfl

/-- What is waited for is completed, and its outcome is what waiting comes to. -/
theorem waitFor_cell {s : Setting} {v : Value} {n : Node} {σ : Frame} {i : Nat} {f : Future}
    (h : cell? σ.host v = some (i, f)) : Evaluator.waitFor s none v n σ =
      (f.outcome.mapError .thrown, { σ with host := σ.host.changeFuture i Future.complete }) := by
  show (cell v n >>= fun c ↦ wait c.1 c.2 >>= fun f ↦ result f n : Eval Value) σ = _
  rw [bind_apply, cell_apply, h]
  dsimp only
  rw [bind_apply, wait_apply]
  dsimp only
  have outcome : f.complete.outcome? = some f.outcome := rfl
  rw [result, outcome]
  cases f.outcome <;> rfl

/-- What is no jump leaves a block. -/
theorem leaveTo_block {s : Setting} {n : Node} {rest : List Node} {e : Exit} {σ : Frame}
    (noJump : ∀ label, e ≠ .jump label) :
    leaveTo s ⟨n, .statements rest⟩ (.error e) σ = give (.error e) σ := by
  cases e with
  | jump label => exact absurd rfl (noJump label)
  | _ => rfl

theorem Steps.SameEnding.noJump {α : Type} {r r' : Except Exit α} (h : SameEnding r r') :
    (∀ label, r ≠ .error (.jump label)) ∧ ∀ label, r' ≠ .error (.jump label) := by
  cases h with
  | value => exact ⟨nofun, nofun⟩
  | exit e noJump =>
    exact ⟨fun label same ↦ noJump label (Except.error.inj same),
      fun label same ↦ noJump label (Except.error.inj same)⟩
  | fault => exact ⟨nofun, nofun⟩

/-- Whether the value is of interest makes no difference between ends. -/
theorem Steps.SameEnding.ends {r r' : Outcome} (h : SameEnding r r') (q : Point) :
    SameEnding (q.ends r) (q.ends r') := by
  cases h with
  | value v => exact .value _
  | exit e noJump => exact .exit e noJump
  | fault cause place place' => exact .fault cause place place'

namespace Layout

variable {l : Lowered} {L : Layout l} {params : List SymbolId} {A : Scope} {σ τ : Frame}
variable {K K' ts ts' : List Steps.Task} {q : Point} {s : Session} {m : Machine}
variable {p p' e o entry : Node} {acquire : Option String} {X : Added}

/-- A node that waits is left with what waiting comes to. -/
theorem WaitTasks.leaves (tasks : WaitTasks acquire o q.result p ts) (v : Value) (σ : Frame)
    (K : List Steps.Task) : ∃ n : Node, ∀ {r : Outcome} {σ' : Frame},
      Evaluator.waitFor waiting acquire v n σ = (r, σ') → (∀ label, r ≠ .error (.jump label)) →
      (system waiting).Proceeds ⟨.leave (.ok v), ts ++ K, σ⟩ ⟨.leave (q.ends r), K, σ'⟩ := by
  have finishes {i : NodeId} {n : Node} {ty : Ty} {r : Outcome} {σ' : Frame}
      (waited : Evaluator.waitFor waiting acquire v ⟨i, .await n acquire ty⟩ σ = (r, σ')) :
      leaveTo waiting ⟨⟨i, .await n acquire ty⟩, .operand⟩ (.ok v) σ = give r σ' := by
    show perform (Evaluator.waitFor waiting acquire v ⟨i, .await n acquire ty⟩) σ = _
    rw [perform, waited]
  cases tasks with
  | value i j ty interest =>
    refine ⟨⟨i, .await ⟨j, .block [] [o]⟩ acquire ty⟩, fun {r σ'} waited noJump ↦ ?_⟩
    have same : q.ends r = r := by
      cases r with
      | ok w => rw [Point.ends, if_pos (Option.isSome_iff_ne_none.2 interest)]
      | error => rfl
    rw [same]
    exact .trans_reaches (.of_next rfl) (reaches_over (finishes waited))
  | unit i j k u ty interest =>
    refine ⟨⟨j, .await ⟨k, .block [] [o]⟩ acquire ty⟩, fun {r σ'} waited noJump ↦
      .trans_reaches (.of_next rfl)
      ((reaches_over (finishes waited)).trans ?_)⟩
    cases r with
    | ok w =>
      rw [Point.ends, interest]
      exact (reaches_sibling rfl).trans ((reaches_value rfl).trans (reaches_over rfl))
    | error e => exact reaches_over (leaveTo_block fun label same ↦ noJump label (congrArg _ same))

/-- Whether or not a future is completed when it is asked, a session comes to the outcome with the
future completed: either it goes straight on or another run comes to the label. -/
theorem reaches_completed (fair : L.Fair params) {a suspend outcome : Node} {last : List Node}
    {i j k n u : NodeId} {cell : Nat} {f : Future}
    (fits : L.Fits params A (.twin p e (X ++ .ofPoint q entry)))
    (isReturn : IsReturn l.contract q.label entry)
    (outer : L.Stacks params A (.twin p e (X ++ .ofPoint q entry)) K K')
    (shape : e.shape = .block q.result.toList
      (a :: waitBranch q suspend i j k n :: ⟨u, .label q.label⟩ :: outcome :: last))
    (suspension : IsSuspension l.contract q suspend)
    (aboard : l.Aboard s ⟨m, ⟨.enter (waitBranch q suspend i j k n) none,
      ⟨e, .statements (⟨u, .label q.label⟩ :: outcome :: last)⟩ :: K', τ⟩⟩)
    (held : lookup τ q.awaiter.id = some (.future cell)) (future : τ.host.future? cell = some f)
    (h : Abreast (l.outlasts params) L.New l A σ τ) :
    ∃ m' τ' g, l.Serves m' ∧ Abreast (l.outlasts params) L.New l A σ τ' ∧
      lookup τ' q.awaiter.id = some (.future cell) ∧ τ'.host.future? cell = some g ∧
      g.isCompleted = true ∧ g.outcome = f.outcome ∧
      (∀ v ∈ q.result, τ'.locals.contains v.id = true) ∧
      driving.Reaches ⟨m, ⟨.enter (waitBranch q suspend i j k n) none,
          ⟨e, .statements (⟨u, .label q.label⟩ :: outcome :: last)⟩ :: K', τ⟩⟩
        ⟨m', ⟨.enter outcome none, ⟨e, .statements last⟩ :: K', τ'⟩⟩ := by
  -- A completed future is read at once; else the run suspends, and a later run reads it.
  cases completed : f.isCompleted with
  | true =>
    have asked := reaches_asked (l := l)
      (⟨e, .statements (⟨u, .label q.label⟩ :: outcome :: last)⟩ :: K') suspend i j k n held
    have cell' : cell? τ.host (.future cell) = some (cell, f) := by rw [cell?, future]; rfl
    rw [cell'] at asked
    dsimp only at asked
    rw [if_pos completed] at asked
    have declared : ∀ v ∈ q.result, τ.locals.contains v.id = true := fun v result ↦ by
      refine aboard.upkept.declared _ List.mem_cons_self _ rfl v ?_
      rw [shape]
      exact Option.mem_toList.2 result
    refine ⟨m, τ, f, aboard.serves, h, held, future, completed, rfl, declared,
      aboard.reaches (asked.trans ?_)⟩
    exact (reaches_sibling rfl).trans ((reaches_value rfl).trans (reaches_sibling rfl))
  | false =>
    obtain ⟨m', τ', serves, h', held', future', declared, reach⟩ := reaches_label fair fits isReturn
      outer shape rfl rfl suspension aboard held future completed h
    refine ⟨m', τ', f.complete, serves, h', held', future', rfl, rfl, declared, reach.trans ?_⟩
    exact (aboard.later serves reach).reaches ((reaches_value rfl).trans (reaches_sibling rfl))

/-- With its awaiter at hand, a session leaves a suspend point with what waiting comes to. -/
theorem awaits (fair : L.Fair params) {e entry n : Node} {X : Added} {i j : NodeId} {value : Node}
    {rest : List Node} (fits : L.Fits params A (.twin p e (X ++ .ofPoint q entry)))
    (isPoint : IsPoint l.contract acquire q o e) (isReturn : IsReturn l.contract q.label entry)
    (outer : L.Stacks params A (.twin p e (X ++ .ofPoint q entry)) K K')
    (shape : e = ⟨i, .block q.result.toList (⟨j, .assign q.awaiter value⟩ :: rest)⟩) {w : Value}
    (aboard : l.Aboard s ⟨m, ⟨.leave (.ok w),
      ⟨⟨j, .assign q.awaiter value⟩, .operand⟩ :: ⟨e, .statements rest⟩ :: K', τ⟩⟩)
    (h : Abreast (l.outlasts params) L.New l A σ τ) :
    ∃ r r' σ' m' τ', Evaluator.waitFor waiting none w n σ = (r, σ') ∧ SameEnding r r' ∧
      l.Serves m' ∧ Abreast (l.outlasts params) L.New l A σ' τ' ∧
      driving.Reaches ⟨m, ⟨.leave (.ok w),
          ⟨⟨j, .assign q.awaiter value⟩, .operand⟩ :: ⟨e, .statements rest⟩ :: K', τ⟩⟩
        ⟨m', ⟨.leave (q.ends r'), K', τ'⟩⟩ := by
  obtain ⟨field, results, bare⟩ := fits.of_point
  cases isPoint with
  | @mk i₀ i₁ i₂ i₃ i₄ i₅ i₆ i₇ i₈ i₉ i₁₀ suspend outcome run suspension outcomes update =>
  cases shape
  let last : List Node := [⟨i₈, .assign q.awaiter ⟨i₉, .defaultOf .any⟩⟩, run, ⟨i₁₀, q.valueShape⟩]
  let behind : List Node := ⟨i₇, .label q.label⟩ :: outcome :: last
  let wait : Node := waitBranch q suspend i₃ i₄ i₅ i₆
  let store : Node := ⟨j, .assign q.awaiter ⟨i₂, Expand.acquireShape acquire o⟩⟩
  let e : Node := ⟨i, .block q.result.toList (store :: wait :: behind)⟩
  -- The awaiter is stored.
  obtain ⟨τ₁, set, h₁⟩ := exists_awaiter_set fair bare field w h
  have held : lookup τ₁ q.awaiter.id = some w := lookup_assigned _ _ set
  have stored : (system l.setting).Reaches
      ⟨.leave (.ok w), ⟨store, .operand⟩ :: ⟨e, .statements (wait :: behind)⟩ :: K', τ⟩
      ⟨.enter wait none, ⟨e, .statements behind⟩ :: K', τ₁⟩ :=
    (reaches_assigned rfl set).trans (reaches_sibling rfl)
  have aboard₁ := aboard.next stored
  rcases h₁.alike.host.cell? w with ⟨cell, f, f', found, -, rfl, future, same⟩ | ⟨none, none'⟩
  · -- The awaiter is a future.
    obtain ⟨m', τ₂, g, serves, h₂, held₂, future₂, completed, outcome', declared, reach⟩ :=
      reaches_completed fair fits isReturn outer (rfl : e.shape = _) suspension aboard₁ held
        future h₁
    obtain ⟨τ₃, h₃, ends⟩ := reaches_end K' e i₈ i₉ i₁₀ fair bare
      outcomes update field results held₂ future₂ completed declared h₂
    refine ⟨_, _, _, m', τ₃, waitFor_cell (s := waiting) found, ?_, serves,
      h₃.host_left (h₃.alike.host.complete_left cell), (aboard.reaches stored).trans (reach.trans
        (((aboard₁.later serves reach).reaches ends)))⟩
    rw [outcome', ← same]
    cases f.outcome with
    | ok v => exact .value v
    | error ex => exact .thrown ex
  · -- The awaiter is something else, which both runs refuse.
    have asked := reaches_asked (l := l) (⟨e, .statements behind⟩ :: K') suspend i₃ i₄ i₅ i₆ held
    rw [none'] at asked
    obtain ⟨place, asked⟩ := asked
    have left : (system l.setting).Reaches _ _ := asked.trans (reaches_over rfl)
    exact ⟨_, .error (.stop (.fault ⟨.notAwaitable w.type, place⟩)), _, m, τ₁, waitFor_none none,
      .fault _ _ _, aboard.serves, h₁, (aboard.reaches stored).trans (aboard₁.reaches left)⟩

/-- Both runs go on to leave a place, with ends that are the same. -/
def Leaves (L : Layout l) (params : List SymbolId) (A : Scope) (K K' : List Steps.Task)
    (c : Configuration) (d : UnderWay) : Prop :=
  ∃ r r' σ m τ, SameEnding r r' ∧ l.Serves m ∧ Abreast (l.outlasts params) L.New l A σ τ ∧
    (system waiting).Proceeds c ⟨.leave r, K, σ⟩ ∧ driving.Proceeds d ⟨m, ⟨.leave r', K', τ⟩⟩

/-- Both runs leave a suspend point, when its operand has a value. -/
theorem leaves_point (fair : L.Fair params)
    (fits : L.Fits params A (.twin p e (X ++ .ofPoint q entry)))
    (tasks : WaitTasks acquire p'.prompt q.result p.prompt ts)
    (isPoint : IsPoint l.contract acquire q o e) (isReturn : IsReturn l.contract q.label entry)
    (tasks' : OperandTasks acquire o e ts')
    (outer : L.Stacks params A (.twin p e (X ++ .ofPoint q entry)) K K') {v : Value}
    (aboard : l.Aboard s ⟨m, ⟨.leave (.ok v), ts' ++ K', τ⟩⟩)
    (discreet : ∀ d, driving.Reaches s.begins d → d.here.Discreet)
    (h : Abreast (l.outlasts params) L.New l A σ τ) :
    L.Leaves params A K K' ⟨.leave (.ok v), ts ++ K, σ⟩ ⟨m, ⟨.leave (.ok v), ts' ++ K', τ⟩⟩ := by
  obtain ⟨n, leaves⟩ := tasks.leaves (q := q) v σ K
  have point := isPoint
  cases point with
  | @mk i₀ i₁ i₂ i₃ i₄ i₅ i₆ i₇ i₈ i₉ i₁₀ suspend outcome run suspension outcomes update =>
  obtain ⟨d, here⟩ : ∃ d : UnderWay, d = ⟨m, ⟨.leave (.ok v), ts' ++ K', τ⟩⟩ := ⟨_, rfl⟩
  rw [← here]
  obtain ⟨⟩ := tasks'
  -- Behind the acquisition.
  have acquired {w : Value} {σ₁ τ₁ : Frame} (h₁ : Abreast (l.outlasts params) L.New l A σ₁ τ₁)
      (waits : Evaluator.waitFor waiting acquire v n σ = Evaluator.waitFor waiting none w n σ₁)
      (acquires : leaveTo l.setting ⟨⟨i₂, Expand.acquireShape acquire o⟩, acquireStage acquire⟩
          (.ok v) τ =
        give (.ok w) τ₁) : L.Leaves params A K K' ⟨.leave (.ok v), ts ++ K, σ⟩ d := by
    rw [here]
    have step := aboard.proceeds rfl (.of_next (congrArg (Move.on · _) acquires))
    obtain ⟨r, r', σ', m', τ', waited, same, serves, h', reach⟩ := awaits (n := n) fair fits isPoint
      isReturn outer rfl (aboard.later aboard.serves step.reaches) h₁
    exact ⟨_, _, σ', m', τ', same.ends q, serves, h', leaves (waits.trans waited) same.noJump.1,
      step.trans_reaches reach⟩
  -- An acquisition that fails leaves the block.
  have failed {e e' : Exit} {σ₁ τ₁ : Frame} (h₁ : Abreast (l.outlasts params) L.New l A σ₁ τ₁)
      (same : SameEnding (.error e : Outcome) (.error e'))
      (waits : Evaluator.waitFor waiting acquire v n σ = (.error e, σ₁))
      (fails : leaveTo l.setting ⟨⟨i₂, Expand.acquireShape acquire o⟩, acquireStage acquire⟩
        (.ok v) τ = give (.error e') τ₁) : L.Leaves params A K K'
        ⟨.leave (.ok v), ts ++ K, σ⟩ d := by
    rw [here]
    have noJump : ∀ label, e' ≠ .jump label := fun label eq ↦ same.noJump.2 label (congrArg _ eq)
    refine ⟨_, _, σ₁, m, τ₁, same.ends q, aboard.serves, h₁, leaves waits same.noJump.1,
      aboard.proceeds rfl (.trans_reaches (.of_next (congrArg (Move.on · _) fails)) ?_)⟩
    exact (reaches_over rfl).trans (reaches_over (leaveTo_block noJump))
  cases acquire with
  | none =>
    rcases h.alike.host.cell? v with ⟨cell, f, f', found, found', -⟩ | ⟨none, none'⟩
    · refine acquired h rfl ?_
      show perform (Evaluator.awaiterStep .acquire v _) τ = _
      rw [perform, Evaluator.awaiterStep, bind_apply, cell_apply, found']
      rfl
    · refine failed h (.fault _ (some n.id) (some i₂)) (waitFor_none none) ?_
      show perform (Evaluator.awaiterStep .acquire v _) τ = _
      rw [perform, Evaluator.awaiterStep, bind_apply, cell_apply, none']
      rfl
  | some name =>
    obtain ⟨same, h₁⟩ := h.invoke waiting l.setting n ⟨i₂, .call name [o]⟩ rfl rfl (.same [v])
      ((discreet _ aboard.reached).of_call rfl)
    have waits := congrFun (waitFor_acquired waiting name v n) σ
    rw [bind_apply] at waits
    have leaves : leaveTo l.setting ⟨⟨i₂, .call name [o]⟩, .operands [] []⟩ (.ok v) τ =
        perform (Evaluator.invoke l.setting name [v] ⟨i₂, .call name [o]⟩) τ := rfl
    rw [perform] at leaves
    generalize Evaluator.invoke waiting name [v] n σ = x at same h₁ waits
    generalize Evaluator.invoke l.setting name [v] ⟨i₂, .call name [o]⟩ τ = x' at same h₁ leaves
    obtain ⟨r, σ₁⟩ := x
    obtain ⟨r', τ₁⟩ := x'
    dsimp only at same h₁ waits leaves
    cases same with
    | value w => exact acquired h₁ waits leaves
    | exit e noJump => exact failed h₁ (.exit e noJump) waits leaves
    | fault cause place place' => exact failed h₁ (.fault cause place place') waits leaves

end Layout

end Suspension
