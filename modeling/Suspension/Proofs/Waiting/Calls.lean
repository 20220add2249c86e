import Suspension.Proofs.Waiting.Pairs

/-!
# Calls

A call is the one layer that may differ in the two runs: the number of steps that a future takes is
an argument. Where it is a constant, both runs have evaluated it by the time that they come to the
next argument (`Layout.Fits.next_argument`). The operation answers both alike.
-/

namespace Suspension

open Steps Eval TransitionSystem Session

namespace Arguments

variable {callee : String} {ks : List Part} {ns : List Node}

/-- Arguments that are the same. -/
theorem refl (callee : String) (m : Nat) (ks : List Part) :
    Arguments callee m ks (ks.map Part.first) := by
  induction ks generalizing m with
  | nil => exact .nil m
  | cons k ks ih => exact .same k (ih (m + 1))

/-- The arguments of a call in a prompt tree. -/
theorem prompt (callee : String) (ks : List Part) : Arguments callee 0 ks
    (if takesSteps callee then (ks.map Part.first).modify 1 Node.zeroed else ks.map
      Part.first) := by
  split
  · rename_i takes
    match ks with
    | [] => exact .nil 0
    | [k] => exact .same k (.nil 1)
    | k :: k' :: ks =>
      refine .same k ?_
      show Arguments callee 1 (k' :: ks) (k'.first.zeroed :: ks.map Part.first)
      rcases shape : k'.settled with ⟨i, sh⟩
      have other (same : k'.first.zeroed = k'.first) :
          Arguments callee 1 (k' :: ks) (k'.first.zeroed :: ks.map Part.first) := by
        rw [same]
        exact .same k' (refl callee 2 ks)
      cases sh with
      | const value =>
        cases value with
        | int a =>
          have zeroed : k'.first.zeroed = ⟨i, .const (.int 0)⟩ := by
            rw [Part.first, shape]
            rfl
          rw [zeroed]
          exact .steps takes shape (refl callee 2 ks)
        | _ => exact other (by rw [Part.first, shape]; rfl)
      | _ =>
        refine other (Node.zeroed_of_kind ?_)
        rw [Part.first, Node.kind_prompt, shape]
        rintro ⟨⟩
  · exact refl callee 0 ks

theorem length_eq {m : Nat} (h : Arguments callee m ks ns) : ks.length = ns.length := by
  induction h with
  | nil => rfl
  | same k rest ih => exact congrArg (· + 1) ih
  | steps takes constant rest ih => exact congrArg (· + 1) ih

end Arguments

namespace Layout.Fits

variable {l : Lowered} {L : Layout l} {params : List SymbolId} {A : Scope} {k : Part}
variable {K K' : List Steps.Task} {σ τ : Frame} {s : Session} {m : Machine} {callee : String}

/-- The arguments of a call are trees beside their expansions. -/
theorem argument_twin {ks : List Part} (layered : k.Layered l.keeps l.contract (.call callee ks)) :
    ∀ y ∈ ks, ∃ X, Twin l.keeps l.contract y.settled (y.second l.contract) X := by
  intro y member
  generalize eq : Shape.call callee ks = x at layered
  cases layered with
  | region => cases eq
  | @twin i i' x twins =>
    cases x with
    | call callee' ys =>
      obtain ⟨rfl, rfl⟩ := Shape.call.inj eq
      obtain ⟨y, child, rfl⟩ := List.mem_map.1 member
      exact ⟨_, twins.below y child⟩
    | _ => cases eq

/-- What is sought in the arguments of both calls is the same. -/
theorem sought_argument {ks : List Part} {ns : List Node} {n : Nat} {seek : Option SymbolId}
    (args : Arguments callee n ks ns) (fits : ∀ y ∈ ks, (∃ B, L.Fits params B y) ∧
      ∃ X, Twin l.keeps l.contract y.settled (y.second l.contract) X)
    (sought : ∀ label, seek = some label → ¬ L.New label) :
    Evaluator.soughtOperand? waiting ns seek =
      Evaluator.soughtOperand? l.setting (ks.map (Part.second l.contract)) seek := by
  let R (o o' : Node) : Prop := (∀ label, ¬ L.New label →
    waiting.labels o label = l.setting.labels o' label) ∧ o.isStable = o'.isStable
  refine soughtOperand_match (R := R) (fun eq related ↦ related.1 _ (sought _ eq))
    (fun related ↦ related.2) ?_
  induction args with
  | nil => exact .nil
  | same k rest ih =>
    obtain ⟨⟨⟨B, here⟩, X, twin⟩, later⟩ := List.forall_mem_cons.1 fits
    exact .cons ⟨fun label old ↦ here.labels old, stable twin⟩ (ih later)
  | @steps k ks ns i a takes constant rest ih =>
    obtain ⟨⟨⟨B, here⟩, X, twin⟩, later⟩ := List.forall_mem_cons.1 fits
    have first : k.first = ⟨i, .const (.int a)⟩ := by
      rw [Part.first, constant]
      rfl
    have labels {label : SymbolId} (old : ¬ L.New label) := here.labels old
    have stable : k.first.isStable = (k.second l.contract).isStable := stable twin
    rw [first] at stable
    simp only [first] at labels
    exact .cons ⟨fun label old ↦ labels old, stable⟩ (ih later)

/-- The nodes of a call. -/
theorem call_shapes {ks : List Part} (layered : k.Layered l.keeps l.contract (.call callee ks)) :
    k.first.shape = .call callee (if takesSteps callee then (ks.map Part.first).modify 1 Node.zeroed
      else ks.map Part.first) ∧
    (k.second l.contract).shape = .call callee (ks.map (Part.second l.contract)) := by
  refine ⟨?_, layered.second⟩
  rw [Part.first, Node.prompt_eq]
  show ((k.settled.shape.map Node.prompt).prompt) = _
  rw [layered.settled, Shape.map_map]
  rfl

/-- The arguments of a call have values, and the operation answers. -/
theorem answers {ks : List Part} (layered : k.Layered l.keeps l.contract (.call callee ks))
    {done done' : List Value} (given : Given callee done done')
    (discreet : Host.Discreet callee done')
    (outer : L.Stacks params A k K K') (frames : Abreast (l.outlasts params) L.New l A σ τ) :
    L.Related params ((perform (combine waiting k.first done) σ).on K)
      ⟨m, (perform (combine l.setting (k.second l.contract) done') τ).on K'⟩ := by
  obtain ⟨shape, shape'⟩ := call_shapes layered
  have invokes : combine waiting k.first done = Evaluator.invoke waiting callee done k.first := by
    simp only [combine, shape]
  have invokes' : combine l.setting (k.second l.contract) done' =
      Evaluator.invoke l.setting callee done' (k.second l.contract) := by
    simp only [combine, shape']
  obtain ⟨same, after⟩ :=
    frames.invoke waiting l.setting k.first (k.second l.contract) rfl rfl given
      (given.discreet discreet)
  rw [invokes, invokes']
  exact .leave outer same.outcomes (Lockstep.yields_of_untold (by rw [shape]; trivial) _ _) after

/-- One more argument has a value. -/
theorem hold_argument {before after : List Part} {y : Part} {done : List Value} {v : Value}
    (known : List.Forall₂ Known (before.map Part.first) done) (yields : Yields y.first (.ok v) σ)
    (frames : Abreast (l.outlasts params) L.New l
      (A.hold (before.map Part.first) done ((y :: after).map Part.first)) σ τ) :
    List.Forall₂ Known ((before ++ [y]).map Part.first) (done ++ [v]) ∧
      Abreast (l.outlasts params) L.New l
        (A.hold ((before ++ [y]).map Part.first) (done ++ [v]) (after.map Part.first)) σ τ := by
  rw [List.map_append]
  refine ⟨List.rel_append known (.cons (Lockstep.known_of_yields yields) .nil), ?_, frames.running⟩
  exact frames.alike.hold yields known.length_eq.symm

/-- A constant is the same constant in the second run. -/
theorem second_of_const {y : Part} {X : Added} {i : NodeId} {v : Literal}
    (twin : Twin l.keeps l.contract y.settled (y.second l.contract) X)
    (constant : y.settled = ⟨i, .const v⟩) : ∃ i', y.second l.contract = ⟨i', .const v⟩ := by
  rw [constant] at twin
  have shape := twin.shape_of_kept (p := ⟨i, .const v⟩) trivial
  generalize y.second l.contract = e at shape
  obtain ⟨i', sh⟩ := e
  exact ⟨i', congrArg _ shape⟩

/-- Both runs come to the next argument, or to the answer of the operation. -/
theorem next_argument (fits : L.Fits params A k) (discreet : ∀ d, driving.Reaches s.begins d →
      d.here.Discreet) {before after : List Part}
    (layered : k.Layered l.keeps l.contract (.call callee (before ++ after)))
    {done done' : List Value}
    {rest rest' : List (Node × Option SymbolId)} (given : Given callee done done')
    (known : List.Forall₂ Known (before.map Part.first) done')
    (left : Arguments callee before.length after (rest.map Prod.fst))
    (left' : rest'.map Prod.fst = after.map (Part.second l.contract))
    (seeks : rest.map Prod.snd = rest'.map Prod.snd)
    (sought : ∀ label, some label ∈ rest'.map Prod.snd → ¬ L.New label) (ready : Ready rest')
    (outer : L.Stacks params A k K K') (frames : Abreast (l.outlasts params) L.New l
      (A.hold (before.map Part.first) done' (after.map Part.first)) σ τ)
    (aboard : l.Aboard s ⟨m, (nextOperand l.setting (k.second l.contract) done' rest' τ).on K'⟩)
    (all : after = [] → Host.Discreet callee done') :
    ∃ c d, (system waiting).Reaches ((nextOperand waiting k.first done rest σ).on K) c ∧
      driving.Reaches ⟨m, (nextOperand l.setting (k.second l.contract) done' rest' τ).on K'⟩ d ∧
      L.Related params c d ∧ l.Serves d.machine := by
  induction after generalizing before done done' rest rest' σ τ with
  | nil =>
    obtain rfl : rest' = [] := List.map_eq_nil_iff.1 left'
    obtain rfl : rest = [] := List.map_eq_nil_iff.1 seeks
    exact ⟨_, _, .refl _, .refl _, answers layered given (all rfl) outer
      (frames.within (A.within_hold _ _ _)), aboard.serves⟩
  | cons y after ih =>
    obtain ⟨⟨o', seek'⟩, rest', rfl, rfl, later'⟩ := List.map_eq_cons_iff.1 left'
    obtain ⟨⟨o, seek⟩, rest, rfl, same, seeks'⟩ := List.map_eq_cons_iff.1 seeks
    obtain rfl : seek = seek' := same
    have ready' : Ready ((y.second l.contract, none) :: rest') :=
      List.pairwise_cons.2 (List.pairwise_cons.1 ready)
    have inside : L.Fits params
        (A.hold (before.map Part.first) done' ((y :: after).map Part.first)) y :=
      fits.operand layered rfl done'
    have sought' : ∀ label, some label ∈ rest'.map Prod.snd → ¬ L.New label := fun label member ↦
      sought label (List.mem_cons_of_mem _ member)
    generalize eq : List.map Prod.fst ((o, seek) :: rest) = args at left
    generalize place : before.length = n at left
    cases left with
    | same _ later =>
      obtain ⟨rfl, rfl⟩ := List.cons.inj eq
      refine ⟨_, _, .refl _, .refl _, .enter inside ?_ (fun label eq ↦ sought label ?_) frames,
        aboard.serves⟩
      · exact .call fits layered given known (place ▸ later) later' seeks' sought' ready' outer
      · exact eq ▸ List.mem_cons_self
    | @steps _ _ _ i a takes constant later =>
      -- Both runs evaluate the number at once, whatever it is.
      obtain ⟨rfl, rfl⟩ := List.cons.inj eq
      obtain ⟨X, twin⟩ := argument_twin layered y (by simp)
      obtain ⟨i', second⟩ := second_of_const twin constant
      obtain ⟨v, rfl, rfl⟩ : ∃ v, done' = [v] ∧ done = [v] := by
        have length : done'.length = 1 := by rw [← known.length_eq, List.length_map, place]
        obtain ⟨v, rfl⟩ := List.length_eq_one_iff.1 length
        cases given with
        | same => exact ⟨v, rfl, rfl⟩
      rw [second] at aboard ⊢
      have first : (system waiting).Reaches ((nextOperand waiting k.first [v]
          ((⟨i, .const (.int 0)⟩, seek) :: rest) σ).on K)
          ((nextOperand waiting k.first [v, .int 0] rest σ).on K) :=
        (reaches_value rfl).trans (reaches_leave rfl (.refl _))
      have evaluates : (system l.setting).Reaches ((nextOperand l.setting (k.second l.contract) [v]
          ((⟨i', .const (.int a)⟩, seek) :: rest') τ).on K')
          ⟨.leave (.ok (.int a)), ⟨k.second l.contract, .operands [v] rest'⟩ :: K', τ⟩ :=
        reaches_value rfl
      have goesOn : (system l.setting).Reaches
          ⟨.leave (.ok (.int a)), ⟨k.second l.contract, .operands [v] rest'⟩ :: K', τ⟩
          ((nextOperand l.setting (k.second l.contract) [v, .int a] rest' τ).on K') :=
        reaches_leave rfl (.refl _)
      have onward := aboard.next (evaluates.trans goesOn)
      have yields : Yields y.first (.ok (.int a)) σ := by
        rw [Part.first, constant]
        rintro w ⟨⟩
        rfl
      obtain ⟨knows, held⟩ := hold_argument known yields frames
      have last : after = [] → Host.Discreet callee ([v] ++ [.int a]) := by
        rintro rfl
        obtain rfl : rest' = [] := List.map_eq_nil_iff.1 later'
        exact (discreet _ (aboard.next evaluates).reached).of_call (call_shapes layered).2
      obtain ⟨c, d, reach, reach', related⟩ :=
        ih (by simpa using layered) (.steps takes v 0 a []) knows (by simpa [place] using later)
          later' seeks' sought' (List.pairwise_cons.1 ready).2 held onward
        last
      exact ⟨c, d, first.trans reach, (aboard.reaches (evaluates.trans goesOn)).trans reach',
        related⟩

/-- A call is entered in both runs. -/
theorem enters_call (fits : L.Fits params A k) (discreet : ∀ d, driving.Reaches s.begins d →
      d.here.Discreet) {ks : List Part} (layered : k.Layered l.keeps l.contract (.call callee ks))
    (outer : L.Stacks params A k K K') {seek : Option SymbolId}
    (sought : ∀ label, seek = some label → ¬ L.New label)
    (frames : Abreast (l.outlasts params) L.New l A σ τ)
    (aboard : l.Aboard s ⟨m, ⟨.enter (k.second l.contract) seek, K', τ⟩⟩) :
    L.Advances params ⟨.enter k.first seek, K, σ⟩
      ⟨m, ⟨.enter (k.second l.contract) seek, K', τ⟩⟩ := by
  obtain ⟨shape, shape'⟩ := call_shapes layered
  have args := Arguments.prompt callee ks
  generalize (if takesSteps callee then (ks.map Part.first).modify 1 Node.zeroed
    else ks.map Part.first) = ns at shape args
  have fit : ∀ y ∈ ks, (∃ B, L.Fits params B y) ∧
      ∃ X, Twin l.keeps l.contract y.settled (y.second l.contract) X := fun y member ↦
    ⟨⟨_, fits.child layered (z := ([], y)) (List.mem_map_of_mem member)⟩,
      argument_twin layered y member⟩
  -- The argument that is sought is at the same place in both calls.
  have places := sought_argument args fit sought
  have enters : enterNode waiting k.first seek σ = firstOperand waiting k.first ns seek σ := by
    rw [enterNode, Abreast.noted_mute rfl, startNode, shape]
  have enters' : enterNode l.setting (k.second l.contract) seek τ =
      firstOperand l.setting (k.second l.contract) (ks.map (Part.second l.contract)) seek τ := by
    rw [enterNode, Abreast.noted_mute rfl, startNode, shape']
  have step : (system waiting).Proceeds ⟨.enter k.first seek, K, σ⟩
      ((firstOperand waiting k.first ns seek σ).on K) := .of_next (congrArg (Move.on · K) enters)
  have step' : (system l.setting).Proceeds ⟨.enter (k.second l.contract) seek, K', τ⟩
      ((firstOperand l.setting (k.second l.contract) (ks.map (Part.second l.contract)) seek τ).on
      K') :=
    .of_next (congrArg (Move.on · K') enters')
  rw [firstOperand, places] at step
  rw [firstOperand] at step'
  cases found : Evaluator.soughtOperand? l.setting (ks.map (Part.second l.contract)) seek with
  | error cause =>
    rw [found] at step step'
    exact ⟨_, _, step, aboard.proceeds rfl step', .leave outer (.fault cause _ _)
      (Lockstep.yields_error _ _ _) frames, aboard.serves⟩
  | ok entered =>
    rw [found] at step step'
    dsimp only at step step'
    have length : ns.length = (ks.map (Part.second l.contract)).length := by
      rw [List.length_map, args.length_eq]
    have none : k.Layered l.keeps l.contract (.call callee ([] ++ ks)) := layered
    obtain ⟨c, d, reach, reach', related, serves⟩ :=
      next_argument fits discreet none (.same []) .nil (by rw [map_fst_sought]; exact args)
        (map_fst_sought _ _ _) (map_snd_sought length entered seek)
      (fun label member ↦ sought label (mem_sought member)) (ready_sought found) outer
      (by simpa only [List.map_nil, Scope.hold_nil] using frames) (aboard.next step'.reaches)
      fun _ _ cell ↦ List.not_mem_nil
    exact ⟨c, d, step.trans_reaches reach, (aboard.proceeds rfl step').trans_reaches reach',
      related, serves⟩

/-- Both runs leave to a call. -/
theorem leaves_call (fits : L.Fits params A k) (discreet : ∀ d, driving.Reaches s.begins d →
      d.here.Discreet) {before after : List Part} {y : Part}
    (layered : k.Layered l.keeps l.contract (.call callee (before ++ y :: after)))
    {done done' : List Value} {rest rest' : List (Node × Option SymbolId)}
    (given : Given callee done done') (known : List.Forall₂ Known (before.map Part.first) done')
    (left : Arguments callee (before.length + 1) after (rest.map Prod.fst))
    (left' : rest'.map Prod.fst = after.map (Part.second l.contract))
    (seeks : rest.map Prod.snd = rest'.map Prod.snd)
    (sought : ∀ label, some label ∈ rest'.map Prod.snd → ¬ L.New label)
    (ready : Ready ((y.second l.contract, none) :: rest')) (outer : L.Stacks params A k K K')
    {r r' : Outcome} (outcomes : Outcomes (fun label ↦ ¬ L.New label) (fun _ _ ↦ False) r r')
    (yields : Yields y.first r σ) (frames : Abreast (l.outlasts params) L.New l
      (A.hold (before.map Part.first) done' ((y :: after).map Part.first)) σ τ)
    (aboard : l.Aboard s ⟨m, ⟨.leave r', ⟨k.second l.contract, .operands done' rest'⟩ :: K', τ⟩⟩) :
    L.Advances params ⟨.leave r, ⟨k.first, .operands done rest⟩ :: K, σ⟩
      ⟨m, ⟨.leave r', ⟨k.second l.contract, .operands done' rest'⟩ :: K', τ⟩⟩ := by
  have passes {e e' : Exit} (outcomes : Outcomes (fun label ↦ ¬ L.New label) (fun _ _ ↦ False)
      (.error e : Outcome) (.error e'))
      (aboard : l.Aboard s ⟨m,
        ⟨.leave (.error e'), ⟨k.second l.contract, .operands done' rest'⟩ :: K', τ⟩⟩) :
      L.Advances params ⟨.leave (.error e), ⟨k.first, .operands done rest⟩ :: K, σ⟩
        ⟨m, ⟨.leave (.error e'), ⟨k.second l.contract, .operands done' rest'⟩ :: K', τ⟩⟩ :=
    ⟨_, _, .of_next rfl, aboard.proceeds rfl (.of_next rfl), .leave outer outcomes
      (Lockstep.yields_error _ _ _) (frames.within (A.within_hold _ _ _)), aboard.serves⟩
  cases outcomes with
  -- The value joins those in front of it, and the next argument is next in both runs.
  | value v =>
    have step : (system waiting).Proceeds ⟨.leave (.ok v), ⟨k.first, .operands done rest⟩ :: K, σ⟩
        ((nextOperand waiting k.first (done ++ [v]) rest σ).on K) := .of_next rfl
    have step' : (system l.setting).Proceeds
        ⟨.leave (.ok v), ⟨k.second l.contract, .operands done' rest'⟩ :: K', τ⟩
        ((nextOperand l.setting (k.second l.contract) (done' ++ [v]) rest' τ).on K') := .of_next rfl
    obtain ⟨knows, held⟩ := hold_argument known yields frames
    have last : after = [] → Host.Discreet callee (done' ++ [v]) := by
      rintro rfl
      obtain rfl : rest' = [] := List.map_eq_nil_iff.1 left'
      exact (discreet _ aboard.reached).of_call (call_shapes layered).2
    obtain ⟨c, d, reach, reach', related, serves⟩ := next_argument fits discreet
      (by simpa using layered) (given.append v) knows (by simpa using left) left' seeks sought
      (List.pairwise_cons.1 ready).2 outer held (aboard.next step'.reaches) last
    exact ⟨c, d, step.trans_reaches reach, (aboard.proceeds rfl step').trans_reaches reach',
      related, serves⟩
  | jump admitted => exact passes (.jump admitted) aboard
  | ret v => exact passes (.ret v) aboard
  | thrown v => exact passes (.thrown v) aboard
  | fault cause place place' => exact passes (.fault cause place place') aboard
  | negationOverflow => exact passes .negationOverflow aboard
  | outOfFuel => exact passes .outOfFuel aboard
  | escape stand => exact stand.elim

end Layout.Fits

end Suspension
