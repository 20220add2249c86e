import Mathlib.Data.List.Pairwise
import Suspension.Proofs.Suspending.Moves

/-!
# Moves that stop to wait

A suspend point asks the awaiter in its variable whether it is completed, and nothing else in a
lowered body does (`Layout.asks_of_mem`). If the awaiter is not completed, the answer leads to the
way out of the suspend point (`Layout.leaves_question`), and the way out to the end of the body. So
a move that finds an awaiter that is not completed stops to wait for it, and does nothing else once
the awaiter is handed over (`Node.LowersTo.suspends_only`).
-/

namespace Suspension

open Steps Eval TransitionSystem

/-- A node of a tree whose nodes are numbered apart is the child of one node only. -/
theorem Node.parent_unique {root a b c : Node} (distinct : root.ids.Nodup) (within : a ∈ root.walk)
    (within' : b ∈ root.walk) (child : c ∈ a.children) (child' : c ∈ b.children) : a = b := by
  have nodes : root.walk.Nodup := List.Nodup.of_map _ distinct
  clear distinct
  induction root using Node.induction with
  | step n ih =>
    rw [walk_eq] at within within' nodes
    obtain ⟨-, nodes⟩ := List.nodup_cons.1 nodes
    obtain ⟨each, disjoint⟩ := List.nodup_flatMap.1 nodes
    have sole : ∀ d ∈ n.children, ∀ d' ∈ n.children, ∀ m ∈ d.walk, m ∈ d'.walk → d = d' := by
      let shares (d d' : Node) : Prop := ∀ m ∈ d.walk, m ∈ d'.walk → d = d'
      have : Std.Symm shares := ⟨fun _ _ h m inside inside' ↦ (h m inside' inside).symm⟩
      exact fun d member d' member' ↦ List.Pairwise.forall_of_forall (R := shares)
        (fun _ _ _ _ _ ↦ rfl)
        (disjoint.imp fun apart m inside inside' ↦ (apart inside inside').elim) member member'
    -- Nothing beneath a node has it as a child.
    have top {d : Node} (member : d ∈ n.children) {m : Node} (inside : m ∈ d.walk)
        (outer : c ∈ n.children) (inner : c ∈ m.children) : False := by
      obtain rfl := sole c outer d member c (mem_walk_self c) (mem_children_walk inner inside)
      have := size_le_of_mem_walk inside
      have := size_lt_of_mem_children inner
      omega
    rcases List.mem_cons.1 within with rfl | within <;>
      rcases List.mem_cons.1 within' with rfl | within'
    · rfl
    · obtain ⟨d, member, inside⟩ := List.mem_flatMap.1 within'
      exact (top member inside child child').elim
    · obtain ⟨d, member, inside⟩ := List.mem_flatMap.1 within
      exact (top member inside child' child).elim
    · obtain ⟨d, member, inside⟩ := List.mem_flatMap.1 within
      obtain ⟨d', member', inside'⟩ := List.mem_flatMap.1 within'
      obtain rfl := sole d member d' member' c (mem_children_walk child inside)
        (mem_children_walk child' inside')
      exact ih d member inside inside' (each d member)

/-- Above what stands beneath the root of a run there is a task that waits for it. -/
theorem Steps.Lineage.exists_task {root n : Node} {K : List Steps.Task} (h : Lineage root n K)
    (other : n ≠ root) : ∃ t K', K = t :: K' ∧ Lineage root t.node K' ∧ t.Awaits n := by
  cases h with
  | root => exact absurd rfl other
  | child outer awaits => exact ⟨_, _, rfl, outer, awaits⟩

/-! ### Questions -/

/-- A run is about to ask the awaiter in a variable whether it is completed, and the variable holds
a future that is not. -/
inductive Steps.Configuration.FindsPending (v : Variable) (cell : Nat) : Configuration → Prop
  | mk {question : Node} {K : List Steps.Task} {σ : Frame} {f : Future} (asks : question.Asks v)
    (held : lookup σ v.id = some (.future cell)) (future : σ.host.future? cell = some f)
    (pending : f.isCompleted = false) : FindsPending v cell ⟨.enter question none, K, σ⟩

/-- Whether a run is about to find an awaiter that is not completed, as it can be computed. -/
def Steps.Configuration.findsPending (v : Variable) (cell : Nat) : Configuration → Bool
  | ⟨.enter ⟨_, .awaiter .isCompleted ⟨_, .var w⟩⟩ none, _, σ⟩ =>
    w == v && lookup σ v.id == some (.future cell) &&
      (σ.host.future? cell).any fun f ↦ !f.isCompleted
  | _ => false

theorem Steps.Configuration.FindsPending.of_computed {c : Configuration} {v : Variable} {cell : Nat}
    (h : c.findsPending v cell = true) : c.FindsPending v cell := by
  unfold Configuration.findsPending at h
  split at h
  · simp only [Bool.and_eq_true, beq_iff_eq, Option.any_eq_true, Bool.not_eq_true'] at h
    obtain ⟨⟨rfl, held⟩, f, future, pending⟩ := h
    exact .mk ⟨_, rfl⟩ held future pending
  · cases h

/-- The next move of a session comes to where the awaiter in a variable is asked whether it is
completed, and the awaiter is a future that is not. -/
def Session.FindsPending (t : Session) (v : Variable) (cell : Nat) : Prop :=
  ∃ c : Configuration, c.FindsPending v cell ∧
    (system { labels := t.machine.labels, records := true }).Reaches
      (start t.machine.body none { persisted := t.machine.persisted, host := t.host }) c

/-- If an awaiter is not completed, the arm is entered that waits for it. -/
theorem reaches_pending_arm {s : Setting} {K : List Steps.Task} {σ : Frame} {v : Variable}
    {cell : Nat} {f : Future} (i j k m : NodeId) (arm : Node)
    (held : lookup σ v.id = some (.future cell)) (future : σ.host.future? cell = some f)
    (pending : f.isCompleted = false) :
    let question : Node := ⟨k, .awaiter .isCompleted ⟨m, .var v⟩⟩
    let branch : Node := ⟨i, .branch ⟨j, .unary .not question⟩ arm none⟩
    (system s).Reaches
      ⟨.enter question none, ⟨⟨j, .unary .not question⟩, .operand⟩ :: ⟨branch, .test⟩ :: K, σ⟩
      ⟨.enter arm none, ⟨branch, .arm⟩ :: K,
        noted s (.visit m none) (noted s (.visit k none) σ)⟩ := by
  intro question branch
  let σ' := noted s (.visit m none) (noted s (.visit k none) σ)
  have held' : lookup (noted s (.visit k none) σ) v.id = some (.future cell) := by
    rw [lookup, noted_locals, noted_persisted]
    exact held
  have answers : leaveTo s ⟨question, .operand⟩ (.ok (.future cell)) σ' =
      give (.ok (.bool false)) σ' := by
    have asked : cell? σ'.host (.future cell) = some (cell, f) := by
      simp only [cell?, σ', noted_host, future]
      rfl
    show perform (Evaluator.awaiterStep .isCompleted (.future cell) question) σ' = _
    rw [perform, Evaluator.awaiterStep, bind_apply, cell_apply, asked]
    dsimp only
    rw [pending]
    rfl
  exact (reaches_child rfl).trans ((reaches_load held').trans ((reaches_over answers).trans
    ((reaches_over rfl).trans (reaches_sibling rfl))))

namespace Layout

variable {l : Lowered} (L : Layout l)

/-- The tasks above a question whether an awaiter is completed are those of a suspend point. -/
inductive AboveQuestion (l : Lowered) (v : Variable) : Node → List Steps.Task → Prop
  | mk {q : Point} {d : Node} {K : List Steps.Task} (i j k m : NodeId)
    (suspension : IsSuspension l.contract q d) (awaiter : q.awaiter = v)
    (waits : (Int64.ofNat q.index, v) ∈ l.waits)
    (outer : Lineage l.body
      ⟨i, .branch ⟨j, .unary .not ⟨k, .awaiter .isCompleted ⟨m, .var v⟩⟩⟩ d none⟩ K) :
    AboveQuestion l v ⟨k, .awaiter .isCompleted ⟨m, .var v⟩⟩
      (⟨⟨j, .unary .not ⟨k, .awaiter .isCompleted ⟨m, .var v⟩⟩⟩, .operand⟩ ::
        ⟨⟨i, .branch ⟨j, .unary .not ⟨k, .awaiter .isCompleted ⟨m, .var v⟩⟩⟩ d none⟩, .test⟩ :: K)

include L in
theorem aboveQuestion {question : Node} {v : Variable} {K : List Steps.Task}
    (lineage : Lineage l.body question K) (asks : question.Asks v) (field : v ∈ l.fields) :
    AboveQuestion l v question K := by
  obtain ⟨b, within, ⟨q, d, isQuestion, waits⟩, inside⟩ := L.asks_of_mem lineage.within field asks
  cases isQuestion with
  | mk i j k m suspension =>
    let asked : Node := ⟨k, .awaiter .isCompleted ⟨m, .var q.awaiter⟩⟩
    let negated : Node := ⟨j, .unary .not asked⟩
    let branch : Node := ⟨i, .branch negated d none⟩
    -- Of the nodes of the branch only one asks, for none in the way out does.
    obtain ⟨o, shape⟩ := asks
    have kind : question.kind = .awaiter := congrArg Shape.kind shape
    have same : question = asked := by
      have elsewhere : question ∉ d.walk := fun beneath ↦
        Node.Departs.not_awaiter ⟨q, suspension⟩ beneath kind
      simp only [Node.walk_mk, Shape.children, Option.toList_none, List.flatMap_cons,
        List.flatMap_nil, List.append_nil, List.cons_append, List.nil_append, List.mem_cons,
        elsewhere, or_false] at inside
      rcases inside with rfl | rfl | rfl | rfl
      · cases kind
      · cases kind
      · rfl
      · cases kind
    subst same
    obtain rfl : q.awaiter = v := by cases shape; rfl
    have withinNegated : negated ∈ l.body.walk :=
      Node.mem_children_walk (List.mem_cons_self (l := [d])) within
    have inner {n : Node} (other : n.kind ≠ .block) : n ≠ l.body := by
      rintro rfl
      have assembled := L.assembled
      generalize l.body = root at assembled other
      cases assembled
      exact other rfl
    obtain ⟨⟨n, st⟩, K, rfl, above, awaits⟩ := lineage.exists_task (inner (by rintro ⟨⟩))
    obtain rfl : n = negated := Node.parent_unique L.ids above.within withinNegated awaits.child
      List.mem_cons_self
    obtain ⟨stage, -⟩ := awaits.of_unary (.unary asked asked .not)
    obtain rfl : st = .operand := stage
    obtain ⟨⟨n, st⟩, K, rfl, above, awaits⟩ := above.exists_task (inner (by rintro ⟨⟩))
    obtain rfl : n = branch := Node.parent_unique L.ids above.within within awaits.child
      List.mem_cons_self
    rcases awaits.of_branch rfl with ⟨stage, -⟩ | ⟨-, arm⟩
    · obtain rfl : st = .test := stage
      exact .mk i j k m suspension rfl waits above
    · cases List.mem_singleton.1 arm
      cases Node.Departs.kind ⟨q, suspension⟩

section Runs

variable {banned : String → Prop} (allowed : ∀ name ∈ L.prepared.calls, ¬ banned name)
variable {store : Store} {host : Host} {question : Node} {v : Variable} {K : List Steps.Task}
variable {τ : Frame}

include L allowed

/-- A body that asks whether an awaiter is completed is running. It has set out, for until then no
awaiter is asked, and it has taken no way out, for from there on none is. -/
theorem holds_at_question (rests : l.Rests store) (asks : question.Asks v)
    (reach : (system (l.underway true banned).s).Reaches
      (start l.body none { persisted := store, host }) ⟨.enter question none, K, τ⟩) :
    (l.underway true banned).Holds l.body ⟨.enter question none, K, τ⟩ := by
  let s := (l.underway true banned).s
  let here : Configuration := ⟨.enter question none, K, τ⟩
  obtain ⟨n, lineage, isQuestion⟩ := Invariant.lineage_of_reaches _ reach
  obtain rfl : question = n := (isQuestion _ _ rfl).symm
  have within : question ∈ l.body.walk := lineage.within
  let asked : Moment := ⟨.visit question.id none, τ.persisted, τ.locals⟩
  have visits : ((system s).next here).frame.moments = asked :: τ.moments := by
    obtain ⟨k, shape⟩ := question
    obtain ⟨m, shape⟩ := asks
    cases shape
    rfl
  have kind : question.kind = .awaiter := by
    obtain ⟨_, shape⟩ := asks
    exact congrArg Shape.kind shape
  -- Once the question is asked, its visit is recorded.
  have recorded {d : Configuration} (later : (system s).Reaches ((system s).next here) d) :
      (asked :: τ.moments) <:+ d.frame.moments :=
    visits ▸ (kept_of_reaches s later).moments
  obtain ⟨i, slot, known⟩ := L.state_known rests
  obtain ⟨c₀, set, holds, idle⟩ := L.sets_out allowed true host rests.slots slot known
  rcases reach.total set with before | after
  · rcases before.eq_or_next with rfl | later
    · exact holds
    · have visited := (recorded later).subset List.mem_cons_self
      exact absurd asks ((idle _ visited rfl question within rfl).not_asks v)
  · rcases after.until (fun _ ↦ L.step) holds with held | ⟨e, held, out, toOut, toHere⟩
    · exact held
    · obtain @⟨d, _, σ, departs⟩ := out
      obtain ⟨q, awaiter, σ', -, -, -, ⟨new, moments, asksNothing⟩, toEnd⟩ :=
        L.leaves_by held departs (set.trans toOut)
      have apart : here ≠ ⟨.leave (.ok .unit), [], σ'⟩ := fun same ↦ by
        cases congrArg Configuration.control same
      have toEnd : (system s).Reaches here ⟨.leave (.ok .unit), [], σ'⟩ :=
        (toHere.total toEnd).resolve_right fun past ↦
          apart (past.eq_of_result (M := system s) rfl)
      rcases toEnd.eq_or_next with same | later
      · exact absurd same apart
      · obtain ⟨more, split⟩ := recorded later
        obtain ⟨since, earlier⟩ := (kept_of_reaches s toHere).moments
        have visited : asked ∈ new := by
          have all : more ++ (asked :: (since ++ σ.moments)) = new ++ σ.moments := by
            rw [earlier, split, moments]
          rw [← List.cons_append, ← List.append_assoc] at all
          rw [← List.append_cancel_right all]
          exact List.mem_append_right more List.mem_cons_self
        exact absurd kind (asksNothing _ visited question within rfl)

/-- A run that finds an awaiter that is not completed comes to its end by the way out of that
suspend point. -/
theorem leaves_question (rests : l.Rests store) (field : v ∈ l.fields) {c : Configuration}
    {cell : Nat} (finds : c.FindsPending v cell)
    (reach : (system (l.underway true banned).s).Reaches
      (start l.body none { persisted := store, host }) c) :
    ∃ q d σ, q.awaiter = v ∧ (Int64.ofNat q.index, v) ∈ l.waits ∧
      l.LeftBy banned q d (.future cell) σ ∧ l.Recounts q d (.future cell) σ ∧
        (system (l.underway true banned).s).Reaches c ⟨.leave (.ok .unit), [], σ⟩ := by
  let I := l.underway true banned
  cases finds with
  | @mk question K τ f asks held future pending =>
    have holds := L.holds_at_question allowed rests asks reach
    obtain ⟨n, lineage, isQuestion⟩ := Invariant.lineage_of_reaches _ reach
    obtain rfl : question = n := (isQuestion _ _ rfl).symm
    cases L.aboveQuestion lineage asks field with
    | @mk p d K i j k m suspension awaiter waits outer =>
      let question : Node := ⟨k, .awaiter .isCompleted ⟨m, .var v⟩⟩
      let branch : Node := ⟨i, .branch ⟨j, .unary .not question⟩ d none⟩
      have asked := @reaches_pending_arm I.s K τ v cell f i j k m d held future pending
      -- The body is running when it takes the way out.
      have running : I.Holds l.body ⟨.enter d none, ⟨branch, .arm⟩ :: K,
          noted I.s (.visit m none) (noted I.s (.visit k none) τ)⟩ := by
        obtain ⟨n, lineage, isOut⟩ := Invariant.lineage_of_reaches _ (reach.trans asked)
        obtain rfl : n = d := isOut _ _ rfl
        cases holds with
        | enter _ node tasks frames =>
          obtain ⟨-, tasks⟩ := List.forall_mem_cons.1 tasks
          obtain ⟨passes, above⟩ := List.forall_mem_cons.1 tasks
          have asks := opens node fun departs ↦ by cases departs.kind
          have reads := opens (asks.children _ List.mem_cons_self) fun departs ↦ by
            cases departs.kind
          exact .enter lineage (passes.children _ (List.mem_cons_of_mem _ List.mem_cons_self))
            (List.forall_mem_cons.2 ⟨⟨passes.admits, passes.children⟩, above⟩)
            (L.underway_lawful.visit reads.admits (L.underway_lawful.visit asks.admits frames))
      obtain ⟨q, handed, σ, value, left, recounts, -, toEnd⟩ :=
        L.leaves_by running ⟨p, suspension⟩ (reach.trans asked)
      obtain ⟨index, same⟩ := suspension.unique left.suspension
      rw [← same, awaiter, lookup, noted_locals, noted_locals, noted_persisted, noted_persisted,
        ← lookup, held] at value
      cases value
      exact ⟨q, d, σ, same ▸ awaiter, index ▸ waits, left, recounts rfl, asked.trans toEnd⟩

end Runs

include L in
/-- The variable of a suspend point tells its state. -/
theorem state_of_field {i : Nat} {x : Int64} {v : Variable} (field : l.fields[i]? = some v)
    (waits : (x, v) ∈ l.waits) : x = Int64.ofNat i := by
  have distinct : (l.fields.map Variable.id).Nodup := by
    rw [L.fields]
    have added := (List.nodup_append.1 L.names).2.1
    rw [Added.names, List.nodup_append, List.nodup_append] at added
    exact added.1.1
  obtain ⟨j, small, same⟩ := List.mem_iff_getElem.1 waits
  simp only [Lowered.waits, List.getElem_zip, List.getElem_map, List.getElem_range,
    Prod.mk.injEq] at same
  obtain ⟨rfl, rfl⟩ := same
  obtain ⟨inside, same⟩ := List.getElem?_eq_some_iff.1 field
  rw [distinct.of_map.getElem_inj_iff.1 same]

end Layout

/-! ### Moves -/

/-- The next move of a session stops to wait at the suspend point with an index, whose variable
holds a future that is not completed, and sets the state to the index. After the future is handed
over, nothing happens but the jump to the end of the body, and visits to the conditions of guarded
parts that it passes. The storage stays as it is from there on, and so does the future. -/
def Lowered.SuspendsOnly (l : Lowered) (t : Session) (i : Nat) (v : Variable) (cell : Nat) : Prop :=
  ∃ q d enough, q.awaiter = v ∧ ∀ fuel ≥ enough,
    (t.moveNext fuel).1 = .ok (.suspended (.future cell)) ∧
    (t.moveNext fuel).2.machine.state = Int64.ofNat i ∧
    (t.moveNext fuel).2.machine.persisted = (t.machine.run fuel t.host true).2.persisted ∧
    l.LeftBy (fun _ ↦ False) q d (.future cell) (t.machine.run fuel t.host true).2 ∧
    l.Recounts q d (.future cell) (t.machine.run fuel t.host true).2

/-- **Suspending does nothing else.** A session with a lowered body, whatever moves have been made,
makes a move in which a suspend point asks whether its awaiter is completed, and it is a future that
is not. Then the move stops to wait for that future, the state is that of the suspend point, and
nothing else is done once the future is handed over. -/
theorem Node.LowersTo.suspends_only {body : Node} {supply : Supply} {l : Lowered}
    (lowers : body.LowersTo supply l) {args : List (Variable × Value)}
    (older : ∀ a ∈ args, a.1.id.toNat < supply.symbol) {host : Host}
    {results : List (Except Stop Progress)} {t : Session}
    (ran : Session.Ran ⟨(Machine.start l).withArguments args, host⟩ results t)
    {i : Nat} {v : Variable} (field : l.fields[i]? = some v) {cell : Nat}
    (finds : t.FindsPending v cell) : l.SuspendsOnly t i v cell := by
  obtain ⟨L, -⟩ := lowers.layout
  have rested := L.ran_rested ran (lowers.start_rested older).1
  obtain ⟨⟨body, stateVar, labels, store, callbacks, resumptions⟩, host⟩ := t
  obtain ⟨rfl, rfl, rfl, rests⟩ := rested
  let m : Machine :=
    ⟨l.body, l.contract.state, LabelIndex.build l.body, store, callbacks, resumptions⟩
  let t : Session := ⟨m, host⟩
  let s : Setting := (l.underway true fun _ ↦ False).s
  obtain ⟨c, finds, reach⟩ := finds
  obtain ⟨q, d, σ, awaiter, waits, left, recounts, toEnd⟩ := L.leaves_question (fun _ _ ↦ not_false)
    rests (List.mem_of_getElem? field) finds reach
  have index := L.state_of_field field waits
  -- The run ends both with its log and without, and a move is the run without.
  have ends : (system s).Ends (start l.body none { persisted := store, host }) (.ok .unit, σ) :=
    ⟨_, reach.trans toEnd, rfl⟩
  obtain ⟨N, run⟩ := eval_of_ends ends
  obtain ⟨N', muted⟩ := eval_of_ends (ends_forget ends)
  refine ⟨q, d, max N N', awaiter, fun fuel le ↦ ?_⟩
  have told : t.machine.run fuel t.host true = (.ok (.normal .unit), σ) :=
    runBody_of_eval (run fuel (Nat.le_trans (Nat.le_max_left N N') le))
  have untold : t.machine.run fuel t.host = (.ok (.normal .unit), σ.forget) :=
    runBody_of_eval (muted fuel (Nat.le_trans (Nat.le_max_right N N') le))
  obtain ⟨earlier, awaiters, -⟩ := left.awaiters
  have state : Machine.state { m with
      persisted := σ.persisted, callbacks := callbacks + σ.awaiters.size } =
      Int64.ofNat q.index := Machine.state_eq left.state
  have waits := Session.progress_waits (state ▸ L.index_nonneg left.index) σ.host earlier
    (.future cell) .unit
  rw [← awaiters] at waits
  show (t.moveNext fuel).1 = _ ∧ (t.moveNext fuel).2.machine.state = _ ∧
    (t.moveNext fuel).2.machine.persisted = (t.machine.run fuel t.host true).2.persisted ∧
      l.LeftBy _ q d _ (t.machine.run fuel t.host true).2 ∧
        l.Recounts q d _ (t.machine.run fuel t.host true).2
  rw [told, Session.moveNext_completed untold rfl]
  exact ⟨waits, state.trans index, rfl, left, recounts⟩

/-- A region with a finally body is left to wait for the second time. -/
theorem Node.LowersTo.suspends_only_region : ∃ (l : Lowered) (t : Session) (v : Variable),
    Node.LowersTo ⟨7, .region ⟨5, .block [] [⟨1, .await ⟨0, .call "yield" []⟩ none .unit⟩,
      ⟨4, .await ⟨3, .call "pending" [⟨2, .const (.int 7)⟩]⟩ none .int⟩]⟩ []
      (some ⟨6, .call "trace" []⟩) none⟩ { node := 8 } l ∧
      Session.Ran ⟨(Machine.start l).withArguments [], {}⟩ [.ok (.suspended (.future 0))] t ∧
      l.fields[1]? = some v ∧ t.FindsPending v 1 ∧ l.SuspendsOnly t 1 v 1 := by
  let body : Node := ⟨7, .region ⟨5, .block [] [⟨1, .await ⟨0, .call "yield" []⟩ none .unit⟩,
    ⟨4, .await ⟨3, .call "pending" [⟨2, .const (.int 7)⟩]⟩ none .int⟩]⟩ []
    (some ⟨6, .call "trace" []⟩) none⟩
  let first (l : Lowered) := (⟨Machine.start l, {}⟩ : Session).moveNext 50
  let later (l : Lowered) : Session := (first l).2.resume (.future 0)
  let asks (l : Lowered) : Configuration :=
    (system { labels := (later l).machine.labels, records := true }).run 63
      (start (later l).machine.body none
        { persisted := (later l).machine.persisted, host := (later l).host })
  let holds (l : Lowered) : Bool := (first l).1 == .ok (.suspended (.future 0)) &&
    l.fields[1]?.any fun v ↦ (asks l).findsPending v 1
  obtain ⟨l, lowers, holds⟩ := @Node.exists_lowersTo_with body { node := 8 } (by rintro _ ⟨⟩) holds
    (by decide +kernel)
  obtain ⟨suspended, finds⟩ := Bool.and_eq_true_iff.1 holds
  replace suspended := eq_of_beq suspended
  obtain ⟨v, field, finds⟩ := (Option.any_eq_true _ _).1 finds
  have ran : Session.Ran ⟨(Machine.start l).withArguments [], {}⟩ [.ok (.suspended (.future 0))]
      (later l) := by
    have once := Session.Ran.move (s := ⟨Machine.start l, {}⟩) .start 50
      (by rw [suspended]; rintro ⟨⟩)
    rw [suspended] at once
    exact once.resume (.future 0)
  have pending : (later l).FindsPending v 1 := ⟨asks l, .of_computed finds, 63, rfl⟩
  exact ⟨l, later l, v, lowers, ran, field, pending,
    lowers.suspends_only (List.forall_mem_nil _) ran field pending⟩

end Suspension
