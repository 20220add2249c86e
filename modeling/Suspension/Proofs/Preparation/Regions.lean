import Suspension.Proofs.Preparation.Builds
import Suspension.Proofs.Preparation.Moving

/-!
# Regions that are taken apart

What the handler reduction makes of a region, up to the numbers of nodes. Clauses that suspend
become notes, and cases of a switch behind the region (`MovesCaught`). A finally body that suspends
stands behind a region that catches everything (`MovesCleanup`), and so does a fault body
(`MovesFault`). Runs of the reduction make these.
-/

namespace Suspension

open Handlers Build

/-! ### Pieces -/

/-- A constant is assigned. -/
inductive IsMark (v : Variable) (value : Literal) : Node → Prop
  | mk (i j : NodeId) : IsMark v value ⟨i, .assign v ⟨j, .const value⟩⟩

/-- The value of a variable is assigned. -/
inductive IsCopy (target source : Variable) : Node → Prop
  | mk (i j : NodeId) : IsCopy target source ⟨i, .assign target ⟨j, .var source⟩⟩

/-- The value of a variable is raised. -/
inductive IsRaise (v : Variable) : Node → Prop
  | mk (i j : NodeId) : IsRaise v ⟨i, .raise (some ⟨j, .var v⟩)⟩

/-- The clause that catches everything. -/
inductive IsCatchAll (cap : Captured) (e : Variable) : Clause Node → Prop
  | mk (i : NodeId) {keep mark : Node} (copies : IsCopy cap.ex e keep)
    (marks : IsMark cap.caught (.bool true) mark) :
    IsCatchAll cap e ⟨some e, none, ⟨i, .block [] [keep, mark]⟩⟩

/-- A noted exit is carried out. -/
inductive ResumesExit (exits : Exits) : Leaving → Node → Prop
  | jump (i : NodeId) (target : Label) : ResumesExit exits (.jump target) ⟨i, .goto target⟩
  | ret (i j : NodeId) : ResumesExit exits .ret ⟨i, .ret (some ⟨j, .var exits.retval⟩)⟩

/-- The cases for noted exits, numbered from one of them on. -/
inductive ResumesExits (exits : Exits) : Nat → List Leaving → List (Case Node) → Prop
  | nil (k : Nat) : ResumesExits exits k [] []
  | cons {k : Nat} {l : Leaving} {ls : List Leaving} {body : Node} {cases : List (Case Node)}
    (head : ResumesExit exits l body) (tail : ResumesExits exits (k + 1) ls cases) :
    ResumesExits exits k (l :: ls) (⟨[Int64.ofNat k], body⟩ :: cases)

/-- A clause that is moved: the clause that is left, and the case that does its work. -/
inductive MovesClause (cap : Captured) (which : Variable) (k : Nat) (bound : Variable)
    (c : Clause Node) : Clause Node → Case Node → Prop
  | mk (i i' j : NodeId) {keep mark restore handler : Node} (copies : IsCopy cap.ex bound keep)
    (marks : IsMark which (.int (Int64.ofNat k)) mark) (edits : Edits [cap.ex.id] [] c.body handler)
    (restores : IsCopy bound cap.ex restore) :
    MovesClause cap which k bound c ⟨some bound, c.filter, ⟨i, .block [] [keep, mark]⟩⟩
      ⟨[Int64.ofNat k], ⟨i', .block [] [restore, ⟨j, .assign cap.value handler⟩]⟩⟩

/-- The variable that holds the exception in a moved clause, and those that are new. -/
inductive Holds : Option Variable → Variable → List Variable → Prop
  | own (v : Variable) : Holds (some v) v []
  | new (v : Variable) : Holds none v [v]

/-- Clauses that are moved, numbered from one of them on, and the variables that stand in for
binders that are missing. -/
inductive MovesClauses (cap : Captured) (which : Variable) :
    Nat → List (Clause Node) → Moved → List Variable → Prop
  | nil (k : Nat) : MovesClauses cap which k [] ⟨[], [], []⟩ []
  | cons {k : Nat} {c clause : Clause Node} {case : Case Node} {cs : List (Clause Node)}
    {m : Moved} {first rest : List Variable} {v : Variable} (holds : Holds c.binder v first)
    (head : MovesClause cap which k v c clause case)
    (tail : MovesClauses cap which (k + 1) cs m rest) :
    MovesClauses cap which k (c :: cs) ⟨v :: m.bound, clause :: m.clauses, case :: m.cases⟩
      (first ++ rest)

/-! ### Regions -/

/-- A region whose clauses are moved, and the fresh symbols in it. -/
inductive MovesCaught (body : Node) (cs : List (Clause Node)) : Node → List SymbolId → Prop
  | mk (i i₁ i₂ i₃ i₄ i₅ : NodeId) {cap : Captured} {which : Variable} {m : Moved}
    {new : List Variable} {start : Node} (clauses : MovesClauses cap which 0 cs m new)
    (starts : IsMark which (.int (-1)) start) :
    MovesCaught body cs
      ⟨i, .block (cap.ex :: which :: cap.value :: m.bound)
        [start, ⟨i₁, .region ⟨i₂, .assign cap.value body⟩ m.clauses none none⟩,
          ⟨i₃, .switch ⟨i₄, .var which⟩ m.cases none⟩, ⟨i₅, .var cap.value⟩]⟩
      (cap.ex.id :: cap.caught.id :: cap.value.id :: which.id :: new.map Variable.id)

/-- A region whose fault body is moved. -/
inductive MovesFault (body fault : Node) : Node → List SymbolId → Prop
  | mk (i i₁ i₂ i₃ i₄ i₅ i₆ : NodeId) {cap : Captured} {e : Variable} {start again : Node}
    {clause : Clause Node} (starts : IsMark cap.caught (.bool false) start)
    (catches : IsCatchAll cap e clause) (raises : IsRaise cap.ex again) :
    MovesFault body fault
      ⟨i, .block [cap.ex, cap.caught, cap.value]
        [start, ⟨i₁, .region ⟨i₂, .assign cap.value body⟩ [clause] none none⟩,
          ⟨i₃, .branch ⟨i₄, .var cap.caught⟩ ⟨i₅, .block [] [fault, again]⟩ none⟩,
          ⟨i₆, .var cap.value⟩]⟩
      [cap.ex.id, cap.caught.id, cap.value.id, e.id]

/-- The protected body with the label at its end that exits lead to, if there are any. -/
inductive IsInside (value : Node) (leave : Label) : List Leaving → Node → Prop
  | plain : IsInside value leave [] value
  | labelled (i j : NodeId) {left : List Leaving} (some : left ≠ []) :
    IsInside value leave left ⟨i, .block [] [value, ⟨j, .label leave⟩]⟩

/-- The dispatch on the noted exits, if there are any. -/
inductive DispatchesExits (exits : Exits) : List Leaving → List Node → Prop
  | none : DispatchesExits exits [] []
  | switch (i j : NodeId) {left : List Leaving} {cases : List (Case Node)} (some : left ≠ [])
    (resumes : ResumesExits exits 1 left cases) :
    DispatchesExits exits left [⟨i, .switch ⟨j, .var exits.pending⟩ cases Option.none⟩]

/-- A region whose finally body is moved. -/
inductive MovesCleanup (body cleanup : Node) : Node → List SymbolId → Prop
  | mk (i i₁ i₂ i₃ i₄ i₅ : NodeId) {cap : Captured} {exits : Exits} {e : Variable}
    {start clear copied inside raises : Node} {dispatch : List Node} {left : List Leaving}
    {clause : Clause Node} (named : exits.leave.name = "__leave")
    (starts : IsMark cap.caught (.bool false) start) (clears : IsMark exits.pending (.int 0) clear)
    (edits : Edits exits.variables ((leaveOf exits.leave left).map Label.id) body copied)
    (noted : ∀ {among}, (∀ id ∈ body.targets, among id) → Noted among left)
    (isInside : IsInside ⟨i₂, .assign cap.value copied⟩ exits.leave left inside)
    (catches : IsCatchAll cap e clause) (again : IsRaise cap.ex raises)
    (dispatches : DispatchesExits exits left dispatch) :
    MovesCleanup body cleanup
      ⟨i, .block [cap.ex, cap.caught, cap.value, exits.pending, exits.retval]
        ([start, clear, ⟨i₁, .region inside [clause] none none⟩, cleanup,
          ⟨i₃, .branch ⟨i₄, .var cap.caught⟩ raises none⟩] ++ dispatch ++
          [⟨i₅, .var cap.value⟩])⟩
      [cap.ex.id, cap.caught.id, cap.value.id, exits.leave.id, exits.pending.id, exits.retval.id,
        e.id]

/-! ### Runs -/

/-- Building a mark makes a mark. -/
theorem runs_assignConst {v : Variable} {value : Literal} {s s' : Supply} {n : Node}
    (h : runs (assignConst v value) s n s') : IsMark v value n ∧ s'.symbol = s.symbol := by
  cases h
  exact ⟨.mk _ _, rfl⟩

/-- Building a copy makes a copy. -/
theorem runs_assignVar {target source : Variable} {s s' : Supply} {n : Node}
    (h : runs (assignVar target source) s n s') :
      IsCopy target source n ∧ s'.symbol = s.symbol := by
  cases h
  exact ⟨.mk _ _, rfl⟩

/-- A supply of symbols that hands some of them out. -/
def Supply.Hands (s : Supply) (ids : List SymbolId) (s' : Supply) : Prop :=
  s.symbol ≤ s'.symbol ∧ ids = s.fresh s'

/-- A supply that goes on with the same symbol has handed out none. -/
theorem Supply.Hands.nil {s s' : Supply} (h : s'.symbol = s.symbol) : s.Hands [] s' :=
  ⟨Nat.le_of_eq h.symm, (Supply.fresh_of_eq h).symm⟩

/-- What a supply hands out step by step, it hands out. -/
theorem Supply.Hands.append {s s₁ s' : Supply} {ids ids' : List SymbolId} (h : s.Hands ids s₁)
    (h' : s₁.Hands ids' s') : s.Hands (ids ++ ids') s' := by
  obtain ⟨le, rfl⟩ := h
  obtain ⟨le', rfl⟩ := h'
  exact ⟨Nat.le_trans le le', Supply.fresh_append le le'⟩

/-- A new variable is the next symbol of the supply. -/
theorem runs_newVariable {name : String} {ty : Ty} {s s' : Supply} {v : Variable}
    (h : runs (newVariable name ty) s v s') : s.Hands [v.id] s' := by
  cases h
  refine ⟨Nat.le_succ _, ?_⟩
  rw [Supply.fresh, span_succ]
  rfl

/-- A new label is the next symbol of the supply. -/
theorem runs_newLabel {name : String} {s s' : Supply} {l : Label}
    (h : runs (newLabel name) s l s') : l.name = name ∧ s.Hands [l.id] s' := by
  cases h
  refine ⟨rfl, Nat.le_succ _, ?_⟩
  rw [Supply.fresh, span_succ]
  rfl

/-- The variables for what a region comes to are new. -/
theorem runs_capture {s s' : Supply} {cap : Captured} (h : runs capture s cap s') :
    s.Hands [cap.ex.id, cap.caught.id, cap.value.id] s' := by
  simp only [capture, runs_bind, runs_pure] at h
  obtain ⟨ex, s₁, first, caught, s₂, second, value, s₃, third, rfl, rfl⟩ := h
  exact ((runs_newVariable first).append (runs_newVariable second)).append (runs_newVariable third)

/-- The clause that catches everything has a new variable. -/
theorem runs_catchAll {cap : Captured} {s s' : Supply} {c : Clause Node}
    (h : runs (catchAll cap) s c s') : ∃ e, IsCatchAll cap e c ∧ s.Hands [e.id] s' := by
  simp only [catchAll, runs_bind, runs_pure] at h
  obtain ⟨e, s₁, new, keep, s₂, copies, mark, s₃, marks, body, s₄, block, rfl, rfl⟩ := h
  cases block
  obtain ⟨copies, same⟩ := runs_assignVar copies
  obtain ⟨marks, same'⟩ := runs_assignConst marks
  have rest : s₁.Hands [] s₃ := .nil (same'.trans same)
  exact ⟨e, .mk _ copies marks, (runs_newVariable new).append rest⟩

/-- Statements in sequence are one node, a block without variables. -/
theorem runs_seq {ns : List Node} {s s' : Supply} {n : Node} (h : runs (seq ns) s n s') :
    n = ⟨s.node, .block [] ns⟩ ∧ s' = { s with node := s.node + 1 } := by
  cases h
  exact ⟨rfl, rfl⟩

/-- A node that is built takes the next number. -/
theorem runs_build {sh : Shape Node} {s s' : Supply} {n : Node} (h : runs (node sh) s n s') :
    n = ⟨s.node, sh⟩ ∧ s' = { s with node := s.node + 1 } := by
  cases h
  exact ⟨rfl, rfl⟩

/-- The variable that holds the exception in a moved clause: its own, or a new one. -/
def Handlers.holder : Option Variable → Build Variable
  | some v => pure v
  | none => newVariable "__e" .any

/-- One clause is moved, once its variable is known, and the clauses after it. -/
def Handlers.moveClause (cap : Captured) (which : Variable) (index : Nat) (c : Clause Node)
    (rest : Build Moved) (bound : Variable) : Build Moved := do
  let keep ← assignVar cap.ex bound
  let mark ← assignConst which (.int (Int64.ofNat index))
  let note ← seq [keep, mark]
  let handler ← rethrowAs cap.ex c.body
  let restore ← assignVar bound cap.ex
  let value ← node (.assign cap.value handler)
  let body ← seq [restore, value]
  let moved ← rest
  return ⟨bound :: moved.bound, ⟨some bound, c.filter, note⟩ :: moved.clauses,
    ⟨[Int64.ofNat index], body⟩ :: moved.cases⟩

/-- Clauses are moved one by one, each after a variable for its exception was found. -/
theorem Handlers.moveClauses_cons (cap : Captured) (which : Variable) (index : Nat)
    (c : Clause Node) (cs : List (Clause Node)) :
    moveClauses cap which index (c :: cs) =
      holder c.binder >>= moveClause cap which index c (moveClauses cap which (index + 1) cs) := by
  rw [moveClauses]
  cases c.binder <;> rfl

/-- The exception of a clause is held by the variable of the clause, or by a new one. -/
theorem runs_holder {binder : Option Variable} {s s' : Supply} {v : Variable}
    (h : runs (holder binder) s v s') :
    ∃ first, Holds binder v first ∧ s.Hands (first.map Variable.id) s' := by
  cases binder with
  | some w =>
    obtain ⟨rfl, rfl⟩ := runs_pure.1 h
    exact ⟨[], .own v, .nil rfl⟩
  | none => exact ⟨[v], .new v, runs_newVariable h⟩

/-- Moving a clause turns it into a clause that notes its number, and into a case for its body. -/
theorem runs_moveClause {cap : Captured} {which bound : Variable} {k : Nat} {c : Clause Node}
    {rest : Build Moved} {s s' : Supply} {m : Moved}
    (h : runs (moveClause cap which k c rest bound) s m s') :
    ∃ clause case moved s₁, MovesClause cap which k bound c clause case ∧ s.Hands [] s₁ ∧
      runs rest s₁ moved s' ∧
      m = ⟨bound :: moved.bound, clause :: moved.clauses, case :: moved.cases⟩ := by
  simp only [moveClause, runs_bind, runs_pure] at h
  obtain ⟨keep, s₂, copies, mark, s₃, marks, note, s₄, notes, handler, s₅, edits, restore, s₆,
    restores, value, s₇, assigns, body, s₈, block, moved, s₉, more, rfl, rfl⟩ := h
  obtain ⟨copies, same⟩ := runs_assignVar copies
  obtain ⟨marks, same₁⟩ := runs_assignConst marks
  obtain ⟨rfl, rfl⟩ := runs_seq notes
  obtain ⟨edits, same₂⟩ := runs_rethrowAs edits
  obtain ⟨restores, same₃⟩ := runs_assignVar restores
  obtain ⟨rfl, rfl⟩ := runs_build assigns
  obtain ⟨rfl, rfl⟩ := runs_seq block
  exact ⟨_, _, moved, { s₆ with node := s₆.node + 1 + 1 }, .mk _ _ _ copies marks edits restores,
    .nil (same₃.trans (same₂.trans (same₁.trans same))), more, rfl⟩

/-- Moving all clauses turns them into clauses that note their numbers, and cases for their
bodies. -/
theorem runs_moveClauses {cap : Captured} {which : Variable} {k : Nat} {cs : List (Clause Node)}
    {s s' : Supply} {m : Moved} (h : runs (moveClauses cap which k cs) s m s') :
    ∃ new, MovesClauses cap which k cs m new ∧ s.Hands (new.map Variable.id) s' := by
  induction cs generalizing k s m with
  | nil =>
    rw [moveClauses, runs_pure] at h
    obtain ⟨rfl, rfl⟩ := h
    exact ⟨[], .nil k, .nil rfl⟩
  | cons c cs ih =>
    rw [moveClauses_cons, runs_bind] at h
    obtain ⟨v, s₁, binds, h⟩ := h
    obtain ⟨first, holds, hands⟩ := runs_holder binds
    obtain ⟨clause, case, moved, s₂, head, quiet, rest, rfl⟩ := runs_moveClause h
    obtain ⟨new, tail, hands'⟩ := ih rest
    refine ⟨first ++ new, .cons holds head tail, ?_⟩
    rw [List.map_append]
    exact hands.append (quiet.append hands')

/-- A region with clauses is rebuilt as one whose clauses note which of them applies, with their
bodies behind it. -/
theorem runs_reduceClauses {body : Node} {cs : List (Clause Node)} {s s' : Supply} {n : Node}
    (h : runs (reduceClauses body cs) s n s') :
    ∃ ids, MovesCaught body cs n ids ∧ s.Hands ids s' := by
  simp only [reduceClauses, runs_bind] at h
  obtain ⟨cap, s₁, captures, which, s₂, indexes, moved, s₃, moves, start, s₄, starts, value, s₅,
    assigns, region, s₆, regions, test, s₇, tests, handle, s₈, handles, result, s₉, results,
    block⟩ := h
  obtain ⟨new, clauses, hands⟩ := runs_moveClauses moves
  obtain ⟨starts, same⟩ := runs_assignConst starts
  obtain ⟨rfl, rfl⟩ := runs_build assigns
  obtain ⟨rfl, rfl⟩ := runs_build regions
  obtain ⟨rfl, rfl⟩ := runs_build tests
  obtain ⟨rfl, rfl⟩ := runs_build handles
  obtain ⟨rfl, rfl⟩ := runs_build results
  obtain ⟨rfl, rfl⟩ := runs_build block
  have rest : s₃.Hands [] { s₄ with node := s₄.node + 1 + 1 + 1 + 1 + 1 + 1 } := .nil same
  have all := (((runs_capture captures).append (runs_newVariable indexes)).append hands).append rest
  rw [List.append_nil] at all
  exact ⟨_, .mk _ _ _ _ _ _ clauses starts, all⟩

/-- A region with a fault body is rebuilt as one that catches everything, with the fault body behind
it. -/
theorem runs_reduceFault {body fault : Node} {s s' : Supply} {n : Node}
    (h : runs (reduceFault body fault) s n s') :
    ∃ ids, MovesFault body fault n ids ∧ s.Hands ids s' := by
  simp only [reduceFault, runs_bind] at h
  obtain ⟨cap, s₁, captures, start, s₂, starts, value, s₃, assigns, clause, s₄, catches, region, s₅,
    regions, test, s₆, tests, again, s₇, raises, inner, s₈, inners, handle, s₉, handles, result,
    s₁₀, results, block⟩ := h
  obtain ⟨starts, same⟩ := runs_assignConst starts
  obtain ⟨rfl, rfl⟩ := runs_build assigns
  obtain ⟨e, catches, hands⟩ := runs_catchAll catches
  obtain ⟨rfl, rfl⟩ := runs_build regions
  obtain ⟨rfl, rfl⟩ := runs_build tests
  obtain ⟨⟨i, j, rfl⟩, same'⟩ := runs_raiseCaptured raises
  obtain ⟨rfl, rfl⟩ := runs_seq inners
  obtain ⟨rfl, rfl⟩ := runs_build handles
  obtain ⟨rfl, rfl⟩ := runs_build results
  obtain ⟨rfl, rfl⟩ := runs_build block
  have first : s₁.Hands [] { s₂ with node := s₂.node + 1 } := .nil same
  have last : s₄.Hands [] { s₇ with node := s₇.node + 1 + 1 + 1 + 1 } := .nil same'
  exact ⟨_, .mk _ _ _ _ _ _ _ starts catches (.mk i j),
    (((runs_capture captures).append first).append hands).append last⟩

/-- There is one case for each exit that was noted. -/
theorem runs_resumeCases {exits : Exits} {k : Nat} {ls : List Leaving} {s s' : Supply}
    {cases : List (Case Node)} (h : runs (resumeCases exits k ls) s cases s') :
    ResumesExits exits k ls cases ∧ s'.symbol = s.symbol := by
  induction ls generalizing k s cases with
  | nil =>
    rw [resumeCases, runs_pure] at h
    obtain ⟨rfl, rfl⟩ := h
    exact ⟨.nil k, rfl⟩
  | cons l ls ih =>
    simp only [resumeCases, runs_bind, runs_pure] at h
    obtain ⟨body, s₁, resume, rest, s₂, more, rfl, rfl⟩ := h
    obtain ⟨tail, same⟩ := ih more
    have head : ResumesExit exits l body ∧ s₁.symbol = s.symbol := by
      cases l with
      | jump target =>
        obtain ⟨rfl, rfl⟩ := runs_build resume
        exact ⟨.jump _ target, rfl⟩
      | ret =>
        cases resume
        exact ⟨.ret _ _, rfl⟩
    exact ⟨.cons head.1 tail, same.trans head.2⟩

/-- The end of a protected body whose exits are noted. -/
def Handlers.closeBody (leave : Label) (left : List Leaving) (value : Node) : Build Node :=
  if left.isEmpty then pure value else do seq [value, ← node (.label leave)]

/-- The dispatch on the exits that were noted. -/
def Handlers.dispatchExits (exits : Exits) (left : List Leaving) : Build (List Node) :=
  if left.isEmpty then pure [] else do
    let cases ← resumeCases exits 1 left
    return [← node (.switch (← node (.var exits.pending)) cases none)]

/-- A region with a finally body is reduced with the end of its body and the dispatch of its exits
as steps of their own. -/
theorem Handlers.reduceCleanup_eq (body cleanup : Node) :
    reduceCleanup body cleanup = (do
      let cap ← capture
      let leave ← newLabel "__leave"
      let pending ← newVariable "__pending" .int
      let retval ← newVariable "__retval" .any
      let exits : Exits := ⟨leave, pending, retval⟩
      let (body, left) ← (collectExits body.labelsWithin exits body).run []
      let value ← node (.assign cap.value body)
      let inside ← closeBody leave left value
      let start ← assignConst cap.caught (.bool false)
      let clear ← assignConst pending (.int 0)
      let clause ← catchAll cap
      let region ← node (.region inside [clause] none none)
      let test ← node (.var cap.caught)
      let again ← raiseCaptured cap.ex
      let again ← node (.branch test again none)
      let dispatch ← dispatchExits exits left
      let result ← node (.var cap.value)
      node (.block [cap.ex, cap.caught, cap.value, pending, retval]
        ([start, clear, region, cleanup, again] ++ dispatch ++ [result]))) := by
  have push {α β : Type} {c : Bool} (x y : Build α) (k : α → Build β) :
      (if c then x else y) >>= k = if c then x >>= k else y >>= k := by
    cases c <;> rfl
  simp only [reduceCleanup, closeBody, dispatchExits, push, bind_assoc, pure_bind]

/-- The end of a protected body is marked with a label, behind the value that the body comes to. -/
theorem runs_closeBody {leave : Label} {left : List Leaving} {value inside : Node} {s s' : Supply}
    (h : runs (closeBody leave left value) s inside s') :
    IsInside value leave left inside ∧ s'.symbol = s.symbol := by
  rw [closeBody] at h
  split at h
  · rename_i empty
    obtain ⟨rfl, rfl⟩ := runs_pure.1 h
    rw [List.isEmpty_iff.1 empty]
    exact ⟨.plain, rfl⟩
  · rename_i some
    cases h
    exact ⟨.labelled _ _ fun none ↦ some (List.isEmpty_iff.2 none), rfl⟩

/-- The noted exits are dispatched by a switch, if there are any. -/
theorem runs_dispatchExits {exits : Exits} {left : List Leaving} {dispatch : List Node}
    {s s' : Supply} (h : runs (dispatchExits exits left) s dispatch s') :
    DispatchesExits exits left dispatch ∧ s'.symbol = s.symbol := by
  rw [dispatchExits] at h
  split at h
  · rename_i empty
    obtain ⟨rfl, rfl⟩ := runs_pure.1 h
    rw [List.isEmpty_iff.1 empty]
    exact ⟨.none, rfl⟩
  · rename_i some
    simp only [runs_bind, runs_pure] at h
    obtain ⟨cases, s₁, resumes, value, s₂, values, made, s₃, switch, rfl, rfl⟩ := h
    obtain ⟨resumes, same⟩ := runs_resumeCases resumes
    obtain ⟨rfl, rfl⟩ := runs_build values
    obtain ⟨rfl, rfl⟩ := runs_build switch
    exact ⟨.switch _ _ (fun none ↦ some (List.isEmpty_iff.2 none)) resumes, same⟩

/-- A region with a finally body is rebuilt as one that catches everything, with the finally body
and the dispatch of the noted exits behind it. -/
theorem runs_reduceCleanup {body cleanup : Node} {s s' : Supply} {n : Node}
    (h : runs (reduceCleanup body cleanup) s n s') :
    ∃ ids, MovesCleanup body cleanup n ids ∧ s.Hands ids s' := by
  simp only [reduceCleanup_eq, runs_bind] at h
  obtain ⟨cap, s₁, captures, leave, s₂, leaves, pending, s₃, pends, retval, s₄, returns,
    ⟨copied, left⟩, s₅, collects, value, s₆, assigns, inside, s₇, insides, start, s₈, starts, clear,
    s₉, clears, clause, s₁₀, catches, region, s₁₁, regions, test, s₁₂, tests, raised, s₁₃, raises,
    again, s₁₄, branches, dispatch, s₁₅, dispatches, result, s₁₆, results, block⟩ := h
  have collected : runs (collectExits body.labelsWithin ⟨leave, pending, retval⟩ body) ([], s₄)
    copied (left, s₅) := collects
  obtain ⟨edits, symbol, -, noted⟩ := runs_collectExits collected
  obtain ⟨rfl, rfl⟩ := runs_build assigns
  obtain ⟨isInside, same⟩ := runs_closeBody insides
  obtain ⟨starts, same₁⟩ := runs_assignConst starts
  obtain ⟨clears, same₂⟩ := runs_assignConst clears
  obtain ⟨e, catches, hands⟩ := runs_catchAll catches
  obtain ⟨rfl, rfl⟩ := runs_build regions
  obtain ⟨rfl, rfl⟩ := runs_build tests
  obtain ⟨⟨i, j, rfl⟩, same₃⟩ := runs_raiseCaptured raises
  obtain ⟨rfl, rfl⟩ := runs_build branches
  obtain ⟨dispatches, same₄⟩ := runs_dispatchExits dispatches
  obtain ⟨rfl, rfl⟩ := runs_build results
  obtain ⟨rfl, rfl⟩ := runs_build block
  have first : s₄.Hands [] s₉ := .nil (same₂.trans (same₁.trans (same.trans symbol)))
  have last : s₁₀.Hands [] { s₁₅ with node := s₁₅.node + 1 + 1 } := .nil (same₄.trans same₃)
  obtain ⟨named, leave⟩ := runs_newLabel leaves
  have fresh := (((runs_capture captures).append leave).append
    (runs_newVariable pends)).append (runs_newVariable returns)
  exact ⟨_, .mk _ _ _ _ _ _ named starts clears edits (fun inside ↦ noted inside nofun) isInside
    catches (.mk i j) dispatches, ((fresh.append first).append hands).append last⟩

end Suspension
