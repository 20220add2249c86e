import Suspension.Proofs.Expansion.Routes
import Suspension.Proofs.Preparation.Census
import Suspension.Proofs.Steps.Questions

/-!
# Where the state changes

The state of a body that does not wait is set in one place only: at the way out of a suspend point.
A `Steady` node leaves the state alone, or sets it back to running, and a `Still` node does not ask
an awaiter whether it is completed either. Every node of an expanded body outside of the questions
of its suspend points is still (`Twin.around`). A way out stands in the protected body of every
region around it, whose parts are guarded then (`Node.LetsOut`), so nothing stands in its way.
-/

namespace Suspension

/-- What a layer binds is among its symbols. -/
theorem Shape.binds_ownSymbols {α : Type} {sh : Shape α} {v : Variable}
    (h : v ∈ sh.declared ++ sh.binders) : v.id ∈ sh.ownSymbols := by
  cases sh with
  | block => exact List.mem_map_of_mem ((List.append_nil _).subst h)
  | region => exact List.mem_map_of_mem h
  | _ => cases h

/-- No way out of the body stands in a tree. -/
def Node.Stays (c : Contract) (n : Node) : Prop :=
  ∀ m ∈ n.walk, ¬ m.Departs c

/-- A protected region keeps nobody from leaving to wait: the only way out is from its body, and the
finally body is guarded then. -/
def Node.LetsOut (c : Contract) (n : Node) : Prop :=
  match n.shape with
  | .region body cs cleanup fault =>
    (∀ part ∈ cs.flatMap Clause.children ++ cleanup.toList ++ fault.toList, part.Stays c) ∧
      (¬ body.Stays c → ∀ part ∈ cleanup.toList, ∃ inner, IsGuarded c inner part)
  | _ => True

/-- Something holds of every node of a tree outside of some trees in it. -/
inductive Node.Around (out Q : Node → Prop) : Node → Prop
  | out {n : Node} (here : out n) : Around out Q n
  | layer {n : Node} (here : Q n) (below : ∀ d ∈ n.children, Around out Q d) : Around out Q n

theorem Node.Around.mono {out out' Q : Node → Prop} {n : Node} (h : n.Around out Q)
    (le : ∀ m, out m → out' m) : n.Around out' Q := by
  induction h with
  | out here => exact .out (le _ here)
  | layer here below ih => exact .layer here ih

/-- What holds around holds with weaker conditions. -/
theorem Node.Around.imp {out Q Q' : Node → Prop} {n : Node} (h : n.Around out Q)
    (le : ∀ m, Q m → Q' m) : n.Around out Q' := by
  induction h with
  | out here => exact .out here
  | layer here below ih => exact .layer (le _ here) ih

/-- What stands in a tree is like the tree, or beneath a tree that is left out. -/
theorem Node.Around.within {out Q : Node → Prop} {m n : Node} (h : n.Around out Q)
    (member : m ∈ n.walk) : m.Around out Q ∨ ∃ d ∈ n.walk, out d ∧ m ∈ d.walk := by
  induction h with
  | out here => exact .inr ⟨_, Node.mem_walk_self _, here, member⟩
  | @layer n here below ih =>
    rw [Node.walk_eq] at member
    rcases List.mem_cons.1 member with rfl | inside
    · exact .inl (.layer here below)
    · obtain ⟨d, child, within⟩ := List.mem_flatMap.1 inside
      refine (ih d child within).imp_right fun ⟨b, above, found⟩ ↦ ⟨b, ?_, found⟩
      exact Node.mem_walk_of_mem_children above child

/-- Something holds of the trees that are left out as well, but for some in them. -/
theorem Node.Around.refine {out out' Q : Node → Prop} {n : Node} (h : n.Around out Q)
    (inner : ∀ m, out m → m.Around out' Q) : n.Around out' Q := by
  induction h with
  | out here => exact inner _ here
  | layer here below ih => exact .layer here ih

/-! ### What is waited for -/

namespace Added

/-- The states in which a body waits, each with the variable that holds the awaiter. -/
def waits (X : Added) : List (Int64 × Variable) :=
  (X.table.flatMap Case.tests).zip X.fields

/-- There are as many states as variables for awaiters. -/
def Even (X : Added) : Prop :=
  (X.table.flatMap Case.tests).length = X.fields.length

theorem waits_append {X : Added} (even : X.Even) (Y : Added) :
    (X ++ Y).waits = X.waits ++ Y.waits := by
  rw [waits, append_table, append_fields, List.flatMap_append, List.zip_append even]
  rfl

/-- Expansions that are even are even together. -/
theorem Even.append {X Y : Added} (h : X.Even) (h' : Y.Even) : (X ++ Y).Even := by
  rw [Even, append_table, append_fields, List.flatMap_append, List.length_append,
    List.length_append, h, h']

theorem even_join {Xs : List Added} (h : ∀ X ∈ Xs, X.Even) : (join Xs).Even := by
  induction Xs with
  | nil => rfl
  | cons X Xs ih =>
    obtain ⟨first, others⟩ := List.forall_mem_cons.1 h
    exact first.append (ih others)

theorem waits_subset_join {X : Added} {Xs : List Added} (even : ∀ Y ∈ Xs, Y.Even) (h : X ∈ Xs) :
    X.waits ⊆ (join Xs).waits := by
  induction Xs with
  | nil => cases h
  | cons Y Xs ih =>
    obtain ⟨first, others⟩ := List.forall_mem_cons.1 even
    rw [join_cons, waits_append first]
    rcases List.mem_cons.1 h with rfl | h
    · exact List.subset_append_left _ _
    · exact List.Subset.trans (ih others h) (List.subset_append_right _ _)

/-- A region waits where its body does. -/
theorem waits_ofRegion (X : Added) (entry : Label) (enter : Node) :
    (X.ofRegion entry enter).waits = X.waits := by
  simp [waits, ofRegion]

/-- The question of a suspend point that was added. -/
def Asks (c : Contract) (X : Added) (n : Node) : Prop :=
  ∃ q suspend, IsQuestion c q suspend n ∧ (Int64.ofNat q.index, q.awaiter) ∈ X.waits

theorem Asks.mono {c : Contract} {X Y : Added} {n : Node} (h : X.Asks c n)
    (waits : X.waits ⊆ Y.waits) : Y.Asks c n := by
  obtain ⟨q, suspend, question, inside⟩ := h
  exact ⟨q, suspend, question, waits inside⟩

end Added

/-- An expansion adds as many fields as states. -/
theorem Twin.even {keeps : SymbolId → Prop} {c : Contract} {p e : Node} {X : Added}
    (h : Twin keeps c p e X) : X.Even := by
  induction h with
  | same x below kind closed undeclared kept ih =>
    exact Added.even_join (List.forall_mem_map.2 ih)
  | point operand isPoint isReturn interest ih => exact ih.append rfl
  | unitPoint operand isPoint isReturn interest ih => exact ih.append rfl
  | region bodies suspends clauses parts guarded guarded' entered ih =>
    simpa [Added.Even, Added.ofRegion] using ih

/-- A node that leaves the state alone or sets it back to running. It does not touch the variables
that hold awaiters but by assignments, calls nothing that is `banned`, is no way out, and does not
stand in the way of leaving. -/
structure Node.Steady (c : Contract) (fields : List Variable) (banned : String → Prop) (n : Node) :
    Prop where
  binds : ∀ v ∈ n.shape.declared ++ n.shape.binders,
    v.id ∉ c.state.id :: c.localState.id :: fields.map Variable.id
  state : ∀ {v o}, n.shape = .assign v o → v.id = c.state.id → o.shape = .const (.int running)
  localState : ∀ {v o}, n.shape = .assign v o → v.id = c.localState.id →
    o.shape = .var c.state ∨ ∃ o', o.shape = .assign c.state o'
  calls : ∀ name ∈ n.shape.ownCalls, ¬ banned name
  notAwait : n.kind ≠ .await
  letsOut : n.LetsOut c
  stays : ¬ n.Departs c

/-- A steady node that asks none of the awaiters of suspend points whether it is completed. -/
structure Node.Still (c : Contract) (fields : List Variable) (banned : String → Prop) (n : Node) :
    Prop extends n.Steady c fields banned where
  asks : ∀ v ∈ fields, ¬ n.Asks v

section Steady

variable {keeps : SymbolId → Prop} {c : Contract} {fields : List Variable} {banned : String → Prop}
variable {out : Node → Prop} {p e n : Node} {X : Added}

/-- What has another form than a way out is none. -/
theorem Node.not_departs (h : ∀ a b d, n.shape ≠ .block [] [a, b, d]) : ¬ n.Departs c := by
  intro departs
  obtain ⟨_, _, _, shape⟩ := departs.shape
  exact h _ _ _ shape

/-- Whether a node neither binds variables nor assigns to them nor calls anything, nor is a way out,
by its form. -/
def Node.isPlain (n : Node) : Bool :=
  match n.shape with
  | .block [] [_, _, _] => false
  | .block [] _ => true
  | .block _ _ => false
  | .await _ _ _ => false
  | .region _ _ _ _ => false
  | .assign _ _ => false
  | .call _ _ => false
  | _ => true

theorem Node.Steady.of_form (h : n.isPlain = true) : n.Steady c fields banned := by
  have stays : ¬ n.Departs c := Node.not_departs fun _ _ _ shape ↦ by
    rw [isPlain, shape] at h
    cases h
  obtain ⟨i, shape⟩ := n
  have trivially (sh : Shape Node) (binds : sh.declared ++ sh.binders = [])
      (calls : sh.ownCalls = []) (assigns : sh.kind ≠ .assign) (notAwait : sh.kind ≠ .await)
      (letsOut : Node.LetsOut c ⟨i, sh⟩) (stays : ¬ Node.Departs c ⟨i, sh⟩) :
      Node.Steady c fields banned ⟨i, sh⟩ := by
    refine ⟨?_, ?_, ?_, ?_, notAwait, letsOut, stays⟩
    · rw [Node.shape, binds]
      exact List.forall_mem_nil _
    · rintro v o rfl
      exact absurd rfl assigns
    · rintro v o rfl
      exact absurd rfl assigns
    · rw [Node.shape, calls]
      exact List.forall_mem_nil _
  cases shape with
  | block declared ns =>
    cases declared with
    | nil => exact trivially _ rfl rfl (by rintro ⟨⟩) (by rintro ⟨⟩) trivial stays
    | cons => cases h
  | await => cases h
  | region => cases h
  | assign => cases h
  | call => cases h
  | _ => exact trivially _ rfl rfl (by rintro ⟨⟩) (by rintro ⟨⟩) trivial stays

/-- A node that is no awaiter asks none. -/
theorem Node.Steady.still (h : n.Steady c fields banned) (other : n.kind ≠ .awaiter) :
    n.Still c fields banned :=
  ⟨h, fun _ _ ⟨_, shape⟩ ↦ absurd (congrArg Shape.kind shape) other⟩

/-- Whether a plain node is still, by its form. -/
def Node.isSilent (n : Node) : Bool :=
  match n.shape with
  | .awaiter .isCompleted _ => false
  | _ => n.isPlain

theorem Node.Still.of_form (h : n.isSilent = true) : n.Still c fields banned := by
  refine ⟨.of_form ?_, fun v _ ⟨i, shape⟩ ↦ ?_⟩
  · unfold isSilent at h
    split at h
    · cases h
    · exact h
  · rw [isSilent, shape] at h
    cases h

/-- A plain node around others. -/
theorem Node.Around.plain (h : n.isSilent = true)
    (below : ∀ d ∈ n.children, d.Around out (Node.Still c fields banned)) :
    n.Around out (Node.Still c fields banned) :=
  .layer (.of_form h) below

theorem Node.Still.assign {i : NodeId} {v : Variable} {o : Node} (other : v.id ≠ c.state.id)
    (other' : v.id ≠ c.localState.id) : Node.Still c fields banned ⟨i, .assign v o⟩ where
  asks := by rintro _ _ ⟨_, ⟨⟩⟩
  binds := List.forall_mem_nil _
  state := by
    rintro _ _ ⟨⟩ same
    exact absurd same other
  localState := by
    rintro _ _ ⟨⟩ same
    exact absurd same other'
  calls := List.forall_mem_nil _
  notAwait := by rintro ⟨⟩
  letsOut := trivial
  stays := Node.not_departs (by rintro _ _ _ ⟨⟩)

/-- The way out starts with the copy of the state. -/
theorem Node.Departs.assigns (h : n.Departs c) :
    ∃ i o, (⟨i, .assign c.localState o⟩ : Node) ∈ n.children := by
  obtain ⟨q, suspension⟩ := h
  cases suspension with
  | mk _ _ _ _ update =>
    cases update with
    | mk => exact ⟨_, _, List.mem_cons_self⟩

/-- No question is asked on the way out. -/
theorem Node.Departs.not_awaiter {m : Node} (h : n.Departs c) (member : m ∈ n.walk) :
    m.kind ≠ .awaiter := by
  obtain ⟨q, suspension⟩ := h
  cases suspension with
  | mk _ _ _ _ update =>
    cases update with
    | mk =>
      simp only [Node.walk_mk, Shape.children, List.flatMap_cons, List.flatMap_nil,
        List.append_nil, List.cons_append, List.nil_append, List.mem_cons, List.not_mem_nil,
        or_false] at member
      rcases member with rfl | rfl | rfl | rfl | rfl | rfl | rfl <;> rintro ⟨⟩

/-! ### Where nobody leaves -/

/-- Where the state is not mentioned, there is no way out. -/
theorem Node.stays_of_symbols (h : c.localState.id ∉ n.symbols) : n.Stays c := by
  rintro m member ⟨q, suspension⟩
  cases suspension with
  | mk _ _ _ _ update =>
    cases update with
    | mk i j k =>
      refine h (List.mem_flatMap.2 ⟨_, Node.mem_children_walk List.mem_cons_self member, ?_⟩)
      exact List.mem_cons_self

/-- An expansion that adds no states knows the symbols of its tree only. -/
theorem Twin.symbols_eq (h : Twin keeps c p e X) (quiet : X.table = []) :
    e.symbols = p.symbols := by
  induction h with
  | @same i i' x below kind closed undeclared kept ih =>
    have empty : ∀ y ∈ x.children, y.2.2.table = [] := by
      intro y child
      exact List.flatMap_eq_nil_iff.1 quiet y.2.2 (List.mem_map_of_mem child)
    rw [Node.symbols_mk, Node.symbols_mk, Shape.ownSymbols_map, Shape.ownSymbols_map,
      Shape.children_map, Shape.children_map, List.flatMap_map, List.flatMap_map]
    exact congrArg _ (List.flatMap_congr fun y child ↦ ih y child (empty y child))
  | point => simp [Added.ofPoint] at quiet
  | unitPoint => simp [Added.ofPoint] at quiet
  | region => cases quiet

/-- Under the condition that the body is not on its way out, it is not left either. -/
theorem IsGuarded.stays {part : Node} (h : IsGuarded c part n) (stays : part.Stays c) :
    n.Stays c := by
  cases h with
  | mk i j k l =>
    have other {m : Node} (notBlock : m.kind ≠ .block) : ¬ m.Departs c := by
      intro departs
      obtain ⟨_, _, _, shape⟩ := departs.shape
      exact notBlock (congrArg Shape.kind shape)
    intro m member
    simp only [Node.walk_mk, Shape.children, List.flatMap_cons, List.flatMap_nil,
      Option.toList_none, List.append_nil, List.mem_cons, List.mem_append, List.not_mem_nil,
        or_false] at member
    rcases member with rfl | (rfl | rfl | rfl) | within
    · exact other (by rintro ⟨⟩)
    · exact other (by rintro ⟨⟩)
    · exact other (by rintro ⟨⟩)
    · exact other (by rintro ⟨⟩)
    · exact stays m within

theorem guarded_of_mem {part : Option (Node × Node)} {part' : Option Node} {g : Node}
    (h : Option.Rel (IsGuarded c) (part.map Prod.snd) part') (member : g ∈ part'.toList) :
    ∃ y ∈ part.toList, IsGuarded c y.2 g := by
  cases part with
  | none =>
    cases h
    cases member
  | some y =>
    cases h with
    | some guarded =>
      obtain rfl := List.mem_singleton.1 member
      exact ⟨y, List.mem_singleton_self y, guarded⟩

/-- An expansion that adds no states stays. -/
theorem Twin.stays (h : Twin keeps c p e X) (quiet : X.table = [])
    (free : c.localState.id ∉ p.symbols) : e.Stays c :=
  Node.stays_of_symbols (h.symbols_eq quiet ▸ free)

/-! ### The pieces -/

/-- Nothing asks or leads out in an update to running. -/
theorem IsUpdate.around (h : IsUpdate c running n) (apart : c.state.id ≠ c.localState.id) :
    n.Around out (Node.Still c fields banned) := by
  cases h with
  | mk i j k =>
    have inner : Node.Still c fields banned ⟨j, .assign c.state ⟨k, .const (.int running)⟩⟩ := by
      refine Node.Steady.still ⟨List.forall_mem_nil _, ?_, ?_, List.forall_mem_nil _, by rintro ⟨⟩,
        trivial, Node.not_departs (by rintro _ _ _ ⟨⟩)⟩ (by rintro ⟨⟩)
      · rintro _ _ ⟨⟩ _
        rfl
      · rintro _ _ ⟨⟩ same
        exact absurd same apart
    have outer : Node.Still c fields banned
        ⟨i, .assign c.localState ⟨j, .assign c.state ⟨k, .const (.int running)⟩⟩⟩ := by
      refine Node.Steady.still ⟨List.forall_mem_nil _, ?_, ?_, List.forall_mem_nil _, by rintro ⟨⟩,
        trivial, Node.not_departs (by rintro _ _ _ ⟨⟩)⟩ (by rintro ⟨⟩)
      · rintro _ _ ⟨⟩ same
        exact absurd same.symm apart
      · rintro _ _ ⟨⟩ _
        exact .inr ⟨_, rfl⟩
    exact .layer outer (List.forall_mem_singleton.2 (.layer inner (List.forall_mem_singleton.2
      (.plain rfl (List.forall_mem_nil _)))))

theorem Leads.around {i q : Int64} {label : Label} (h : Leads c i n label q)
    (apart : c.state.id ≠ c.localState.id) : n.Around out (Node.Still c fields banned) := by
  have jump (j : NodeId) : Node.Around out (Node.Still c fields banned) ⟨j, .goto label⟩ :=
    .plain rfl (List.forall_mem_nil _)
  cases h with
  | back isReturn =>
    cases isReturn with
    | mk i j update =>
      exact .plain rfl
        (List.forall_mem_cons.2 ⟨update.around apart, List.forall_mem_singleton.2 (jump j)⟩)
  | into => exact jump _

/-- Nothing asks or leads out in a guard. -/
theorem IsGuarded.around {part : Node} (h : IsGuarded c part n)
    (around : part.Around out (Node.Still c fields banned)) :
    n.Around out (Node.Still c fields banned) := by
  cases h with
  | mk i j k l =>
    have test : Node.Around out (Node.Still c fields banned)
        ⟨j, .binary .lt ⟨k, .var c.localState⟩ ⟨l, .const (.int 0)⟩⟩ :=
      .plain rfl (List.forall_mem_cons.2 ⟨.plain rfl (List.forall_mem_nil _),
        List.forall_mem_singleton.2 (.plain rfl (List.forall_mem_nil _))⟩)
    exact .plain rfl (List.forall_mem_cons.2 ⟨test, List.forall_mem_singleton.2 around⟩)

theorem IsOutcome.around {q : Point} (h : IsOutcome q n)
    (result : ∀ v ∈ q.result.toList,
      v.id ∉ c.state.id :: c.localState.id :: fields.map Variable.id) :
    n.Around out (Node.Still c fields banned) := by
  have question (j k : NodeId) : Node.Around out (Node.Still c fields banned)
      ⟨j, .awaiter .getResult ⟨k, .var q.awaiter⟩⟩ :=
    .plain rfl (List.forall_mem_singleton.2 (.plain rfl (List.forall_mem_nil _)))
  cases h with
  | kept i j k kept =>
    have other := result _ (Option.mem_toList.2 kept)
    simp only [List.mem_cons, not_or] at other
    exact .layer (.assign other.1 other.2.1) (List.forall_mem_singleton.2 (question j k))
  | dropped j k => exact question j k

/-- What is taken apart at a suspend point. -/
theorem IsPoint.around {acquire : Option String} {q : Point} {o : Node}
    (h : IsPoint c acquire q o n)
    (operand : o.Around out (Node.Still c fields banned)) (contract : c.state.id ≠ c.localState.id)
    (awaiter : q.awaiter.id ≠ c.state.id ∧ q.awaiter.id ≠ c.localState.id)
    (result : ∀ v ∈ q.result.toList,
      v.id ∉ c.state.id :: c.localState.id :: fields.map Variable.id)
    (allowed : ∀ name ∈ acquire.toList, ¬ banned name)
    (asks : ∀ {suspend test}, IsQuestion c q suspend test → out test) :
    n.Around out (Node.Still c fields banned) := by
  cases h with
  | @mk i i₁ i₂ i₃ i₄ i₅ i₆ i₇ i₈ i₉ i₁₀ suspend outcome run suspension outcomes update =>
    have acquired : Node.Around out (Node.Still c fields banned)
        ⟨i₂, Expand.acquireShape acquire o⟩ := by
      cases acquire with
      | none => exact .plain rfl (List.forall_mem_singleton.2 operand)
      | some name =>
        exact .layer (Node.Steady.still ⟨List.forall_mem_nil _, by rintro _ _ ⟨⟩, by rintro _ _ ⟨⟩,
          allowed, by rintro ⟨⟩, trivial, Node.not_departs (by rintro _ _ _ ⟨⟩)⟩ (by rintro ⟨⟩))
          (List.forall_mem_singleton.2 operand)
    have value : Node.Around out (Node.Still c fields banned) ⟨i₁₀, q.valueShape⟩ := by
      rw [Point.valueShape]
      cases q.result <;> exact .plain rfl (List.forall_mem_nil _)
    have set (j : NodeId) {o : Node} (around : o.Around out (Node.Still c fields banned)) :
        Node.Around out (Node.Still c fields banned) ⟨j, .assign q.awaiter o⟩ :=
      .layer (.assign awaiter.1 awaiter.2) (List.forall_mem_singleton.2 around)
    refine .layer (Node.Steady.still ⟨List.forall_mem_append.2 ⟨result, List.forall_mem_nil _⟩,
      by rintro _ _ ⟨⟩, by rintro _ _ ⟨⟩, List.forall_mem_nil _, by rintro ⟨⟩, trivial,
      Node.not_departs fun _ _ _ shape ↦ by cases congrArg Shape.children shape⟩
      (by rintro ⟨⟩)) ?_
    rintro d (_ | ⟨_, _ | ⟨_, _ | ⟨_, _ | ⟨_, _ | ⟨_, _ | ⟨_, _ | ⟨_, none⟩⟩⟩⟩⟩⟩⟩)
    · exact set i₁ acquired
    · exact .out (asks (.mk i₃ i₄ i₅ i₆ suspension))
    · exact .plain rfl (List.forall_mem_nil _)
    · exact outcomes.around result
    · exact set i₈ (.plain rfl (List.forall_mem_nil _))
    · exact update.around contract
    · exact value
    · cases none

/-- What is put around a region that suspends. -/
theorem IsEntered.around {entry : Label} {table : Table} {body : Node} {cs : List (Clause Node)}
    {cleanup fault : Option Node} (h : IsEntered c entry table body cs cleanup fault n)
    (cases : ∀ case ∈ table, case.body.Around out (Node.Still c fields banned))
    (bodies : body.Around out (Node.Still c fields banned))
    (clauses : ∀ part ∈ cs.flatMap Clause.children,
      part.Around out (Node.Still c fields banned) ∧ part.Stays c)
    (guards : ∀ g ∈ cleanup.toList ++ fault.toList, ∃ part, IsGuarded c part g ∧
      part.Around out (Node.Still c fields banned) ∧ part.Stays c)
    (binders : ∀ v ∈ cs.filterMap Clause.binder,
      v.id ∉ c.state.id :: c.localState.id :: fields.map Variable.id) :
    n.Around out (Node.Still c fields banned) := by
  cases h with
  | mk i i₁ i₂ i₃ i₄ i₅ =>
    have dispatch : Node.Around out (Node.Still c fields banned)
        ⟨i₄, .switch ⟨i₅, .var c.localState⟩ table none⟩ :=
      .plain rfl (List.forall_mem_cons.2 ⟨.plain rfl (List.forall_mem_nil _),
        List.forall_mem_append.2 ⟨List.forall_mem_map.2 cases, List.forall_mem_nil _⟩⟩)
    -- The region keeps its clauses and guards, and its binders are not of the contract.
    have region : Node.Still c fields banned
        ⟨i₂, .region ⟨i₃, .block [] [⟨i₄, .switch ⟨i₅, .var c.localState⟩ table none⟩, body]⟩ cs
          cleanup fault⟩ := by
      refine Node.Steady.still ⟨binders, by rintro _ _ ⟨⟩, by rintro _ _ ⟨⟩, List.forall_mem_nil _,
        by rintro ⟨⟩, ⟨?_, ?_⟩, Node.not_departs (by rintro _ _ _ ⟨⟩)⟩ (by rintro ⟨⟩)
      · rw [List.append_assoc]
        refine List.forall_mem_append.2 ⟨fun part member ↦ (clauses part member).2,
          fun g member ↦ ?_⟩
        obtain ⟨_, isGuarded, _, stays⟩ := guards g member
        exact isGuarded.stays stays
      · intro _ g member
        obtain ⟨part, isGuarded, _⟩ := guards g (List.mem_append_left _ member)
        exact ⟨part, isGuarded⟩
    have parts : ∀ g ∈ cs.flatMap Clause.children ++ cleanup.toList ++ fault.toList,
        g.Around out (Node.Still c fields banned) := by
      rw [List.append_assoc]
      refine List.forall_mem_append.2 ⟨fun part member ↦ (clauses part member).1, fun g member ↦ ?_⟩
      obtain ⟨_, isGuarded, around, _⟩ := guards g member
      exact isGuarded.around around
    exact .plain rfl (List.forall_mem_cons.2 ⟨.plain rfl (List.forall_mem_nil _),
      List.forall_mem_singleton.2 (.layer region (List.forall_mem_cons.2
        ⟨.plain rfl (List.forall_mem_cons.2 ⟨dispatch, List.forall_mem_singleton.2 bodies⟩),
          parts⟩))⟩)

/-- The variables that an expansion adds are none of those that it must not touch. -/
structure Added.Apart (c : Contract) (fields : List Variable) (X : Added) : Prop where
  contract : c.state.id ≠ c.localState.id
  results : ∀ v ∈ X.results, v.id ∉ c.state.id :: c.localState.id :: fields.map Variable.id
  awaiters : ∀ v ∈ X.fields, v.id ≠ c.state.id ∧ v.id ≠ c.localState.id

theorem Added.Apart.part {Y : Added} (h : X.Apart c fields) (results : Y.results ⊆ X.results)
    (awaiters : Y.fields ⊆ X.fields) : Y.Apart c fields :=
  ⟨h.contract, fun v inside ↦ h.results v (results inside),
    fun v inside ↦ h.awaiters v (awaiters inside)⟩

/-- A tree that knows none of the variables that an expansion must not touch, and calls nothing that
is banned. -/
structure Node.Foreign (c : Contract) (fields : List Variable) (banned : String → Prop) (p : Node) :
    Prop where
  free : ∀ id ∈ c.state.id :: c.localState.id :: fields.map Variable.id, id ∉ p.symbols
  allowed : ∀ name ∈ p.calls, ¬ banned name

namespace Node.Foreign

variable {m : Node}

/-- What is foreign to a tree is foreign to what stands in it. -/
theorem within (h : p.Foreign c fields banned) (inside : m ∈ p.walk) : m.Foreign c fields banned :=
  ⟨fun id taken known ↦ h.free id taken (symbols_subset inside known),
    fun name called ↦ h.allowed name (calls_subset inside called)⟩

theorem child (h : p.Foreign c fields banned) (inside : m ∈ p.children) :
    m.Foreign c fields banned :=
  h.within (mem_children_walk inside (mem_walk_self p))

theorem localState (h : p.Foreign c fields banned) : c.localState.id ∉ p.symbols :=
  h.free _ (List.mem_cons_of_mem _ List.mem_cons_self)

/-- What a layer of the tree knows is none of the variables. -/
theorem own (h : p.Foreign c fields banned) {id : SymbolId} (known : id ∈ p.shape.ownSymbols) :
    id ∉ c.state.id :: c.localState.id :: fields.map Variable.id := fun taken ↦
  h.free id taken (List.mem_flatMap.2 ⟨p, mem_walk_self p, known⟩)

end Node.Foreign

/-- What an expansion knows in a layer that is no block, its tree knows. -/
theorem Twin.ownSymbols_subset (h : Twin keeps c p e X) (other : e.kind ≠ .block) :
    e.shape.ownSymbols ⊆ p.symbols := by
  cases h with
  | @same i i' x =>
    rw [Node.symbols_mk, Node.shape, Shape.ownSymbols_map, Shape.ownSymbols_map]
    exact List.subset_append_left _ _
  | point _ isPoint =>
    cases isPoint
    exact absurd rfl other
  | unitPoint _ isPoint =>
    cases isPoint
    exact absurd rfl other
  | region _ _ _ _ _ _ entered =>
    cases entered
    exact absurd rfl other

/-- A layer that an expansion leaves as it is is still. -/
theorem Twin.still_same {i i' : NodeId} {x : Shape (Node × Node × Added)}
    (below : ∀ y ∈ x.children, Twin keeps c y.1 y.2.1 y.2.2) (kind : x.kind ≠ .await)
    (closed : x.kind = .region ∨ x.kind = .lock → ∀ y ∈ x.children, y.2.2.table = [])
    (foreign : Node.Foreign c fields banned ⟨i, x.map Prod.fst⟩) :
    Node.Still c fields banned ⟨i', x.map (·.2.1)⟩ := by
  have own {id : SymbolId} (known : id ∈ (x.map (·.2.1)).ownSymbols) :
      id ∉ c.state.id :: c.localState.id :: fields.map Variable.id := by
    rw [Shape.ownSymbols_map] at known
    exact foreign.own (by rw [Node.shape, Shape.ownSymbols_map]; exact known)
  have assigned {v : Variable} {o : Node} (shape : x.map (·.2.1) = .assign v o) :
      v.id ≠ c.state.id ∧ v.id ≠ c.localState.id := by
    have known : v.id ∉ c.state.id :: c.localState.id :: fields.map Variable.id :=
      own (shape ▸ List.mem_cons_self)
    simp only [List.mem_cons, not_or] at known
    exact ⟨known.1, known.2.1⟩
  -- What a child that is no block knows, its tree knows, and that is none of the variables.
  have unknown {d : Node} (child : d ∈ (x.map (·.2.1)).children) (other : d.kind ≠ .block)
      {id : SymbolId} (taken : id ∈ c.state.id :: c.localState.id :: fields.map Variable.id) :
      id ∉ d.shape.ownSymbols := by
    rw [Shape.children_map] at child
    obtain ⟨y, inside, rfl⟩ := List.mem_map.1 child
    exact fun known ↦ (foreign.child (m := y.1) (Node.mem_children_map inside)).free id taken
      ((below y inside).ownSymbols_subset other known)
  refine ⟨⟨fun v member ↦ own (Shape.binds_ownSymbols member),
    fun shape same ↦ absurd same (assigned shape).1,
    fun shape same ↦ absurd same (assigned shape).2,
    fun name member ↦ foreign.allowed name ?_, ?_, ?_, fun departs ↦ ?_⟩, fun v field reads ↦ ?_⟩
  · rw [Node.shape, Shape.ownCalls_map] at member
    rw [Node.calls_mk, Shape.ownCalls_map]
    exact List.mem_append_left _ member
  · rw [Node.kind, Node.shape, Shape.kind_map]
    exact kind
  · cases x with
    | region body cs cleanup fault =>
      have stays : ∀ y ∈ (Shape.region body cs cleanup fault).children, y.2.1.Stays c :=
        fun y child ↦
        (below y child).stays (closed (.inl rfl) y child)
          (foreign.child (m := y.1) (Node.mem_children_map child)).localState
      refine ⟨?_, fun leaves ↦ absurd (stays body List.mem_cons_self) leaves⟩
      rw [Clause.flatMap_children, Option.toList_map, Option.toList_map, ← List.map_append,
        ← List.map_append]
      exact List.forall_mem_map.2 fun y part ↦ stays y (List.mem_cons_of_mem _ part)
    | _ => trivial
  · obtain ⟨j, o, child⟩ := departs.assigns
    exact unknown child (by rintro ⟨⟩) (List.mem_cons_of_mem _ List.mem_cons_self)
      List.mem_cons_self
  · obtain ⟨j, shape⟩ := reads
    have child : (⟨j, .var v⟩ : Node) ∈ (x.map (·.2.1)).children := by
      rw [show x.map (·.2.1) = _ from shape]
      exact List.mem_cons_self
    exact unknown child (by rintro ⟨⟩) (List.mem_cons_of_mem _ (List.mem_cons_of_mem _
      (List.mem_map_of_mem field))) List.mem_cons_self

/-- A suspend point whose operand is expanded. -/
theorem Twin.around_point {acquire : Option String} {q : Point} {p' o entry : Node}
    (operand : Twin keeps c p' o X) (isPoint : IsPoint c acquire q o e)
    (apart : (X ++ .ofPoint q entry).Apart c fields) (foreign : p.Foreign c fields banned)
    (within : p' ∈ p.walk) (acquires : acquire.toList ⊆ p.calls)
    (ih : X.Apart c fields → p'.Foreign c fields banned →
      o.Around (X.Asks c) (Node.Still c fields banned)) :
    e.Around ((X ++ .ofPoint q entry).Asks c) (Node.Still c fields banned) := by
  have inner := ih (apart.part (List.subset_append_left _ _) (List.subset_append_left _ _))
    (foreign.within within)
  refine isPoint.around (inner.mono fun m asks ↦ asks.mono ?_)
    apart.contract (apart.awaiters _ (List.mem_append_right _ List.mem_cons_self))
    (fun v inside ↦ apart.results v (List.mem_append_right _ inside))
    (fun name called ↦ foreign.allowed name (acquires called))
    fun question ↦ ⟨q, _, question, ?_⟩
  · rw [Added.waits_append operand.even]
    exact List.subset_append_left _ _
  · rw [Added.waits_append operand.even]
    exact List.mem_append_right _ List.mem_cons_self

/-- A region whose body suspends and is expanded. Its parts do not suspend. -/
theorem Twin.around_region {body' body : Node} {entry : Label} {enter : Node}
    {cs : List (Clause (Node × Node))} {cleanup fault : Option (Node × Node)}
    {cleanup' fault' : Option Node} (bodies : Twin keeps c body' body X)
    (around : body.Around (X.Asks c) (Node.Still c fields banned))
    (parts : ∀ y ∈ cs.flatMap Clause.children ++ (cleanup.toList ++ fault.toList),
      y.2.Around (Added.Asks c {}) (Node.Still c fields banned) ∧ y.2.Stays c)
    (guarded : Option.Rel (IsGuarded c) (cleanup.map Prod.snd) cleanup')
    (guarded' : Option.Rel (IsGuarded c) (fault.map Prod.snd) fault')
    (entered : IsEntered c entry X.table body (cs.map (Clause.map Prod.snd)) cleanup' fault' e)
    (contract : c.state.id ≠ c.localState.id)
    (binders : ∀ v ∈ (cs.map (Clause.map Prod.snd)).filterMap Clause.binder,
      v.id ∉ c.state.id :: c.localState.id :: fields.map Variable.id) :
    e.Around ((X.ofRegion entry enter).Asks c) (Node.Still c fields banned) := by
  have parts : ∀ y ∈ cs.flatMap Clause.children ++ (cleanup.toList ++ fault.toList),
      y.2.Around ((X.ofRegion entry enter).Asks c) (Node.Still c fields banned) ∧ y.2.Stays c := by
    intro y member
    refine ⟨(parts y member).1.mono ?_, (parts y member).2⟩
    rintro _ ⟨_, _, _, ⟨⟩⟩
  refine entered.around (fun case member ↦ ?_) (around.mono fun m asks ↦ asks.mono ?_) ?_
    (fun g member ↦ ?_) binders
  · obtain ⟨_, _, _, leads⟩ := bodies.leads 0 member
    exact leads.around contract
  · rw [Added.waits_ofRegion]
    exact List.Subset.refl _
  · rw [Clause.flatMap_children]
    exact List.forall_mem_map.2 fun y member ↦ parts y (List.mem_append_left _ member)
  · obtain ⟨y, inside, isGuarded⟩ : ∃ y ∈ cleanup.toList ++ fault.toList, IsGuarded c y.2 g := by
      rcases List.mem_append.1 member with ofCleanup | ofFault
      · obtain ⟨y, inside, isGuarded⟩ := guarded_of_mem guarded ofCleanup
        exact ⟨y, List.mem_append_left _ inside, isGuarded⟩
      · obtain ⟨y, inside, isGuarded⟩ := guarded_of_mem guarded' ofFault
        exact ⟨y, List.mem_append_right _ inside, isGuarded⟩
    exact ⟨y.2, isGuarded, parts y (List.mem_append_right _ inside)⟩

/-- Every node of an expansion outside of the questions of its suspend points is still, provided
that its tree knows none of the variables that it must not touch and calls nothing that
is banned. -/
theorem Twin.around (h : Twin keeps c p e X) (apart : X.Apart c fields)
    (foreign : p.Foreign c fields banned) :
    e.Around (X.Asks c) (Node.Still c fields banned) := by
  induction h with
  | @same i i' x below kind closed undeclared kept ih =>
    refine .layer (still_same below kind closed foreign) ?_
    rw [Node.children, Node.shape, Shape.children_map]
    refine List.forall_mem_map.2 fun y child ↦ ?_
    have among : y.2.2 ∈ x.children.map (·.2.2) := List.mem_map_of_mem child
    refine (ih y child (apart.part (fun v inside ↦ List.mem_flatMap.2 ⟨y.2.2, among, inside⟩)
      fun v inside ↦ List.mem_flatMap.2 ⟨y.2.2, among, inside⟩)
      (foreign.child (Node.mem_children_map child))).mono fun m asks ↦ asks.mono ?_
    exact Added.waits_subset_join (List.forall_mem_map.2 fun z inside ↦ (below z inside).even) among
  | point operand isPoint isReturn interest ih =>
    exact operand.around_point isPoint apart foreign
      (Node.mem_children_walk List.mem_cons_self
        (Node.mem_children_walk List.mem_cons_self (Node.mem_walk_self _)))
      (by simp [Node.calls_mk, Shape.ownCalls]) ih
  | unitPoint operand isPoint isReturn interest ih =>
    exact operand.around_point isPoint apart foreign
      (Node.mem_children_walk List.mem_cons_self (Node.mem_children_walk List.mem_cons_self
        (Node.mem_children_walk List.mem_cons_self (Node.mem_walk_self _))))
      (by simp [Node.calls_mk, Shape.children, Shape.ownCalls]) ih
  | @region i j k l body' body e X entry cs cleanup fault cleanup' fault' bodies suspends clauses
      parts guarded guarded' entered ih ihs ihs' =>
    let inner : Node := ⟨j, .region ⟨k, .block [] [body']⟩ (cs.map (Clause.map Prod.fst))
      (cleanup.map Prod.fst) (fault.map Prod.fst)⟩
    have children : inner.children = ⟨k, .block [] [body']⟩ ::
        (cs.flatMap Clause.children ++ (cleanup.toList ++ fault.toList)).map Prod.fst := by
      simp [inner, Node.children, Node.shape, Shape.children, Clause.flatMap_children,
        Option.toList_map]
    have isRegion : inner.Foreign c fields banned := foreign.child List.mem_cons_self
    have bodyForeign : body'.Foreign c fields banned :=
      (isRegion.child (children ▸ List.mem_cons_self)).child List.mem_cons_self
    have partForeign {y : Node × Node}
        (member : y ∈ cs.flatMap Clause.children ++ (cleanup.toList ++ fault.toList)) :
        y.1.Foreign c fields banned :=
      isRegion.child (children ▸ List.mem_cons_of_mem _ (List.mem_map_of_mem member))
    -- Handlers do not suspend: nothing was added for them.
    have nothing : Added.Apart c fields {} :=
      apart.part (List.nil_subset _) (List.nil_subset _)
    refine bodies.around_region (ih (apart.part (fun _ ↦ id) fun _ ↦ id) bodyForeign)
      (List.forall_mem_append.2 ⟨fun y member ↦ ?_, fun y member ↦ ?_⟩) guarded guarded' entered
      apart.contract fun v member ↦ ?_
    · have known := partForeign (List.mem_append_left _ member)
      exact ⟨ihs y member nothing known, (clauses y member).stays rfl known.localState⟩
    · have known := partForeign (List.mem_append_right _ member)
      exact ⟨ihs' y member nothing known, (parts y member).stays rfl known.localState⟩
    · have known : v ∈ inner.shape.declared ++ inner.shape.binders := by
        simpa [inner, Node.shape, Shape.declared, Shape.binders, List.filterMap_map,
          Function.comp_def, Clause.map] using member
      exact isRegion.own (Shape.binds_ownSymbols known)

end Steady

end Suspension
