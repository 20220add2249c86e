import Suspension.Proofs.Preparation.Legal

/-!
# Where nodes occur

The static check carries what encloses a node in the flags of a `Position` and stops at the first
node that is out of place. Here every node of a tree is listed with the places passed on the way
down to it (`Node.occurrences`), in the order of `Node.walk`, and `Occurrence.Offends` says of one
of them what is wrong with it. The check finds the first that offends, and nothing else
(`Node.check_error_iff`, `Node.check_ok_iff`).
-/

namespace Suspension

/-- What a child is to its parent, as far as suspending and rethrowing go. -/
inductive Place
  | filter
  /-- The guard or the body of a lock. -/
  | lock
  /-- The body of a clause. -/
  | handler
  /-- A finally or a fault body. -/
  | cleanup
  | plain
  deriving DecidableEq, Repr

/-- The children of a layer with the places where they stand, in evaluation order. -/
def Shape.placed {α : Type} : Shape α → List (Place × α)
  | .region body clauses cleanup fault =>
    (.plain, body) :: clauses.flatMap (fun c ↦
      c.filter.toList.map (fun filter ↦ (.filter, filter)) ++ [(.handler, c.body)]) ++
      (cleanup.toList ++ fault.toList).map fun part ↦ (.cleanup, part)
  | .lock guard body => [(.lock, guard), (.lock, body)]
  | sh => sh.children.map fun a ↦ (.plain, a)

namespace Shape

variable {α β : Type}

theorem map_snd_placed (sh : Shape α) : sh.placed.map Prod.snd = sh.children := by
  cases sh with
  | region body clauses cleanup fault =>
    simp only [placed, children, List.map_cons, List.map_append, List.map_flatMap, List.map_map,
      Function.comp_def, List.map_nil, List.map_id', List.cons_append, List.append_assoc]
    rfl
  | _ => simp [placed, children, Function.comp_def]

theorem placed_map (f : α → β) (sh : Shape α) :
    (sh.map f).placed = sh.placed.map fun (place, a) ↦ (place, f a) := by
  cases sh <;>
    simp [placed, children, map, Function.comp_def, List.map_flatMap, List.flatMap_map, Clause.map,
      Case.map, Option.toList_map]

end Shape

/-- A node of a tree and the places passed on the way down to it, the outermost first. -/
structure Occurrence where
  above : List Place
  node : Node

namespace Occurrence

/-- One step further away from the root. -/
def beneath (place : Place) (o : Occurrence) : Occurrence :=
  { o with above := place :: o.above }

/-- What is wrong with an occurrence of a node, if anything is. `handlersMove` says whether handler
bodies that suspend are going to be moved out of their regions. -/
inductive Offends (handlersMove : Bool) (o : Occurrence) : Objection → Prop
  | inFilter (suspends : o.node.kind = .await) (filter : .filter ∈ o.above) :
    Offends handlersMove o .awaitInFilter
  | inLock (suspends : o.node.kind = .await) (noFilter : .filter ∉ o.above)
    (lock : .lock ∈ o.above) : Offends handlersMove o .awaitInLock
  | inHandler (suspends : o.node.kind = .await) (noFilter : .filter ∉ o.above)
    (noLock : .lock ∉ o.above) (stays : handlersMove = false)
    (handler : .handler ∈ o.above ∨ .cleanup ∈ o.above) : Offends handlersMove o .awaitInHandler
  | rethrow (raises : o.node.shape = .raise none) (noHandler : .handler ∉ o.above) :
    Offends handlersMove o .rethrowOutsideHandler

end Occurrence

namespace Node

/-- Every node of a tree where it occurs, each before those beneath it. -/
def occurrences : Node → List Occurrence :=
  fold fun n layer ↦
    ⟨[], n⟩ :: layer.placed.flatMap fun (place, below) ↦ below.map (Occurrence.beneath place)

theorem occurrences_eq (n : Node) :
    n.occurrences = ⟨[], n⟩ :: n.shape.placed.flatMap fun (place, c) ↦
      c.occurrences.map (Occurrence.beneath place) := by
  rw [occurrences, fold_eq, Shape.placed_map, List.flatMap_map]

/-- The nodes occur in the order in which a tree is walked. -/
theorem map_node_occurrences (n : Node) : n.occurrences.map Occurrence.node = n.walk := by
  induction n using Node.induction with
  | step n ih =>
    have below : n.children.flatMap walk = n.shape.placed.flatMap fun (_, c) ↦ c.walk := by
      rw [children, ← Shape.map_snd_placed, List.flatMap_map]
    rw [occurrences_eq, walk_eq, List.map_cons, List.map_flatMap, below]
    refine congrArg (n :: ·) (List.flatMap_congr fun (place, c) member ↦ ?_)
    have child : c ∈ n.children := by
      rw [children, ← Shape.map_snd_placed]
      exact List.mem_map_of_mem (f := Prod.snd) member
    show (c.occurrences.map (Occurrence.beneath place)).map Occurrence.node = c.walk
    rw [← ih c child, List.map_map]
    rfl

/-- The first offence of a tree, and the rejection that names it. -/
def FirstOffence (handlersMove : Bool) (body : Node) (r : Rejection) : Prop :=
  ∃ before o after, body.occurrences = before ++ o :: after ∧
    o.Offends handlersMove r.objection ∧ r.node = o.node.id ∧
      ∀ earlier ∈ before, ∀ objection, ¬ earlier.Offends handlersMove objection

end Node

/-! ### Positions -/

namespace Position

/-- The position reached from another along some places. -/
def along (p : Position) (places : List Place) : Position where
  inFilter := p.inFilter || places.contains .filter
  inLock := p.inLock || places.contains .lock
  inCatch := p.inCatch || places.contains .handler
  inCleanup := p.inCleanup || places.contains .cleanup

@[simp] theorem along_nil (p : Position) : p.along [] = p := by
  simp [along]

theorem along_cons (p : Position) (place : Place) (places : List Place) :
    p.along (place :: places) = (p.along [place]).along places := by
  cases place <;> simp [along]

/-- What the check objects to is what is wrong with an occurrence. -/
theorem objection?_eq_some_iff {handlersMove : Bool} {o : Occurrence} {objection : Objection} :
    (along {} o.above).objection? handlersMove o.node.shape = some objection ↔
      o.Offends handlersMove objection := by
  obtain ⟨places, i, sh⟩ := o
  constructor
  · intro found
    -- The check asks about filters first, then about locks, then about handlers.
    cases sh with
    | await operand acquire result =>
      change awaitObjection? _ _ = _ at found
      rw [awaitObjection?] at found
      simp only [along, Bool.false_or, List.contains_iff_mem, Bool.and_eq_true, Bool.or_eq_true,
        Bool.not_eq_true'] at found
      split at found
      · next filter =>
        cases found
        exact .inFilter rfl filter
      · next noFilter =>
        split at found
        · next lock =>
          cases found
          exact .inLock rfl noFilter lock
        · next noLock =>
          split at found
          · next handler =>
            cases found
            exact .inHandler rfl noFilter noLock handler.1 handler.2
          · cases found
    | raise value =>
      cases value with
      | some v => cases found
      | none =>
        change (if (along {} places).inCatch then none else some _) = _ at found
        simp only [along, Bool.false_or, List.contains_iff_mem] at found
        split at found
        · cases found
        · next noHandler =>
          cases found
          exact .rethrow rfl noHandler
    | _ => cases found
  · intro offends
    have await {sh : Shape Node} (suspends : sh.kind = .await) (p : Position) :
        p.objection? handlersMove sh = p.awaitObjection? handlersMove := by
      cases sh <;> first | rfl | cases suspends
    cases offends with
    | inFilter suspends filter =>
      change Place.filter ∈ places at filter
      rw [await suspends, awaitObjection?]
      simp [along, filter]
    | inLock suspends noFilter lock =>
      change Place.filter ∉ places at noFilter
      change Place.lock ∈ places at lock
      rw [await suspends, awaitObjection?]
      simp [along, noFilter, lock]
    | inHandler suspends noFilter noLock stays handler =>
      change Place.filter ∉ places at noFilter
      change Place.lock ∉ places at noLock
      change Place.handler ∈ places ∨ Place.cleanup ∈ places at handler
      rw [await suspends, awaitObjection?]
      simp [along, noFilter, noLock, stays, handler]
    | rethrow raises noHandler =>
      obtain rfl : sh = .raise none := raises
      change Place.handler ∉ places at noHandler
      change (if (along {} places).inCatch then none else some _) = _
      simp [along, noHandler]

end Position

/-! ### The check -/

/-- Checks in a row fail with the first that fails. -/
theorem forM_error_iff {α ε : Type} {f : α → Except ε Unit} {as : List α} {e : ε} :
    as.forM f = .error e ↔
      ∃ before a after, as = before ++ a :: after ∧ f a = .error e ∧
        ∀ b ∈ before, f b = .ok () := by
  induction as with
  | nil =>
    constructor
    · nofun
    · rintro ⟨before, a, after, split, -⟩
      simp at split
  | cons a as ih =>
    change (do f a; as.forM f) = .error e ↔ _
    cases first : f a with
    | error e' =>
      constructor
      · intro failed
        cases failed
        exact ⟨[], a, as, rfl, first, nofun⟩
      · rintro ⟨before, b, after, split, failed, passed⟩
        cases before with
        | nil =>
          cases split
          rw [first] at failed
          cases failed
          rfl
        | cons b before =>
          cases split
          rw [passed a List.mem_cons_self] at first
          cases first
    | ok u =>
      change as.forM f = .error e ↔ _
      rw [ih]
      constructor
      · rintro ⟨before, b, after, rfl, failed, passed⟩
        exact ⟨a :: before, b, after, rfl, failed, List.forall_mem_cons.2 ⟨first, passed⟩⟩
      · rintro ⟨before, b, after, split, failed, passed⟩
        cases before with
        | nil =>
          cases split
          rw [first] at failed
          cases failed
        | cons b before =>
          cases split
          exact ⟨before, b, after, rfl, failed, (List.forall_mem_cons.1 passed).2⟩

theorem forM_flatMap {α β ε : Type} {f : β → Except ε Unit} {g : α → List β} (as : List α) :
    forM (as.flatMap g) f = forM as fun a ↦ forM (g a) f := by
  induction as with
  | nil => rfl
  | cons a as ih => rw [List.flatMap_cons, List.forM_append, ih, List.forM_cons]

theorem forM_congr {α ε : Type} {f g : α → Except ε Unit} {as : List α}
    (h : ∀ a ∈ as, f a = g a) : as.forM f = as.forM g := by
  induction as with
  | nil => rfl
  | cons a as ih =>
    change (do f a; as.forM f) = (do g a; as.forM g)
    rw [h a List.mem_cons_self, ih fun b member ↦ h b (List.mem_cons_of_mem a member)]

/-- The children of a layer are visited where they stand. -/
theorem Shape.visitAt_eq {ε : Type} (p : Position) (sh : Shape (Position → Except ε Unit)) :
    sh.visitAt p = sh.placed.forM fun (place, visit) ↦ visit (p.along [place]) := by
  have filter : p.along [.filter] = { p with inFilter := true } := by simp [Position.along]
  have handler : p.along [.handler] = { p with inCatch := true } := by simp [Position.along]
  have cleanup : p.along [.cleanup] = { p with inCleanup := true } := by simp [Position.along]
  have lock : p.along [.lock] = { p with inLock := true } := by simp [Position.along]
  have plain : p.along [.plain] = p := by simp [Position.along]
  rw [List.forM_eq_forM]
  cases sh with
  | region body clauses parts parts' =>
    simp only [visitAt, placed, List.forM_eq_forM, List.forM_cons, List.forM_append, List.forM_map,
      forM_flatMap, List.cons_append, List.forM_nil, bind_pure_unit, filter, handler,
        cleanup, plain]
  | lock guard body =>
    simp only [visitAt, placed, List.forM_cons, List.forM_nil, bind_pure_unit, lock]
  | _ => simp only [visitAt, placed, List.forM_eq_forM, List.forM_map, plain]

/-- What the check says of an occurrence, counted from a position. -/
def Occurrence.judge (handlersMove : Bool) (p : Position) (o : Occurrence) :
    Except Rejection Unit :=
  match (p.along o.above).objection? handlersMove o.node.shape with
  | some objection => throw ⟨objection, o.node.id⟩
  | none => pure ()

theorem Occurrence.judge_error_iff {handlersMove : Bool} {o : Occurrence} {r : Rejection} :
    o.judge handlersMove {} = .error r ↔ o.Offends handlersMove r.objection ∧
      r.node = o.node.id := by
  rw [judge, ← Position.objection?_eq_some_iff]
  obtain ⟨objection, i⟩ := r
  cases Position.objection? handlersMove _ o.node.shape with
  | none => exact ⟨nofun, nofun⟩
  | some found =>
    constructor
    · intro failed
      cases failed
      exact ⟨rfl, rfl⟩
    · rintro ⟨same, rfl⟩
      cases same
      rfl

theorem Occurrence.judge_ok_iff {handlersMove : Bool} {o : Occurrence} :
    o.judge handlersMove {} = .ok () ↔ ∀ objection, ¬ o.Offends handlersMove objection := by
  simp only [judge, ← Position.objection?_eq_some_iff]
  cases Position.objection? handlersMove _ o.node.shape with
  | none => exact ⟨fun _ ↦ nofun, fun _ ↦ rfl⟩
  | some found => exact ⟨nofun, fun none ↦ absurd rfl (none found)⟩

namespace Node

/-- A tree is checked occurrence by occurrence. -/
theorem checkAt_occurrences (handlersMove : Bool) (n : Node) (p : Position) :
    n.checkAt handlersMove p = n.occurrences.forM (Occurrence.judge handlersMove p) := by
  induction n using Node.induction generalizing p with
  | step n ih =>
    have beneath (place : Place) (o : Occurrence) : (o.beneath place).judge handlersMove p =
        o.judge handlersMove (p.along [place]) := by
      rw [Occurrence.judge, Occurrence.judge, ← Position.along_cons]
      rfl
    have below : (n.shape.map (checkAt handlersMove)).visitAt p =
        (n.shape.placed.flatMap fun (place, c) ↦ c.occurrences.map (Occurrence.beneath place)).forM
          (Occurrence.judge handlersMove p) := by
      rw [Shape.visitAt_eq, Shape.placed_map, List.forM_eq_forM, List.forM_eq_forM, forM_flatMap,
        List.forM_map]
      refine forM_congr fun (place, c) member ↦ ?_
      have child : c ∈ n.children := by
        rw [children, ← Shape.map_snd_placed]
        exact List.mem_map_of_mem (f := Prod.snd) member
      show c.checkAt handlersMove (p.along [place]) = _
      rw [List.forM_map, ih c child]
      exact forM_congr fun o _ ↦ (beneath place o).symm
    rw [checkAt_eq, occurrences_eq]
    show _ = (do Occurrence.judge handlersMove p ⟨[], n⟩; List.forM _ _)
    rw [← below, Occurrence.judge, Position.along_nil]
    cases p.objection? handlersMove n.shape <;> rfl

theorem check_error_iff {handlersMove : Bool} {body : Node} {r : Rejection} :
    body.check handlersMove = .error r ↔ body.FirstOffence handlersMove r := by
  rw [check, checkAt_occurrences, forM_error_iff]
  simp only [FirstOffence, Occurrence.judge_error_iff, Occurrence.judge_ok_iff, and_assoc]

/-- The check fails if and only if something is out of place. -/
theorem check_ok_iff {handlersMove : Bool} {body : Node} :
    body.check handlersMove = .ok () ↔
      ∀ o ∈ body.occurrences, ∀ objection, ¬ o.Offends handlersMove objection := by
  constructor
  · intro passed o member
    rw [check, checkAt_occurrences] at passed
    exact Occurrence.judge_ok_iff.1 (forM_ok passed o member)
  · intro clean
    cases checked : body.check handlersMove with
    | ok u => rfl
    | error r =>
      obtain ⟨before, o, after, split, offends, -⟩ := check_error_iff.1 checked
      exact absurd offends (clean o (split ▸ List.mem_append_right _ List.mem_cons_self) _)

end Node

end Suspension
