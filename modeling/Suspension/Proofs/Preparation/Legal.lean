import Mathlib.Data.List.Basic
import Suspension.Lowering.Legality
import Suspension.Proofs.Labels

/-!
# What the static check finds out

A body that passes the check has no suspend point in a filter or in a lock, wherever those are
(`Node.check_legal`). Where handlers may move, that is all that is asked of suspend points.
-/

namespace Suspension

/-- A node whose filters do not suspend, and neither do its guard and its body if it is a lock. -/
structure Node.Legal (n : Node) : Prop where
  filters : ∀ {body clauses cleanup fault}, n.shape = .region body clauses cleanup fault →
    ∀ clause ∈ clauses, ∀ filter ∈ clause.filter, filter.containsAwait = false
  lock : ∀ {guard body}, n.shape = .lock guard body →
    guard.containsAwait = false ∧ body.containsAwait = false

theorem bind_ok {ε : Type} {x y : Except ε Unit} (h : (do x; y) = .ok ()) :
    x = .ok () ∧ y = .ok () := by
  cases x with
  | error e => cases h
  | ok u => exact ⟨rfl, h⟩

/-- Checks in a row succeed if each of them does. -/
theorem forM_ok {α ε : Type} {f : α → Except ε Unit} {as : List α}
    (h : as.forM f = .ok ()) : ∀ a ∈ as, f a = .ok () := by
  induction as with
  | nil => exact nofun
  | cons a as ih =>
    obtain ⟨head, tail⟩ := bind_ok (x := f a) h
    exact List.forall_mem_cons.2 ⟨head, ih tail⟩

/-- A position whose nodes may not suspend. -/
def Position.Quiet (p : Position) : Prop :=
  p.inFilter = true ∨ p.inLock = true

namespace Shape

variable {ε α : Type} {p : Position} {f : α → Position → Except ε Unit}

/-- Every child is visited, at a position no more permissive. -/
theorem visitAt_ok {sh : Shape α} (h : (sh.map f).visitAt p = .ok ()) {a : α}
    (child : a ∈ sh.children) : ∃ q, f a q = .ok () ∧ (p.Quiet → q.Quiet) := by
  have each {as : List α} (h : as.forM (fun a ↦ f a p) = .ok ()) (member : a ∈ as) :
      ∃ q, f a q = .ok () ∧ (p.Quiet → q.Quiet) := ⟨p, forM_ok h a member, id⟩
  cases sh with
  | region body clauses cleanup fault =>
    obtain ⟨bodies, rest⟩ := bind_ok h
    obtain ⟨handlers, parts⟩ := bind_ok rest
    simp only [children, List.mem_append, List.mem_cons, List.mem_flatMap] at child
    rcases child with ((rfl | ⟨clause, inside, member⟩) | member) | member
    · exact ⟨p, bodies, id⟩
    · obtain ⟨filters, handler⟩ :=
        bind_ok (forM_ok handlers _ (List.mem_map_of_mem (f := Clause.map f) inside))
      rcases List.mem_append.1 member with member | member
      · refine ⟨{ p with inFilter := true }, ?_, fun _ ↦ .inl rfl⟩
        refine forM_ok filters (f a) ?_
        rw [Clause.map, Option.toList_map]
        exact List.mem_map_of_mem member
      · cases List.mem_singleton.1 member
        exact ⟨{ p with inCatch := true }, handler, id⟩
    · refine ⟨{ p with inCleanup := true }, forM_ok parts (f a) ?_, id⟩
      rw [Option.toList_map, Option.toList_map]
      exact List.mem_append_left _ (List.mem_map_of_mem member)
    · refine ⟨{ p with inCleanup := true }, forM_ok parts (f a) ?_, id⟩
      rw [Option.toList_map, Option.toList_map]
      exact List.mem_append_right _ (List.mem_map_of_mem member)
  | lock guard body =>
    obtain ⟨guards, bodies⟩ := bind_ok h
    rcases List.mem_pair.1 child with rfl | rfl
    · exact ⟨{ p with inLock := true }, guards, fun _ ↦ .inr rfl⟩
    · exact ⟨{ p with inLock := true }, bodies, fun _ ↦ .inr rfl⟩
  | _ =>
    have visited : ∀ action ∈ (Shape.map f _).children, action p = .ok () := forM_ok h
    rw [children_map] at visited
    exact ⟨p, visited (f a) (List.mem_map_of_mem child), id⟩

end Shape

namespace Node

theorem checkAt_eq (handlersMove : Bool) (n : Node) (p : Position) :
    n.checkAt handlersMove p = match p.objection? handlersMove n.shape with
      | some objection => throw ⟨objection, n.id⟩
      | none => (n.shape.map (checkAt handlersMove)).visitAt p := by
  have own {α : Type} (f : Node → α) :
      p.objection? handlersMove (n.shape.map f) = p.objection? handlersMove n.shape := by
    cases n.shape with
    | raise value => cases value <;> rfl
    | _ => rfl
  rw [← own]
  exact congrFun (fold_eq _ n) p

/-- A tree that passes the check where suspend points are forbidden has none. -/
theorem checkAt_quiet {n : Node} {p : Position} {handlersMove : Bool}
    (h : n.checkAt handlersMove p = .ok ()) (quiet : p.Quiet) : n.containsAwait = false := by
  induction n using Node.induction generalizing p with
  | step n ih =>
    rw [checkAt_eq] at h
    split at h
    · cases h
    · rename_i free
      rw [containsAwait_eq, Bool.or_eq_false_iff, List.any_eq_false]
      constructor
      · obtain ⟨i, shape⟩ := n
        cases shape with
        | await o acquire result =>
          have found : p.objection? handlersMove (.await o acquire result) = none := free
          rw [Position.objection?, Position.awaitObjection?] at found
          rcases quiet with inFilter | inLock
          · rw [inFilter] at found
            cases found
          · rw [inLock] at found
            split at found <;> cases found
        | _ => rfl
      · intro c child
        obtain ⟨q, checked, quiet'⟩ := Shape.visitAt_ok h child
        rw [ih c child checked (quiet' quiet)]
        exact Bool.false_ne_true

theorem checkAt_legal {n : Node} {p : Position} {handlersMove : Bool}
    (h : n.checkAt handlersMove p = .ok ()) : ∀ m ∈ n.walk, m.Legal := by
  induction n using Node.induction generalizing p with
  | step n ih =>
    rw [checkAt_eq] at h
    split at h
    · cases h
    · intro m member
      rw [walk_eq] at member
      rcases List.mem_cons.1 member with rfl | below
      · refine ⟨?_, ?_⟩
        · rintro body clauses cleanup fault eq clause inside filter some
          rw [eq] at h
          obtain ⟨-, rest⟩ := bind_ok h
          obtain ⟨handlers, -⟩ := bind_ok rest
          obtain ⟨filters, -⟩ :=
            bind_ok (forM_ok handlers _ (List.mem_map_of_mem inside))
          refine checkAt_quiet (forM_ok filters (filter.checkAt handlersMove) ?_) (.inl rfl)
          rw [Clause.map, Option.toList_map]
          exact List.mem_map_of_mem (Option.mem_toList.2 some)
        · rintro guard body eq
          rw [eq] at h
          obtain ⟨guards, bodies⟩ := bind_ok h
          exact ⟨checkAt_quiet guards (.inr rfl), checkAt_quiet bodies (.inr rfl)⟩
      · obtain ⟨c, child, inside⟩ := List.mem_flatMap.1 below
        obtain ⟨q, checked, -⟩ := Shape.visitAt_ok h child
        exact ih c child checked m inside

/-- What the check is for. -/
theorem check_legal {body : Node} {handlersMove : Bool} (h : body.check handlersMove = .ok ()) :
    ∀ m ∈ body.walk, m.Legal :=
  checkAt_legal h

end Node

end Suspension
