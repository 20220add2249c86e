import Suspension.Proofs.Preparation.Occurrences

/-!
# Where bare rethrows stand

A bare rethrow raises the exception that is being handled, so it has to stand in the body of a
clause. A filter runs before its clause handles anything, so a rethrow in it refers to the exception
of a clause further out. When that one is moved behind its region, nothing is handled around the
filter any more, and the reduction leaves filters as they are.

So `Node.Handled` counts a filter as a place where nothing is handled, and asks that every bare
rethrow stands in the body of a clause with no filter in between. A body that is accepted, and whose
filters hold no bare rethrow, is like that (`Node.handled_of_check`).
-/

namespace Suspension

/-- Whether an exception is being handled at a place, if one is around it. -/
def Place.handles (around : Bool) : Place → Bool
  | .handler => true
  | .filter => false
  | _ => around

/-- Where an exception is handled, one is handled in every place. -/
theorem Place.handles_mono {b b' : Bool} (le : b = true → b' = true) (place : Place)
    (h : place.handles b = true) : place.handles b' = true := by
  cases place <;> first | exact le h | exact h

/-- An exception is being handled at every bare rethrow of a tree, if one is around the tree. -/
def Node.Handled (around : Bool) (n : Node) : Prop :=
  ∀ o ∈ n.occurrences, o.node.shape = .raise none →
    o.above.foldl (fun b place ↦ place.handles b) around = true

namespace Shape

variable {α β : Type}

/-- Whether a layer is neither a region nor a bare rethrow: it handles no exception, and raises none
again. -/
def isCalm : Shape α → Bool
  | .region .. => false
  | .raise none => false
  | _ => true

theorem isCalm_map (f : α → β) (sh : Shape α) : (sh.map f).isCalm = sh.isCalm := by
  cases sh with
  | raise value => cases value <;> rfl
  | _ => rfl

theorem map_eq_raise_none {f : α → β} {sh : Shape α} :
    sh.map f = .raise none ↔ sh = .raise none := by
  cases sh <;> simp [map]

/-- What stands in a place is a child. -/
theorem mem_children_of_placed {sh : Shape α} {place : Place} {a : α}
    (h : (place, a) ∈ sh.placed) : a ∈ sh.children :=
  sh.map_snd_placed ▸ List.mem_map_of_mem (f := Prod.snd) h

end Shape

namespace Node

variable {b b' : Bool} {i j : NodeId} {sh : Shape Node}

/-- A tree is handled if it is no rethrow out of place and its children are handled where they
stand. -/
theorem handled_mk : Handled b ⟨i, sh⟩ ↔ (sh = .raise none → b = true) ∧
    ∀ x ∈ sh.placed, x.2.Handled (x.1.handles b) := by
  rw [Handled, occurrences_eq, List.forall_mem_cons]
  refine and_congr_right fun _ ↦ ⟨fun h x child o member ↦ ?_, fun h o member ↦ ?_⟩
  · exact h (o.beneath x.1) (List.mem_flatMap.2 ⟨x, child, List.mem_map_of_mem member⟩)
  · obtain ⟨x, child, member⟩ := List.mem_flatMap.1 member
    obtain ⟨o, inside, rfl⟩ := List.mem_map.1 member
    exact h x child o inside

/-- The number of a node does not matter. -/
theorem Handled.renumber (h : Handled b ⟨i, sh⟩) : Handled b ⟨j, sh⟩ :=
  handled_mk.2 (handled_mk.1 h)

/-- What is handled without an exception around is handled with one. -/
theorem Handled.mono {n : Node} (h : n.Handled b) (le : b = true → b' = true) : n.Handled b' := by
  induction n using Node.induction generalizing b b' with
  | step n ih =>
    obtain ⟨i, sh⟩ := n
    obtain ⟨own, below⟩ := handled_mk.1 h
    exact handled_mk.2 ⟨fun bare ↦ le (own bare), fun x child ↦
      ih x.2 (Shape.mem_children_of_placed child) (below x child) (x.1.handles_mono le)⟩

/-- Where nothing needs to be handled around a tree, something may be. -/
theorem Handled.anywhere {n : Node} (h : n.Handled false) (b : Bool) : n.Handled b :=
  h.mono nofun

/-- The children of a calm layer stand where the layer stands. -/
theorem handled_calm (calm : sh.isCalm = true) :
    Handled b ⟨i, sh⟩ ↔ ∀ c ∈ sh.children, c.Handled b := by
  have places : ∀ x ∈ sh.placed, x.1.handles b = b := by
    cases sh with
    | region => cases calm
    | _ => simp [Shape.placed, Place.handles]
  rw [handled_mk, ← sh.map_snd_placed, List.forall_mem_map]
  refine (and_iff_right fun bare ↦ ?_).trans (forall₂_congr fun x child ↦ by rw [places x child])
  rw [bare] at calm
  cases calm

/-- A layer in which no exception is handled is handled if its children are. -/
theorem Handled.calm (calm : sh.isCalm = true) (below : ∀ c ∈ sh.children, c.Handled b) :
    Handled b ⟨i, sh⟩ :=
  (handled_calm calm).2 below

/-- The children of such a layer are handled if it is. -/
theorem Handled.child (h : Handled b ⟨i, sh⟩) (calm : sh.isCalm = true) :
    ∀ c ∈ sh.children, c.Handled b :=
  (handled_calm calm).1 h

/-- A calm layer without children. -/
theorem Handled.leaf (calm : sh.isCalm = true) (none : sh.children = []) : Handled b ⟨i, sh⟩ :=
  .calm calm (none ▸ List.forall_mem_nil _)

/-- In a region, the bodies of clauses are handled and their filters are not. -/
theorem handled_region {body : Node} {cs : List (Clause Node)} {cleanup fault : Option Node} :
    Handled b ⟨i, .region body cs cleanup fault⟩ ↔ body.Handled b ∧
      (∀ c ∈ cs, (∀ filter ∈ c.filter, filter.Handled false) ∧ c.body.Handled true) ∧
        ∀ part ∈ cleanup.toList ++ fault.toList, part.Handled b := by
  simp only [handled_mk, Shape.placed, List.cons_append, List.forall_mem_cons,
    List.forall_mem_append, List.forall_mem_map, List.forall_mem_flatMap, List.not_mem_nil,
    Option.mem_toList, Option.mem_def, Place.handles, reduceCtorEq, false_implies, implies_true,
    true_and, and_true]

/-- Rebuilding the children of a layer where they stand. -/
theorem Handled.rebuilt {α : Type} {x : Shape α} {f g : α → Node} (h : Handled b ⟨i, x.map f⟩)
    (below : ∀ y ∈ x.children, ∀ b, (f y).Handled b → (g y).Handled b) :
    Handled b ⟨j, x.map g⟩ := by
  rw [handled_mk, Shape.map_eq_raise_none, Shape.placed_map, List.forall_mem_map] at h ⊢
  exact ⟨h.1, fun y child ↦ below y.2 (Shape.mem_children_of_placed child) _ (h.2 y child)⟩

/-- In a body that is accepted, and has no bare rethrow in a filter, every bare rethrow has an
exception to raise. -/
theorem handled_of_check {body : Node} {handlersMove : Bool}
    (checked : body.check handlersMove = .ok ())
    (filters : ∀ o ∈ body.occurrences, o.node.shape = .raise none → .filter ∉ o.above) :
    body.Handled false := by
  intro o member bare
  have handler : .handler ∈ o.above := by
    by_contra noHandler
    exact check_ok_iff.1 checked o member _ (.rethrow bare noHandler)
  have noFilter := filters o member bare
  suffices ∀ (b : Bool) (places : List Place), .filter ∉ places →
      (b = true ∨ .handler ∈ places) →
        places.foldl (fun b place ↦ place.handles b) b = true from this _ _ noFilter (.inr handler)
  intro b places
  induction places generalizing b with
  | nil => exact fun _ known ↦ known.resolve_right List.not_mem_nil
  | cons place places ih =>
    intro noFilter known
    rw [List.mem_cons, not_or] at noFilter
    refine ih _ noFilter.2 ?_
    rcases known with around | inside
    · refine .inl ?_
      cases place with
      | filter => exact absurd rfl noFilter.1
      | handler => rfl
      | _ => exact around
    · rcases List.mem_cons.1 inside with rfl | inside
      · exact .inl rfl
      · exact .inr inside

end Node

end Suspension
