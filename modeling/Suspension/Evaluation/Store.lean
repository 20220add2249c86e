import Suspension.Evaluation.Value

/-!
# Stores

A store gives some variables a value. What counts about it is its view, `Store.get?`: the lemmas say
what each operation does to the view, and nothing depends on the order of the slots.
-/

namespace Suspension

/-- The values of some variables. -/
structure Store where
  slots : List (SymbolId × Value) := []
  deriving Repr, Inhabited

namespace Store

/-- The value of a variable among slots. -/
def findSlot (id : SymbolId) : List (SymbolId × Value) → Option Value
  | [] => none
  | (k, v) :: slots => if id = k then some v else findSlot id slots

/-- The value of a variable, if it has a slot. -/
def get? (s : Store) (id : SymbolId) : Option Value :=
  findSlot id s.slots

/-- Whether a variable has a slot. -/
def contains (s : Store) (id : SymbolId) : Bool :=
  (s.get? id).isSome

/-- Gives a variable a value in a list of slots, in its old place if it has one. -/
def insertSlot (id : SymbolId) (value : Value) : List (SymbolId × Value) → List (SymbolId × Value)
  | [] => [(id, value)]
  | (k, v) :: slots =>
    if id = k then (id, value) :: slots else (k, v) :: insertSlot id value slots

/-- Gives a variable a value, and a slot if it has none. -/
def insert (s : Store) (id : SymbolId) (value : Value) : Store :=
  ⟨insertSlot id value s.slots⟩

/-- A store where each variable of a list has the value its type starts with. -/
def declare (s : Store) (vs : List Variable) : Store :=
  vs.foldl (fun s v ↦ s.insert v.id v.ty.defaultValue) s

@[simp] theorem get?_empty (id : SymbolId) : ({} : Store).get? id = none := rfl

@[simp] theorem get?_insert (s : Store) (i j : SymbolId) (value : Value) :
    (s.insert i value).get? j = if j = i then some value else s.get? j := by
  have go (slots : List (SymbolId × Value)) :
      findSlot j (insertSlot i value slots) = if j = i then some value else findSlot j slots := by
    induction slots with
    | nil => rfl
    | cons slot slots ih => grind [insertSlot, findSlot]
  exact go s.slots

theorem contains_insert (s : Store) (i j : SymbolId) (value : Value) :
    (s.insert i value).contains j = (j == i || s.contains j) := by
  by_cases h : j = i <;> simp [contains, h]

theorem contains_insert_of {s : Store} {i j : SymbolId} {value : Value}
    (h : s.contains j = true) : (s.insert i value).contains j = true := by
  rw [contains_insert, h, Bool.or_true]

theorem declare_cons (s : Store) (v : Variable) (vs : List Variable) :
    s.declare (v :: vs) = (s.insert v.id v.ty.defaultValue).declare vs := rfl

/-- Other variables keep their values. -/
theorem get?_declare_of_notMem {vs : List Variable} {id : SymbolId}
    (h : id ∉ vs.map Variable.id) (s : Store) : (s.declare vs).get? id = s.get? id := by
  induction vs generalizing s with
  | nil => rfl
  | cons v vs ih =>
    rw [List.map_cons, List.mem_cons, not_or] at h
    rw [declare_cons, ih h.2, get?_insert, if_neg h.1]

/-- What a variable holds when it is declared. -/
theorem get?_declare_of_mem {vs : List Variable} {id : SymbolId} (h : id ∈ vs.map Variable.id) :
    ∃ value, ∀ s : Store, (s.declare vs).get? id = some value := by
  induction vs with
  | nil => cases h
  | cons v vs ih =>
    by_cases later : id ∈ vs.map Variable.id
    · obtain ⟨value, found⟩ := ih later
      exact ⟨value, fun s ↦ found _⟩
    · have here : id = v.id := (List.mem_cons.1 h).resolve_right later
      refine ⟨v.ty.defaultValue, fun s ↦ ?_⟩
      rw [declare_cons, get?_declare_of_notMem later, get?_insert, if_pos here]

/-- A store in which variables are declared has slots for them, and those it had. -/
theorem contains_declare {s : Store} {vs : List Variable} {id : SymbolId}
    (h : id ∈ vs.map Variable.id ∨ s.contains id = true) :
    (s.declare vs).contains id = true := by
  by_cases member : id ∈ vs.map Variable.id
  · obtain ⟨value, found⟩ := get?_declare_of_mem member
    rw [contains, found]
    rfl
  · rw [contains, get?_declare_of_notMem member]
    exact h.resolve_left member

end Store

end Suspension
