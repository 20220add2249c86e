/-!
# JSON values

A value of the data format that trees are written in. The members of an object keep their order and
may repeat a name, because both show: subtrees are numbered in the order they stand in the text, and
a repeated name is an error of the reader of trees, not of the format.

Whole numbers keep their value. Any other number is kept as its text, since nothing that is read
from the format has a use for it.

`Json.fold` is the recursion over a value. Its function sees each array and object both as it is and
with the results for what it holds.
-/

namespace Suspension

/-- A value of the format. -/
inductive Json
  | null
  | bool (value : Bool)
  /-- A number written without fraction and exponent, other than a negative zero. -/
  | int (value : Int)
  /-- Any other number, by its text. -/
  | real (text : String)
  | str (value : String)
  | arr (items : List Json)
  | obj (members : List (String × Json))

namespace Json

variable {β : Type}

/-- What a recursion over values does at each of them. -/
structure Algebra (β : Type) where
  /-- A value that holds no others. -/
  leaf : Json → β
  /-- An array, given its items and their results. -/
  arr : List Json → List β → β
  /-- An object, given its members and their results. -/
  obj : List (String × Json) → List (String × β) → β

mutual

/-- The result of a value from the leaves up. -/
def fold (a : Algebra β) : Json → β
  | .null => a.leaf .null
  | .bool value => a.leaf (.bool value)
  | .int value => a.leaf (.int value)
  | .real text => a.leaf (.real text)
  | .str value => a.leaf (.str value)
  | .arr items => a.arr items (foldItems a items)
  | .obj members => a.obj members (foldMembers a members)

/-- The results of the items of an array. -/
def foldItems (a : Algebra β) : List Json → List β
  | [] => []
  | j :: js => fold a j :: foldItems a js

/-- The results of the members of an object, under their names. -/
def foldMembers (a : Algebra β) : List (String × Json) → List (String × β)
  | [] => []
  | (name, j) :: ms => (name, fold a j) :: foldMembers a ms

end

theorem foldItems_eq (a : Algebra β) (js : List Json) : foldItems a js = js.map (fold a) := by
  induction js with
  | nil => rfl
  | cons j js ih => rw [foldItems, ih, List.map_cons]

theorem foldMembers_eq (a : Algebra β) (ms : List (String × Json)) :
    foldMembers a ms = ms.map fun m ↦ (m.1, fold a m.2) := by
  induction ms with
  | nil => rfl
  | cons m ms ih => rw [foldMembers, ih, List.map_cons]

end Json

end Suspension
