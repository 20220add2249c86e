import Suspension.Symbol

/-!
# Values and futures

A value is what a body computes with. Every value but one is plain data; a future is a reference to
a cell that changes while the world goes on, so the cells live in a heap, `Futures`, and a value
holds the place of its cell. Two futures are equal when they are the same cell.

A cell counts how often it still has to be advanced and knows its outcome from the start, but shows
it only when the count is zero.
-/

namespace Suspension

/-- A value. -/
inductive Value
  | unit
  | null
  | int (n : Int64)
  | bool (b : Bool)
  | str (s : String)
  /-- An exception with a message. -/
  | error (message : String)
  /-- The future in a cell of the heap. -/
  | future (cell : Nat)
  deriving DecidableEq, Repr, Inhabited

/-- What a value is, apart from which one of its kind. -/
inductive ValueType
  | unit | null | int | bool | str | error | future
  deriving DecidableEq, Repr

/-- The word for a kind of value. -/
def ValueType.name : ValueType → String
  | .unit => "unit"
  | .null => "null"
  | .int => "int"
  | .bool => "bool"
  | .str => "str"
  | .error => "error"
  | .future => "future"

/-- The value of a constant. -/
def Literal.value : Literal → Value
  | .null => .null
  | .unit => .unit
  | .bool b => .bool b
  | .int n => .int n
  | .str s => .str s

/-- What a variable of the type holds before anything is assigned to it. -/
def Ty.defaultValue (ty : Ty) : Value :=
  ty.default.value

namespace Value

/-- The kind of a value. -/
def type : Value → ValueType
  | unit => .unit
  | null => .null
  | int _ => .int
  | bool _ => .bool
  | str _ => .str
  | error _ => .error
  | future _ => .future

/-- A value as a condition: numbers other than zero are true, and what holds nothing is false. -/
def asBool? : Value → Option Bool
  | bool b => some b
  | int n => some (n != 0)
  | null => some false
  | unit => some false
  | _ => none

/-- A value as a number. -/
def asInt? : Value → Option Int64
  | int n => some n
  | bool b => some (if b then 1 else 0)
  | _ => none

end Value

/-- The cell of a future. -/
structure Future where
  /-- How often it has to be advanced until it is completed. -/
  polls : UInt32
  /-- The value, or the exception, that it completes with. -/
  outcome : Except Value Value

namespace Future

/-- Whether the outcome may be seen. -/
def isCompleted (f : Future) : Bool :=
  f.polls == 0

/-- Some steps towards completion. A completed future stays as it is. -/
def advance (times : Nat) (f : Future) : Future :=
  { f with polls := UInt32.ofNat (f.polls.toNat - times) }

/-- As many steps as it takes. -/
def complete (f : Future) : Future :=
  { f with polls := 0 }

/-- The outcome, once the future is completed. -/
def outcome? (f : Future) : Option (Except Value Value) :=
  if f.isCompleted then some f.outcome else none

end Future

/-- The cells of all futures, in the order they were made. -/
abbrev Futures := Array Future

/-- A value as it is printed. A future shows only whether it is completed. -/
def Value.text (futures : Futures) : Value → String
  | .unit => "()"
  | .null => "null"
  | .int n => toString n.toInt
  | .bool b => toString b
  | .str s => s
  | .error message => "error(" ++ message ++ ")"
  | .future cell =>
    if futures[cell]?.any Future.isCompleted then "<future completed>" else "<future pending>"

end Suspension
