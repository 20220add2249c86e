import Suspension.Text.Quoted

/-!
# Symbols, types and literals

Variables and labels are symbols: a number that identifies them and a name that only shows in dumps.
Two symbols are the same when their numbers are, whatever their names and types, so identity is the
function `same` and the structural equality of the records is reserved for trees read from text.

Numbers of symbols are 64-bit words, because a text may use any of them and the supply of fresh ones
wraps around.
-/

namespace Suspension

/-- The number that identifies a variable or a label. -/
abbrev SymbolId := UInt64

/-- The static type of a variable, or of what a suspend point yields. -/
inductive Ty
  | unit | int | bool | str | any
  deriving DecidableEq, Repr, Inhabited

/-- The word for a type in every text form. -/
def Ty.name : Ty → String
  | .unit => "unit"
  | .int => "int"
  | .bool => "bool"
  | .str => "str"
  | .any => "any"

/-- A constant of the tree language. -/
inductive Literal
  | null
  | unit
  | bool (value : Bool)
  | int (value : Int64)
  | str (value : String)
  deriving DecidableEq, Repr, Inhabited

/-- The constant that a variable of the type holds before anything is assigned to it. -/
def Ty.default : Ty → Literal
  | .unit => .unit
  | .int => .int 0
  | .bool => .bool false
  | .str => .str ""
  | .any => .null

/-- A constant as a dump shows it: texts quoted, everything else in its plain form. -/
def Literal.text : Literal → String
  | .null => "null"
  | .unit => "()"
  | .bool b => toString b
  | .int n => toString n.toInt
  | .str s => Text.quoted s

/-- A variable: a slot for a value. -/
structure Variable where
  /-- What identifies the variable. -/
  id : SymbolId
  /-- How dumps show it. -/
  name : String
  /-- What it holds before its first assignment follows from its type. -/
  ty : Ty := .unit
  deriving DecidableEq, Repr, Inhabited

/-- A label: a place that control may jump to. -/
structure Label where
  /-- What identifies the label. -/
  id : SymbolId
  /-- How dumps show it. -/
  name : String
  deriving DecidableEq, Repr, Inhabited

/-- The name of a symbol followed by its number, which tells apart symbols of one name. -/
def symbolText (name : String) (id : SymbolId) : String :=
  name ++ "#" ++ toString id.toNat

/-- A variable as texts show it. -/
def Variable.text (v : Variable) : String :=
  symbolText v.name v.id

/-- A label as texts show it. -/
def Label.text (l : Label) : String :=
  symbolText l.name l.id

/-- Whether two variables are one and the same slot. -/
def Variable.same (v w : Variable) : Bool :=
  v.id == w.id

/-- Whether two labels are one and the same place. -/
def Label.same (l m : Label) : Bool :=
  l.id == m.id

end Suspension
