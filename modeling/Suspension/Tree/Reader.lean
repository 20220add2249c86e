import Suspension.Json.Reader
import Suspension.Supply
import Suspension.Tree.Format
import Suspension.Tree.Query

/-!
# Reading trees

A tree is read from a value of the format. A record may be an object, with its fields in any order
and with other members that are ignored, or an array of its fields in their own order. A node has a
form before its fields: under the name `node`, or as the first item. The form of the outermost node
is always a word; a node within another may also give its form by its place in the list of forms.

A node takes its number when everything beneath it is read, and subtrees are read in the order they
stand in the text. That is why records are read member by member into `Slots`, not field by field.

The recursion is `Json.fold`: each value is turned into a `Reading`, which says what the value is
when it is read as one of the bases of the format.
-/

namespace Suspension

namespace Format

/-- Computations that read part of a tree. Reading either succeeds or fails; there are no other
errors, and what a failed attempt has numbered is forgotten. -/
abbrev Read := StateT Supply Option

/-- Building nodes never fails. -/
def Read.ofBuild {α : Type} (b : Build α) : Read α :=
  fun s ↦ some (b s)

/-- Whether a value says nothing: null, or an object without members. -/
def isVoid : Json → Bool
  | .null => true
  | .obj [] => true
  | _ => false

/-- The word that a value stands for: a string, or an object with that one name and no content. -/
def word? : Json → Option String
  | .str s => some s
  | .obj [(s, j)] => if isVoid j then some s else none
  | _ => none

/-- The member of a list that a value names. -/
def named? {ε : Type} (all : List ε) (spelling : ε → String) (j : Json) : Option ε := do
  let s ← word? j
  all.find? fun e ↦ spelling e == s

/-- A 64-bit signed number. -/
def int? : Json → Option Int64
  | .int n =>
    if Int64.minValue.toInt ≤ n ∧ n ≤ Int64.maxValue.toInt then some (Int64.ofInt n) else none
  | _ => none

/-- The number of a symbol. -/
def symbol? : Json → Option SymbolId
  | .int n => if 0 ≤ n ∧ n < UInt64.size then some (UInt64.ofNat n.toNat) else none
  | _ => none

/-- A text. -/
def text? : Json → Option String
  | .str s => some s
  | _ => none

/-- A constant. -/
def literal? (j : Json) : Option Literal :=
  match j with
  | .obj [("bool", .bool value)] => some (.bool value)
  | .obj [("int", j)] => (int? j).map .int
  | .obj [("str", .str value)] => some (.str value)
  | j =>
    match word? j with
    | some "null" => some .null
    | some "unit" => some .unit
    | _ => none

/-! ### Records -/

/-- The fields of a record that have been read so far. -/
def Slots (α : Type) : List Field → Type
  | [] => Unit
  | f :: fs => Option (f.content.Carrier α) × Slots α fs

/-- No field read yet. -/
def Slots.empty (α : Type) : (fs : List Field) → Slots α fs
  | [] => ()
  | _ :: fs => (none, empty α fs)

/-- Reads the member `name` into its slot. A member that is no field is ignored, a field that has
been read before is refused. -/
def Slots.fill {α : Type} (name : String) (read : (c : Content) → Read (c.Carrier α)) :
    (fs : List Field) → Slots α fs → Read (Slots α fs)
  | [], () => pure ()
  | f :: fs, (slot, slots) =>
    if f.name = name then
      match slot with
      | some _ => failure
      | none => do return (some (← read f.content), slots)
    else do return (slot, ← fill name read fs slots)

/-- What a field holds that was not read: fields that may be left out have a default. `placed` says
whether the record is written as a list of its fields. -/
def Field.leftOut? (α : Type) (placed : Bool) (f : Field) : Option (f.content.Carrier α) :=
  match f.presence with
  | .required => none
  | .placed => if placed then none else f.content.default? α
  | .optional => f.content.default? α

/-- The record, once every member has been read. -/
def Slots.close? {α : Type} : (fs : List Field) → Slots α fs → Option (Row α fs)
  | [], () => some ()
  | f :: fs, (slot, slots) => do
    let x ← slot <|> f.leftOut? α false
    return (x, ← close? fs slots)

/-! ### Readings -/

/-- What a value is when it is read as part of a tree. -/
structure Reading where
  /-- The value. -/
  json : Json
  /-- The value as one of a base. -/
  one : (b : Base) → Read (b.Carrier Node)
  /-- The value as a list. -/
  list : (b : Base) → Read (List (b.Carrier Node))

/-- A value as the contents of a field. -/
def Reading.content (r : Reading) : (c : Content) → Read (c.Carrier Node)
  | .one b => r.one b
  | .option b =>
    match r.json with
    | .null => pure none
    | _ => do return some (← r.one b)
  | .list b => r.list b

/-- A record that is written as an object. -/
def rowOfMembers (fs : List Field) (members : List (String × Reading)) : Read (Row Node fs) := do
  let slots ← members.foldlM (fun slots m ↦ Slots.fill m.1 m.2.content fs slots)
    (Slots.empty Node fs)
  slots.close? fs

/-- A record that is written as the list of its fields. Fields at the end may be missing if they may
be left out; there is nothing behind the last one. -/
def rowOfItems : (fs : List Field) → List Reading → Read (Row Node fs)
  | [], [] => pure ()
  | [], _ :: _ => failure
  | f :: fs, [] => do
    let x ← (f.leftOut? Node true : Option _)
    return (x, ← rowOfItems fs [])
  | f :: fs, r :: rs => do
    let x ← r.content f.content
    return (x, ← rowOfItems fs rs)

/-- What a record written in one of the two ways is, given how to read its fields. `form` reads the
form of a node and what is left of the record behind it. -/
def ofRecord {ρ : Type} (form : ρ → Option (Kind × ρ))
    (row : (fs : List Field) → ρ → Read (Row Node fs)) (record : ρ) (json : Json) :
    (b : Base) → Read (b.Carrier Node)
  | .node => do
    let (k, record) ← (form record : Option _)
    let shape := Shape.ofRow k (← row k.fields record)
    Read.ofBuild (Build.node shape)
  | .clause => clauseOfRow <$> row clauseFields record
  | .case => caseOfRow <$> row caseFields record
  | .var => variableOfRow <$> row variableFields record
  | .label => labelOfRow <$> row labelFields record
  | .ty => (named? types Ty.name json : Option Ty)
  | .binaryOp => (named? binaryOps binaryWord json : Option BinaryOp)
  | .unaryOp => (named? unaryOps unaryWord json : Option UnaryOp)
  | .step => (named? steps stepWord json : Option AwaitStep)
  | .literal => (literal? json : Option Literal)
  | .text => failure
  | .symbol => failure
  | .int => failure

/-- A value that is no record. -/
def ofLeaf (json : Json) : (b : Base) → Read (b.Carrier Node)
  | .ty => (named? types Ty.name json : Option Ty)
  | .binaryOp => (named? binaryOps binaryWord json : Option BinaryOp)
  | .unaryOp => (named? unaryOps unaryWord json : Option UnaryOp)
  | .step => (named? steps stepWord json : Option AwaitStep)
  | .literal => (literal? json : Option Literal)
  | .text => (text? json : Option String)
  | .symbol => (symbol? json : Option SymbolId)
  | .int => (int? json : Option Int64)
  | .node => failure
  | .clause => failure
  | .case => failure
  | .var => failure
  | .label => failure

/-- The form of a node by its word or its place. -/
def kind? : Json → Option Kind
  | .str s => Kind.all.find? fun k ↦ k.tag == s
  | .int n => if 0 ≤ n then Kind.all[n.toNat]? else none
  | _ => none

/-- The form among the members of an object. It has to be there once. -/
def kindOfMembers? (members : List (String × Reading)) : Option (Kind × List (String × Reading)) :=
  match members.partition fun m ↦ m.1 == "node" with
  | ([(_, r)], rest) => (kind? r.json).map fun k ↦ (k, rest)
  | _ => none

/-- The form as the first item of an array. -/
def kindOfItems? : List Reading → Option (Kind × List Reading)
  | [] => none
  | r :: rs => (kind? r.json).map fun k ↦ (k, rs)

/-- What each value is when it is read as part of a tree. -/
def reading : Json.Algebra Reading where
  leaf j := ⟨j, ofLeaf j, fun _ ↦ failure⟩
  arr items rs :=
    ⟨.arr items, ofRecord kindOfItems? rowOfItems rs (.arr items), fun b ↦ rs.mapM fun r ↦ r.one b⟩
  obj members rs :=
    ⟨.obj members, ofRecord kindOfMembers? rowOfMembers rs (.obj members), fun _ ↦ failure⟩

/-- Whether the outermost form of a written tree is a word. -/
def formIsWord : Json → Bool
  | .arr (.str _ :: _) => true
  | .obj members => members.all fun
    | ("node", .str _) => true
    | ("node", _) => false
    | _ => true
  | _ => false

end Format

open Format

/-- The tree that a value stands for. -/
def Node.ofJson (j : Json) : Read Node :=
  if formIsWord j then (j.fold reading).one .node else failure

/-- The tree that a text holds. Its symbols are taken: fresh ones get larger numbers. -/
def Node.read (text : String) : Read Node := do
  let j ← (Json.read? text : Option Json)
  let n ← Node.ofJson j
  Read.ofBuild (Build.reserveThrough n.maxSymbolId)
  return n

end Suspension
