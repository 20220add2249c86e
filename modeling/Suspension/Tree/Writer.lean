import Suspension.Json.Printer
import Suspension.Tree.Basic
import Suspension.Tree.Format

/-!
# Writing trees

A node is written as an object: its form under the name `node`, then its fields in order. Nothing is
left out, so an absent part is a null and an empty list an empty array, and the numbers of nodes do
not appear.
-/

namespace Suspension

namespace Format

/-- A constant: a word, or an object with the value under the name of its type. -/
def literalJson : Literal → Json
  | .null => .str "null"
  | .unit => .str "unit"
  | .bool value => .obj [("bool", .bool value)]
  | .int value => .obj [("int", .int value.toInt)]
  | .str value => .obj [("str", .str value)]

/-- A variable. -/
def variableJson (v : Variable) : Json :=
  .obj [("id", .int v.id.toNat), ("name", .str v.name), ("ty", .str v.ty.name)]

/-- A label. -/
def labelJson (l : Label) : Json :=
  .obj [("id", .int l.id.toNat), ("name", .str l.name)]

/-- An optional value, null where it is absent. -/
def optionJson {α : Type} (write : α → Json) : Option α → Json
  | none => .null
  | some a => write a

/-- A clause with its subtrees written already. -/
def clauseJson (c : Clause Json) : Json :=
  .obj [("variable", optionJson variableJson c.binder), ("filter", optionJson id c.filter),
    ("body", c.body)]

/-- A case with its body written already. -/
def caseJson (c : Case Json) : Json :=
  .obj [("tests", .arr (c.tests.map fun t ↦ .int t.toInt)), ("body", c.body)]

/-- What a base holds, with subtrees written already. -/
def Base.json : (b : Base) → b.Carrier Json → Json
  | .node, (j : Json) => j
  | .clause, c => clauseJson c
  | .case, c => caseJson c
  | .var, v => variableJson v
  | .label, l => labelJson l
  | .ty, (t : Ty) => .str t.name
  | .binaryOp, op => .str (binaryWord op)
  | .unaryOp, op => .str (unaryWord op)
  | .step, s => .str (stepWord s)
  | .literal, v => literalJson v
  | .text, (s : String) => .str s
  | .symbol, (n : SymbolId) => .int n.toNat
  | .int, (n : Int64) => .int n.toInt

/-- What a field holds. -/
def Content.json : (c : Content) → c.Carrier Json → Json
  | .one b, x => b.json x
  | .option b, x => optionJson b.json x
  | .list b, xs => .arr (List.map b.json xs)

/-- The members of a record. -/
def rowMembers : (fs : List Field) → Row Json fs → List (String × Json)
  | [], () => []
  | f :: fs, (x, row) => (f.name, f.content.json x) :: rowMembers fs row

end Format

open Format

/-- A layer whose children are written already. -/
def Shape.json (s : Shape Json) : Json :=
  .obj (("node", .str s.kind.tag) :: rowMembers s.kind.fields s.row)

/-- A tree as a value of the format. -/
def Node.toJson (n : Node) : Json :=
  n.fold fun _ layer ↦ layer.json

/-- The text of a tree. -/
def Node.write (n : Node) : String :=
  n.toJson.print

end Suspension
