import Suspension.Tree.Shape

/-!
# The written format of trees

In the written format a tree is a value in which every node, clause, case, variable and label is a
*record*: fields with fixed names in a fixed order. This module holds the format as data, for the
reader and the writer to share: what each field of each record is called, what it holds, and whether
it may be left out.

`Row` is the type of a record's contents, one component for each field. `Shape.row` takes a layer
apart and `Shape.ofRow` puts it together again; `Shape.ofRow_row` says that nothing is lost between
them.
-/

namespace Suspension

namespace Format

/-- What a field holds one of, or none of, or a list of. -/
inductive Base
  | node | clause | case | var | label | ty | binaryOp | unaryOp | step | literal
  /-- A text. -/
  | text
  /-- The number of a symbol. -/
  | symbol
  /-- A value that a case tests for. -/
  | int
  deriving DecidableEq, Repr

/-- The contents of a base, in a tree whose nodes are represented by `α`. -/
def Base.Carrier (α : Type) : Base → Type
  | .node => α
  | .clause => Clause α
  | .case => Case α
  | .var => Variable
  | .label => Label
  | .ty => Ty
  | .binaryOp => BinaryOp
  | .unaryOp => UnaryOp
  | .step => AwaitStep
  | .literal => Literal
  | .text => String
  | .symbol => SymbolId
  | .int => Int64

/-- What a field holds. -/
inductive Content
  | one (b : Base)
  | option (b : Base)
  | list (b : Base)
  deriving DecidableEq, Repr

/-- The contents of a field. -/
def Content.Carrier (α : Type) : Content → Type
  | .one b => b.Carrier α
  | .option b => Option (b.Carrier α)
  | .list b => List (b.Carrier α)

/-- Whether a field has to be there. -/
inductive Presence
  /-- Always. -/
  | required
  /-- Only where the record is written as a list of its fields. -/
  | placed
  /-- Nowhere: a field that is left out is absent, empty, or of the unit type. -/
  | optional
  deriving DecidableEq, Repr

/-- A field of a record. -/
structure Field where
  name : String
  content : Content
  presence : Presence := .required
  deriving DecidableEq, Repr

/-- What a field that is left out holds, if there is a natural choice. -/
def Content.default? (α : Type) : (c : Content) → Option (c.Carrier α)
  | .one .ty => some Ty.unit
  | .one _ => none
  | .option _ => some none
  | .list _ => some []

/-- The contents of a record, field by field. -/
def Row (α : Type) : List Field → Type
  | [] => Unit
  | f :: fs => f.content.Carrier α × Row α fs

end Format

open Format

namespace Kind

/-- The fields of a node of a given form, in the order they are written. -/
def fields : Kind → List Field
  | .block => [⟨"variables", .list .var, .optional⟩, ⟨"statements", .list .node, .required⟩]
  | .await => [⟨"operand", .one .node, .required⟩, ⟨"acquire", .option .text, .optional⟩,
      ⟨"result", .one .ty, .optional⟩]
  | .awaiter => [⟨"step", .one .step, .required⟩, ⟨"operand", .one .node, .required⟩]
  | .region => [⟨"body", .one .node, .required⟩, ⟨"handlers", .list .clause, .optional⟩,
      ⟨"finally", .option .node, .optional⟩, ⟨"fault", .option .node, .optional⟩]
  | .loop => [⟨"body", .one .node, .required⟩, ⟨"break_label", .option .label, .optional⟩,
      ⟨"continue_label", .option .label, .optional⟩]
  | .label => [⟨"target", .one .label, .required⟩]
  | .goto => [⟨"target", .one .label, .required⟩]
  | .switch => [⟨"value", .one .node, .required⟩, ⟨"cases", .list .case, .required⟩,
      ⟨"default", .option .node, .optional⟩]
  | .branch => [⟨"test", .one .node, .required⟩, ⟨"then", .one .node, .required⟩,
      ⟨"otherwise", .option .node, .optional⟩]
  | .lock => [⟨"guard", .one .node, .required⟩, ⟨"body", .one .node, .required⟩]
  | .ret => [⟨"value", .option .node, .optional⟩]
  | .raise => [⟨"value", .option .node, .optional⟩]
  | .assign => [⟨"target", .one .var, .required⟩, ⟨"value", .one .node, .required⟩]
  | .binary => [⟨"op", .one .binaryOp, .required⟩, ⟨"left", .one .node, .required⟩,
      ⟨"right", .one .node, .required⟩]
  | .unary => [⟨"op", .one .unaryOp, .required⟩, ⟨"operand", .one .node, .required⟩]
  | .call => [⟨"callee", .one .text, .required⟩, ⟨"args", .list .node, .optional⟩]
  | .var => [⟨"variable", .one .var, .required⟩]
  | .const => [⟨"value", .one .literal, .required⟩]
  | .defaultOf => [⟨"ty", .one .ty, .required⟩]

end Kind

namespace Format

/-- The fields of a clause. -/
def clauseFields : List Field :=
  [⟨"variable", .option .var, .placed⟩, ⟨"filter", .option .node, .placed⟩,
    ⟨"body", .one .node, .required⟩]

/-- The fields of a case. -/
def caseFields : List Field :=
  [⟨"tests", .list .int, .required⟩, ⟨"body", .one .node, .required⟩]

/-- The fields of a variable. -/
def variableFields : List Field :=
  [⟨"id", .one .symbol, .required⟩, ⟨"name", .one .text, .required⟩, ⟨"ty", .one .ty, .optional⟩]

/-- The fields of a label. -/
def labelFields : List Field :=
  [⟨"id", .one .symbol, .required⟩, ⟨"name", .one .text, .required⟩]

end Format

namespace Shape

variable {α : Type}

/-- The contents of a layer's record. -/
def row : (s : Shape α) → Row α s.kind.fields
  | .block declared statements => (declared, statements, ())
  | .await operand acquire result => (operand, acquire, result, ())
  | .awaiter step operand => (step, operand, ())
  | .region body clauses cleanup fault => (body, clauses, cleanup, fault, ())
  | .loop body breakLabel continueLabel => (body, breakLabel, continueLabel, ())
  | .label target => (target, ())
  | .goto target => (target, ())
  | .switch value cases otherwise => (value, cases, otherwise, ())
  | .branch test yes no => (test, yes, no, ())
  | .lock guard body => (guard, body, ())
  | .ret value => (value, ())
  | .raise value => (value, ())
  | .assign target value => (target, value, ())
  | .binary op left right => (op, left, right, ())
  | .unary op operand => (op, operand, ())
  | .call callee args => (callee, args, ())
  | .var source => (source, ())
  | .const value => (value, ())
  | .defaultOf ty => (ty, ())

/-- The layer with given contents of its record. -/
def ofRow : (k : Kind) → Row α k.fields → Shape α
  | .block, (declared, statements, ()) => .block declared statements
  | .await, (operand, acquire, result, ()) => .await operand acquire result
  | .awaiter, (step, operand, ()) => .awaiter step operand
  | .region, (body, clauses, cleanup, fault, ()) => .region body clauses cleanup fault
  | .loop, (body, breakLabel, continueLabel, ()) => .loop body breakLabel continueLabel
  | .label, (target, ()) => .label target
  | .goto, (target, ()) => .goto target
  | .switch, (value, cases, otherwise, ()) => .switch value cases otherwise
  | .branch, (test, yes, no, ()) => .branch test yes no
  | .lock, (guard, body, ()) => .lock guard body
  | .ret, (value, ()) => .ret value
  | .raise, (value, ()) => .raise value
  | .assign, (target, value, ()) => .assign target value
  | .binary, (op, left, right, ()) => .binary op left right
  | .unary, (op, operand, ()) => .unary op operand
  | .call, (callee, args, ()) => .call callee args
  | .var, (source, ()) => .var source
  | .const, (value, ()) => .const value
  | .defaultOf, (ty, ()) => .defaultOf ty

/-- A layer is what its record says. -/
theorem ofRow_row (s : Shape α) : ofRow s.kind s.row = s := by
  cases s <;> rfl

end Shape

namespace Format

variable {α : Type}

/-- The contents of a clause's record. -/
def clauseRow (c : Clause α) : Row α clauseFields :=
  (c.binder, c.filter, c.body, ())

/-- The clause with given contents. -/
def clauseOfRow : Row α clauseFields → Clause α
  | (binder, filter, body, ()) => ⟨binder, filter, body⟩

/-- The contents of a case's record. -/
def caseRow (c : Case α) : Row α caseFields :=
  (c.tests, c.body, ())

/-- The case with given contents. -/
def caseOfRow : Row α caseFields → Case α
  | (tests, body, ()) => ⟨tests, body⟩

/-- The contents of a variable's record. -/
def variableRow (v : Variable) : Row α variableFields :=
  (v.id, v.name, v.ty, ())

/-- The variable with given contents. -/
def variableOfRow : Row α variableFields → Variable
  | (id, name, ty, ()) => ⟨id, name, ty⟩

/-- The contents of a label's record. -/
def labelRow (l : Label) : Row α labelFields :=
  (l.id, l.name, ())

/-- The label with given contents. -/
def labelOfRow : Row α labelFields → Label
  | (id, name, ()) => ⟨id, name⟩

/-! ### Words

Types, operators and steps are written as words. -/

/-- Every type. -/
def types : List Ty :=
  [.unit, .int, .bool, .str, .any]

/-- The word for an operator with two operands. -/
def binaryWord : BinaryOp → String
  | .eq => "eq"
  | .ne => "ne"
  | .lt => "lt"
  | .le => "le"
  | .gt => "gt"
  | .ge => "ge"
  | .add => "add"
  | .sub => "sub"
  | .mul => "mul"
  | .div => "div"
  | .mod => "mod"
  | .and => "and"
  | .or => "or"

/-- Every operator with two operands. -/
def binaryOps : List BinaryOp :=
  [.eq, .ne, .lt, .le, .gt, .ge, .add, .sub, .mul, .div, .mod, .and, .or]

/-- The word for an operator with one operand. -/
def unaryWord : UnaryOp → String
  | .minus => "minus"
  | .not => "not"

/-- Every operator with one operand. -/
def unaryOps : List UnaryOp :=
  [.minus, .not]

/-- The word for a step of the awaiter protocol. -/
def stepWord : AwaitStep → String
  | .acquire => "acquire"
  | .isCompleted => "is_completed"
  | .getResult => "get_result"

/-- Every step of the awaiter protocol. -/
def steps : List AwaitStep :=
  [.acquire, .isCompleted, .getResult]

end Format

end Suspension
