import Suspension.Tree.Basic

/-!
# The dump of a tree

A dump is an indented listing in prefix form. A leaf, and an expression all of whose operands fit on
one line, stands on one line; every other node opens a parenthesis, puts each child on a line of its
own two columns further in, and closes the parenthesis after the last one.

Both forms come from one fold: a node's `Rendering` is its one-line form, if it has one, and its
lines at any indentation.
-/

namespace Suspension

/-- How dumps write an operator with two operands. -/
def BinaryOp.sign : BinaryOp → String
  | .eq => "=="
  | .ne => "!="
  | .lt => "<"
  | .le => "<="
  | .gt => ">"
  | .ge => ">="
  | .add => "+"
  | .sub => "-"
  | .mul => "*"
  | .div => "/"
  | .mod => "%"
  | .and => "&&"
  | .or => "||"

/-- How dumps write an operator with one operand. -/
def UnaryOp.sign : UnaryOp → String
  | .minus => "neg"
  | .not => "not"

/-- How dumps write a step of the awaiter protocol. -/
def AwaitStep.sign : AwaitStep → String
  | .acquire => "acquire"
  | .isCompleted => "is-completed"
  | .getResult => "get-result"

/-- The two forms of a node in a dump. -/
structure Rendering where
  /-- The form on one line. -/
  inline : Option String
  /-- The form that starts at a given column. -/
  lines : Nat → String

namespace Rendering

/-- Blanks up to a column. -/
def indent (column : Nat) : String :=
  String.ofList (List.replicate column ' ')

/-- Words between parentheses. -/
def form (words : List String) : String :=
  "(" ++ " ".intercalate words ++ ")"

/-- The form on one line: leaves have one, expressions where all their operands do, and nothing
else. -/
def inlineForm (layer : Shape (Option String)) : Option String :=
  match layer with
  | .var v => some v.text
  | .const value => some value.text
  | .defaultOf ty => some (form ["default", ty.name])
  | .label target => some (form ["label", target.text])
  | .goto target => some (form ["goto", target.text])
  | .binary op left right => do return form [op.sign, ← left, ← right]
  | .unary op operand => do return form [op.sign, ← operand]
  | .assign target value => do return form ["assign", target.text, ← value]
  | .call callee args => do return form ("call" :: callee :: (← args.mapM id))
  | .awaiter step operand => do return form [step.sign, ← operand]
  | .ret none => some "(return)"
  | .ret (some value) => do return form ["return", ← value]
  | .raise none => some "(rethrow)"
  | .raise (some value) => do return form ["throw", ← value]
  | _ => none

/-- Each child on a line of its own at a column. -/
def below (column : Nat) (children : List Rendering) : String :=
  String.join (children.map fun child ↦ "\n" ++ child.lines column)

/-- A part of a node with a heading, such as a clause or a case: the heading on a line of its own
at a column, then what stands under it. -/
def part (column : Nat) (heading : String) (content : String) : String :=
  "\n" ++ indent column ++ "(" ++ heading ++ content ++ ")"

/-- A clause: the variable it binds, the filter under a heading of its own, and the body. -/
def clause (column : Nat) (c : Clause Rendering) : String :=
  let heading := match c.binder with
    | some v => "catch " ++ v.text
    | none => "catch"
  let filter := match c.filter with
    | some filter => part (column + 2) "when" (below (column + 4) [filter])
    | none => ""
  part column heading (filter ++ below (column + 2) [c.body])

/-- A case: the values it tests for, and the body. -/
def case (column : Nat) (c : Case Rendering) : String :=
  part column ("case " ++ " ".intercalate (c.tests.map fun t ↦ toString t.toInt))
    (below (column + 2) [c.body])

/-- A child under a heading, if it is there. -/
def headed (column : Nat) (heading : String) : Option Rendering → String
  | some child => part column heading (below (column + 2) [child])
  | none => ""

/-- What stands between the parentheses of a form with several lines, its children at a column. -/
def content (column : Nat) : Shape Rendering → String
  | .block declared statements =>
    let names := if declared.isEmpty then ""
      else " [" ++ " ".intercalate (declared.map Variable.text) ++ "]"
    "block" ++ names ++ below column statements
  | .await operand acquire result =>
    let via := match acquire with
      | some name => " via " ++ name
      | none => ""
    "await " ++ result.name ++ via ++ below column [operand]
  | .region body clauses cleanup fault =>
    "try" ++ below column [body] ++ String.join (clauses.map (clause column)) ++
      headed column "finally" cleanup ++ headed column "fault" fault
  | .loop body breakLabel continueLabel =>
    let named (word : String) : Option Label → String
      | some l => " " ++ word ++ "=" ++ l.text
      | none => ""
    "loop" ++ named "break" breakLabel ++ named "continue" continueLabel ++ below column [body]
  | .switch value cases otherwise =>
    "switch" ++ below column [value] ++ String.join (cases.map (case column)) ++
      headed column "default" otherwise
  | .branch test yes no => "if" ++ below column (test :: yes :: no.toList)
  | .lock guard body => "lock" ++ below column [guard, body]
  | .assign target value => "assign " ++ target.text ++ below column [value]
  | .call callee args => "call " ++ callee ++ below column args
  | .binary op left right => "binary " ++ op.sign ++ below column [left, right]
  | .unary _ operand => "unary" ++ below column [operand]
  | .awaiter _ operand => "awaiter" ++ below column [operand]
  | .ret value => "return" ++ below column value.toList
  | .raise value => "throw" ++ below column value.toList
  | .label _ => "label"
  | .goto _ => "goto"
  | .var _ => "variable"
  | .const _ => "constant"
  | .defaultOf _ => "default"

/-- The rendering of a node from those of its children. -/
def ofLayer (layer : Shape Rendering) : Rendering :=
  match inlineForm (layer.map Rendering.inline) with
  | some text => ⟨some text, fun column ↦ indent column ++ text⟩
  | none => ⟨none, fun column ↦ indent column ++ "(" ++ content (column + 2) layer ++ ")"⟩

end Rendering

/-- The dump of a tree. -/
def Node.dump (n : Node) : String :=
  (n.fold fun _ layer ↦ Rendering.ofLayer layer).lines 0

end Suspension
