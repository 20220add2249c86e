import Suspension.Tree.Basic

/-!
# Error reports

Everything that can go wrong is a cause of its own type. A report is what all of them come to: how
bad it is, which part found it, at which node, and a sentence. The two text forms of a report follow
from these four.
-/

namespace Suspension

/-- How bad an error is. -/
inductive Severity
  /-- The input is at fault. -/
  | error
  /-- Going on would make no sense. -/
  | critical
  deriving DecidableEq, Repr

/-- The word for a severity. -/
def Severity.name : Severity → String
  | .error => "ERROR"
  | .critical => "CRITICAL"

/-- An error as it is reported. -/
structure Report where
  severity : Severity
  /-- The part that found the error. -/
  issuer : String
  /-- The node it was found at, if it has a place. -/
  node : Option NodeId
  message : String
  deriving DecidableEq, Repr

namespace Report

/-- How texts refer to a node. -/
def nodeText (id : NodeId) : String :=
  "node#" ++ toString id

/-- The sentence, and the place where there is one. -/
def sentence (r : Report) : String :=
  match r.node with
  | some id => r.message ++ " (at " ++ nodeText id ++ ")"
  | none => r.message

/-- The whole report on one line, with a phrase for an error without a place. -/
def line (placeless : String) (r : Report) : String :=
  let place := match r.node with
    | some id => nodeText id
    | none => placeless
  " | ".intercalate ["RESUMABLE", r.severity.name, r.issuer, place, r.message]

/-- The line that is shown to a user. -/
def text (r : Report) : String :=
  r.line "unknown node"

/-- The line that stands for the error inside a program. -/
def trace (r : Report) : String :=
  r.line "node:none"

end Report

end Suspension
