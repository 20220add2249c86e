import Suspension.Tree.Basic

/-!
# Structural equality of trees

Two trees are alike when they have the same forms with the same data everywhere. The numbers of
nodes do not count, and a symbol counts by its own number only: names and types of variables are
left out. The comparison folds the first tree into a test for the second, so that each child becomes
the test for its counterpart.
-/

namespace Suspension

namespace Shape

variable {α : Type}

/-- Whether each test of a list accepts the element at its place, and the lengths agree. -/
def alikeList : List (α → Bool) → List α → Bool
  | [], [] => true
  | t :: ts, a :: as => t a && alikeList ts as
  | _, _ => false

/-- Whether a test and a value are both absent, or the one accepts the other. -/
def alikeOption : Option (α → Bool) → Option α → Bool
  | none, none => true
  | some t, some a => t a
  | _, _ => false

/-- Whether two lists of variables name the same slots in the same order. -/
def sameVariables (vs ws : List Variable) : Bool :=
  vs.map Variable.id == ws.map Variable.id

/-- Whether two optional labels name the same place. -/
def sameLabel (l m : Option Label) : Bool :=
  l.map Label.id == m.map Label.id

/-- Whether each clause test accepts the clause at its place. -/
def alikeClauses : List (Clause (α → Bool)) → List (Clause α) → Bool
  | [], [] => true
  | t :: ts, c :: cs =>
    t.binder.map Variable.id == c.binder.map Variable.id && alikeOption t.filter c.filter &&
      t.body c.body && alikeClauses ts cs
  | _, _ => false

/-- Whether each case test accepts the case at its place. -/
def alikeCases : List (Case (α → Bool)) → List (Case α) → Bool
  | [], [] => true
  | t :: ts, c :: cs => t.tests == c.tests && t.body c.body && alikeCases ts cs
  | _, _ => false

/-- Whether a layer of tests accepts a layer: the same form with the same data, each child accepted
by the test at its place. -/
def alike : Shape (α → Bool) → Shape α → Bool
  | .block vs ts, .block ws as => sameVariables vs ws && alikeList ts as
  | .await t acq r, .await a acq' r' => t a && acq == acq' && r == r'
  | .awaiter s t, .awaiter s' a => s == s' && t a
  | .region t ts tc tf, .region a cs c f =>
    t a && alikeClauses ts cs && alikeOption tc c && alikeOption tf f
  | .loop t b c, .loop a b' c' => t a && sameLabel b b' && sameLabel c c'
  | .label l, .label m => l.same m
  | .goto l, .goto m => l.same m
  | .switch t ts d, .switch a cs d' => t a && alikeCases ts cs && alikeOption d d'
  | .branch t y n, .branch a y' n' => t a && y y' && alikeOption n n'
  | .lock g b, .lock g' b' => g g' && b b'
  | .ret v, .ret v' => alikeOption v v'
  | .raise v, .raise v' => alikeOption v v'
  | .assign v t, .assign w a => v.same w && t a
  | .binary op l r, .binary op' l' r' => op == op' && l l' && r r'
  | .unary op t, .unary op' a => op == op' && t a
  | .call f ts, .call g as => f == g && alikeList ts as
  | .var v, .var w => v.same w
  | .const v, .const w => v == w
  | .defaultOf t, .defaultOf u => t == u
  | _, _ => false

end Shape

/-- Structural equality: the same forms with the same data everywhere. The numbers of nodes do not
count, and a symbol counts by its own number only. -/
def Node.alike (m n : Node) : Bool :=
  m.fold (fun _ tests other ↦ tests.alike other.shape) n

end Suspension
