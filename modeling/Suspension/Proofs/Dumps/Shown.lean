import Suspension.Proofs.Dumps.Writing
import Suspension.Proofs.Unnumbered

/-!
# What dumps show

A dump does not show the numbers of nodes and the types of variables. It shows the operator of a
form with one operand, and the step of the awaiter protocol, only where the operand stands on the
same line. `Node.shown` is the tree without what is not shown: it has the same dump
(`Node.dump_shown`).
-/

namespace Suspension

open Rendering (ofLayer inlineForm content)

/-- A variable as dumps show it. -/
def Variable.shown (v : Variable) : Variable :=
  { v with ty := .unit }

/-- A clause as dumps show it. -/
def Clause.shown {α : Type} (c : Clause α) : Clause α :=
  { c with binder := c.binder.map Variable.shown }

/-- What dumps show of a layer. -/
def Shape.shown : Shape Node → Shape Node
  | .block declared statements => .block (declared.map Variable.shown) statements
  | .region body clauses cleanup fault => .region body (clauses.map Clause.shown) cleanup fault
  | .assign target value => .assign target.shown value
  | .var v => .var v.shown
  | .unary op operand => .unary (if operand.onLine then op else .minus) operand
  | .awaiter step operand => .awaiter (if operand.onLine then step else .acquire) operand
  | sh => sh

/-- What dumps show of a tree. -/
def Node.shown : Node → Node :=
  fold fun _ layer ↦ ⟨0, layer.shown⟩

theorem Node.shown_eq (n : Node) : n.shown = ⟨0, (n.shape.map shown).shown⟩ :=
  fold_eq _ n

/-- Layers are rendered alike if they are on one line, and below each other. -/
theorem ofLayer_congr {layer layer' : Shape Rendering}
    (inline : inlineForm (layer.map Rendering.inline) = inlineForm (layer'.map Rendering.inline))
    (lines : inlineForm (layer'.map Rendering.inline) = none →
      ∀ column, content column layer = content column layer') : ofLayer layer = ofLayer layer' := by
  unfold ofLayer
  rw [inline]
  split
  · rfl
  · rename_i none
    simp only [lines none]

/-- Dumps show nothing of a layer but what is shown. -/
theorem Shape.ofLayer_shown (sh : Shape Node) :
    ofLayer (sh.shown.map Node.rendering) = ofLayer (sh.map Node.rendering) := by
  cases sh with
  | block declared statements =>
    have texts : (declared.map Variable.shown).map Variable.text = declared.map Variable.text := by
      rw [List.map_map]
      rfl
    refine ofLayer_congr rfl fun _ column ↦ ?_
    simp only [shown, map, content, texts, List.isEmpty_map]
  | region body clauses cleanup fault =>
    refine ofLayer_congr rfl fun _ column ↦ ?_
    have same (c : Clause Node) : Rendering.clause column (c.shown.map Node.rendering) =
        Rendering.clause column (c.map Node.rendering) := by
      obtain ⟨binder, filter, body⟩ := c
      cases binder <;> cases filter <;> rfl
    simp [shown, map, content, Function.comp_def, same]
  | unary op operand =>
    rw [shown]
    split
    · rfl
    · rename_i apart
      have none : operand.rendering.inline = none := by simpa [Node.onLine] using apart
      refine ofLayer_congr ?_ fun _ column ↦ rfl
      simp [map, inlineForm, none]
  | awaiter step operand =>
    rw [shown]
    split
    · rfl
    · rename_i apart
      have none : operand.rendering.inline = none := by simpa [Node.onLine] using apart
      refine ofLayer_congr ?_ fun _ column ↦ rfl
      simp [map, inlineForm, none]
  | _ => rfl

/-- What is shown of a tree is rendered like the tree. -/
theorem Node.rendering_shown (n : Node) : n.shown.rendering = n.rendering := by
  induction n using Node.induction with
  | step n ih =>
    rw [shown_eq, rendering_eq, rendering_eq n]
    show ofLayer ((n.shape.map shown).shown.map rendering) = _
    rw [Shape.ofLayer_shown, Shape.map_map]
    exact congrArg ofLayer (Shape.map_congr ih)

/-- What is not shown makes no difference to a dump. -/
theorem Node.dump_shown (n : Node) : n.shown.dump = n.dump :=
  congrArg (fun r : Rendering ↦ r.lines 0) n.rendering_shown

/-- What is shown of a tree stands on a line if the tree does. -/
theorem Node.onLine_shown (n : Node) : n.shown.onLine = n.onLine :=
  congrArg (fun r : Rendering ↦ r.inline.isSome) n.rendering_shown

end Suspension
