import Suspension.Lowering.Contract

/-!
# Resumption tables

A resumption table is the list of cases of a dispatch: which states lead where. Every suspend point
takes the next state and enters its case into the table of the innermost open region. Closing a
region gives back its table, for the dispatch at the start of the region, and folding it enters one
case for all its states into the table outside, which jumps to the entry of the region.
-/

namespace Suspension

open Build

/-- The cases of a dispatch on the state. -/
abbrev Table := List (Case Node)

/-- A suspend point: its state and the label where the body goes on. -/
structure ResumePoint where
  index : Nat
  label : Label

/-- The tables under construction. -/
structure Resumption where
  /-- The state of the next suspend point. -/
  next : Nat := 0
  /-- The table outside of all regions. -/
  root : Table := []
  /-- The tables of the open regions, the innermost first. -/
  regions : List Table := []

namespace Resumption

/-- The table that new cases go to. -/
def current (r : Resumption) : Table :=
  r.regions.head?.getD r.root

/-- Enters a case into the current table. -/
def enter (r : Resumption) (c : Case Node) : Resumption :=
  match r.regions with
  | [] => { r with root := r.root ++ [c] }
  | table :: outer => { r with regions := (table ++ [c]) :: outer }

/-- The number of open regions. -/
def depth (r : Resumption) : Nat :=
  r.regions.length

/-- Opens a region. -/
def openRegion (r : Resumption) : Resumption :=
  { r with regions := [] :: r.regions }

/-- Closes the innermost region and gives back its table. Outside of all regions there is nothing to
close, and the table is empty. -/
def closeRegion (r : Resumption) : Table × Resumption :=
  match r.regions with
  | [] => ([], r)
  | table :: outer => (table, { r with regions := outer })

/-- Takes the next state for a suspend point. Its case goes back to running and jumps to a fresh
label. -/
def allocate (c : Contract) (r : Resumption) : Build (ResumePoint × Resumption) := do
  let label ← newLabel ("__state" ++ toString r.next)
  let run ← c.updateState running
  let jump ← seq [run, ← node (.goto label)]
  return (⟨r.next, label⟩, { r with next := r.next + 1 }.enter ⟨[Int64.ofNat r.next], jump⟩)

/-- Enters one case for all states of a closed region, which jumps to its entry. A region without
states needs none. -/
def fold (closed : Table) (entry : Label) (r : Resumption) : Build Resumption := do
  let tests := closed.flatMap Case.tests
  if tests.isEmpty then return r
  return r.enter ⟨tests, ← node (.goto entry)⟩

end Resumption

end Suspension
