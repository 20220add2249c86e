import Suspension.Tree.Basic

/-!
# The supply of fresh numbers

Nodes and symbols are numbered from two counters that only move forward. A computation that builds
nodes is a state transformer over the pair of them, so the numbers it hands out follow from the
order of its steps alone: a node takes its number when it is built, after everything beneath it.

Numbers of symbols are words, so what a counter hands out wraps around at the end of the 64-bit
range; the counter itself goes on, which tells a supply that has wrapped from one that has not.
Reserving the symbols of a tree read from text stops at the last number instead of passing it.
-/

namespace Suspension

/-- The next number for a node and for a symbol, the latter before it is cut to a word. -/
structure Supply where
  node : NodeId := 1
  symbol : Nat := 1
  deriving Repr, Inhabited

/-- Computations that take fresh numbers. -/
abbrev Build := StateM Supply

/-- The number after `id`, or `id` itself at the end of the range. -/
def SymbolId.successor (id : SymbolId) : SymbolId :=
  if id + 1 = 0 then id else id + 1

namespace Build

/-- A node with a fresh number. -/
def node (shape : Shape Node) : Build Node :=
  fun s ↦ (⟨s.node, shape⟩, { s with node := s.node + 1 })

/-- A fresh number for a symbol. -/
def newSymbolId : Build SymbolId :=
  fun s ↦ (UInt64.ofNat s.symbol, { s with symbol := s.symbol + 1 })

/-- A fresh variable. -/
def newVariable (name : String) (ty : Ty) : Build Variable := do
  return ⟨← newSymbolId, name, ty⟩

/-- A fresh label. -/
def newLabel (name : String) : Build Label := do
  return ⟨← newSymbolId, name⟩

/-- Makes every number up to `id` unavailable for fresh symbols. -/
def reserveThrough (id : SymbolId) : Build Unit :=
  modify fun s ↦ { s with symbol := (max (UInt64.ofNat s.symbol) id.successor).toNat }

/-- Statements in sequence without variables of their own. -/
def seq (statements : List Node) : Build Node :=
  node (.block [] statements)

/-- The node that does nothing and yields the unit value. -/
def empty : Build Node :=
  node (.defaultOf .unit)

end Build

end Suspension
