import Suspension.Proofs.Acceptance
import Suspension.Proofs.Nesting.Levels
import Suspension.Proofs.Unnumbered

/-!
# How much deeper lowered bodies nest

Each pass puts levels around parts of a body: blocks around expressions with stored operands, blocks
and regions around what a region is taken apart into, blocks and dispatches around suspend points
and the regions they are in, and an entry block around everything. `Shape.growth` says for a layer
how many of them come to stand around one of its children, at most.

`Node.room` is the nesting of a tree in which every layer counts for its growth as well. It is a
bound that each pass pays from: what the spilling makes of a tree needs no more room without it than
the tree with it (`Node.spill_room`), so for the handler reduction (`Node.reduce_room`), and the
expansion nests no deeper than the room of what it expands (`Unfolds.nesting_le`). So a lowered
body nests at most as much deeper as the growths on one way down the body amount to
(`Node.lower_depth_le`).
-/

namespace Suspension

open Handlers Spill Build Steps

/-- How many levels lowering puts around a child of a layer, at most. Which of the children suspend
is given. -/
def Shape.growth (options : LoweringOptions) : Shape Bool → Nat
  -- the operand stands in the block of the suspend point
  | .await _ _ _ => 4
  | .region body clauses cleanup fault =>
    -- a stage for each kind of handler that the region has: its body and what is done of it so far
    -- are the body of a region again, in a block, and exits may be noted in it
    if options.reduceHandlers &&
        ((clauses.any fun c ↦ c.body) || cleanup.any id || fault.any id) then
      13 * ((if clauses.isEmpty then 0 else 1) + cleanup.toList.length + fault.toList.length)
    -- the dispatch in front of the body
    else if (Shape.region body clauses cleanup fault).children.any id then 4
    else 0
  -- noted in the place of a return
  | .ret _ => 2
  -- the block of the stored operands
  | sh => if options.spill && sh.operands.any id then 2 else 0

/-- No pass is left that is not required. -/
def LoweringOptions.bare : LoweringOptions :=
  ⟨false, false⟩

namespace Node

variable {options : LoweringOptions} {i : NodeId} {sh : Shape Node} {d : Nat}

/-- The nesting that a tree may come to by the passes that are still to run. No tree needs less than
the code of a suspend point. -/
def room (options : LoweringOptions) : Node → Nat :=
  reach (fun _ ↦ 9) (Shape.growth options)

/-- A number of levels is room for a tree if it is for its layer and around each of its children. -/
theorem room_le : room options ⟨i, sh⟩ ≤ d ↔ 9 ≤ d ∧
    ∀ p ∈ sh.places, (sh.map containsAwait).growth options + p.1 + p.2.room options ≤ d :=
  reach_le

/-- No tree needs less room than the code of a suspend point. -/
theorem nine_le_room (options : LoweringOptions) (n : Node) : 9 ≤ n.room options := by
  obtain ⟨i, sh⟩ := n
  exact (room_le.1 (Nat.le_refl _)).1

theorem room_of_mem (options : LoweringOptions) (i : NodeId) {p : Nat × Node} (h : p ∈ sh.places) :
    (sh.map containsAwait).growth options + p.1 + p.2.room options ≤ room options ⟨i, sh⟩ :=
  reach_of_mem h

/-- What the layers on one way down a tree grow by together, where that is the most. -/
def growth (options : LoweringOptions) : Node → Nat :=
  fold fun n layer ↦ (n.shape.map containsAwait).growth options + layer.children.foldr max 0

/-- A tree grows at least by its layer together with any of its children. -/
theorem growth_of_mem (options : LoweringOptions) (i : NodeId) {n : Node} (h : n ∈ sh.children) :
    (sh.map containsAwait).growth options + n.growth options ≤ growth options ⟨i, sh⟩ := by
  have unrolled : growth options ⟨i, sh⟩ = (sh.map containsAwait).growth options +
      (sh.children.map (growth options)).foldr max 0 := by
    rw [growth, fold_eq, Shape.children_map]
    rfl
  have le (ns : List Node) (member : n ∈ ns) :
      n.growth options ≤ (ns.map (growth options)).foldr max 0 := by
    induction ns with
    | nil => cases member
    | cons m ns ih =>
      rw [List.map_cons, List.foldr_cons]
      rcases List.mem_cons.1 member with rfl | member
      · exact Nat.le_max_left _ _
      · exact Nat.le_trans (ih member) (Nat.le_max_right _ _)
  rw [unrolled]
  exact Nat.add_le_add_left (le _ h) _

/-- There is room for a tree in what it nests and what it grows by. -/
theorem room_le_depth (n : Node) : n.room options ≤ n.toJson.depth + n.growth options + 8 := by
  induction n using induction with
  | step n ih =>
    obtain ⟨i, sh⟩ := n
    refine room_le.2 ⟨?_, fun p member ↦ ?_⟩
    · have := one_le_depth_toJson ⟨i, sh⟩
      omega
    · have child := Shape.mem_children_of_places member
      have := ih p.2 child
      have := growth_of_mem options i child
      have : p.1 + p.2.toJson.depth ≤ (toJson ⟨i, sh⟩).depth := le_depth_toJson member
      omega

end Node

namespace Shape

open Node (containsAwait room)

variable {before after : LoweringOptions} {sh : Shape Node} {d : Nat}

/-- What there is for a layer that a pass has still to rebuild, when it has rebuilt the children. -/
structure HasRoom (before after : LoweringOptions) (sh : Shape Node) (d : Nat) : Prop where
  floor : 9 ≤ d
  below : ∀ p ∈ sh.places, (sh.map containsAwait).growth before + p.1 + p.2.room after ≤ d

/-- A layer that stays as it is has the room it needs. -/
theorem HasRoom.stays (h : HasRoom before after sh d) (i : NodeId)
    (le : (sh.map containsAwait).growth after ≤ (sh.map containsAwait).growth before) :
    room after ⟨i, sh⟩ ≤ d :=
  Node.room_le.2 ⟨h.floor, fun p member ↦ by have := h.below p member; omega⟩

/-- A layer has the room that the tree had, and what its children may take more than they had. -/
theorem HasRoom.of_rebuilt {α : Type} {x : Shape α} {f g : α → Node} (more : Nat) (i : NodeId)
    (awaits : ∀ y ∈ x.children, (g y).containsAwait = (f y).containsAwait)
    (below : ∀ y ∈ x.children, (g y).room after ≤ (f y).room before + more) :
    HasRoom before after (x.map g) (room before ⟨i, x.map f⟩ + more) := by
  refine ⟨Nat.le_add_right_of_le (Node.nine_le_room _ _), ?_⟩
  have same : (x.map g).map containsAwait = (x.map f).map containsAwait := by
    rw [map_map, map_map]
    exact map_congr awaits
  rw [places_map, same]
  refine List.forall_mem_map.2 fun p member ↦ ?_
  have around := Node.room_of_mem before i (mem_places_map (f := f) member)
  have := below p.2 (mem_children_of_places member)
  dsimp only at around ⊢
  omega

end Shape

/-! ### Spilling -/

section Spilling

variable {sh sh' : Shape Node} {os os' stores : List Node} {ds : List Variable} {s s' : Supply}
  {n' : Node} {m : Bool} {d : Nat} {options : LoweringOptions}

/-- Stored operands need one level more, for the assignment. -/
theorem Stores.room_le (h : Stores os ds stores os') (below : ∀ o ∈ os, o.room options ≤ d) :
    (∀ n ∈ stores, n.room options ≤ d + 1) ∧ ∀ o ∈ os', o.room options ≤ d := by
  induction h with
  | nil => exact ⟨nofun, nofun⟩
  | @stored o os os' stores ds i j temp awaits needs rest ih =>
    obtain ⟨head, tail⟩ := List.forall_mem_cons.1 below
    obtain ⟨stores, operands⟩ := ih tail
    have floor := Nat.le_trans (o.nine_le_room options) head
    have store : Node.room options ⟨i, .assign temp o⟩ ≤ d + 1 := by
      simp [Node.room_le, Shape.places, Shape.growth, Shape.map, Shape.operands]
      omega
    have use : Node.room options ⟨j, .var temp⟩ ≤ d :=
      Node.room_le.2 ⟨floor, List.forall_mem_nil _⟩
    exact ⟨List.forall_mem_cons.2 ⟨store, stores⟩, List.forall_mem_cons.2 ⟨use, operands⟩⟩
  | left stays rest ih =>
    obtain ⟨head, tail⟩ := List.forall_mem_cons.1 below
    obtain ⟨stores, operands⟩ := ih tail
    exact ⟨stores, List.forall_mem_cons.2 ⟨head, operands⟩⟩

/-- All operands of a layer stand at one level. -/
theorem Steps.SameOperands.places (h : SameOperands sh sh' os os') :
    ∃ k, 1 ≤ k ∧ sh.places = os.map (fun o ↦ (k, o)) ∧ sh'.places = os'.map fun o ↦ (k, o) := by
  cases h
  · exact ⟨1, by decide, rfl, rfl⟩
  · exact ⟨2, by decide, rfl, rfl⟩

/-- A layer with operands grows if they are stored. -/
theorem Steps.SameOperands.growth (h : SameOperands sh sh' os os') :
    (sh.map Node.containsAwait).growth options =
      if options.spill && os.any Node.containsAwait then 2 else 0 := by
  cases h <;> simp [Shape.map, Shape.growth, Shape.operands]

/-- Spilling a layer takes the room that there is for it. -/
theorem SpillsLayer.room_le (h : SpillsLayer sh s n' s')
    (given : sh.HasRoom ⟨true, m⟩ ⟨false, m⟩ d) :
    n'.room ⟨false, m⟩ ≤ d := by
  have stays (i : NodeId) : Node.room ⟨false, m⟩ ⟨i, sh⟩ ≤ d := by
    refine given.stays i ?_
    cases sh <;> simp [Shape.map, Shape.growth]
  cases h with
  | same i none symbol => exact stays i
  | @operands sh' os os' stores ds i _ _ same stored symbol_le names wrapped =>
    cases wrapped with
    | bare none =>
      subst none
      rw [stored.eq_of_nil.2] at same
      rw [same.eq]
      exact stays i
    | block j some =>
      obtain ⟨k, pos, places, places'⟩ := same.places
      -- The growth of the layer pays for the block that the stores stand in.
      have grows : (sh.map Node.containsAwait).growth ⟨true, m⟩ = 2 := by
        rw [same.growth, stored.any_of_ne_nil some]
        rfl
      have below (o : Node) (member : o ∈ os) : 2 + k + o.room ⟨false, m⟩ ≤ d := by
        have own := given.below (k, o) (places ▸ List.mem_map_of_mem member)
        rwa [grows] at own
      obtain ⟨d, rfl, floor⟩ : ∃ e, d = 2 + k + e ∧ 9 ≤ e := by
        obtain ⟨o, member, -⟩ := List.any_eq_true.1 (stored.any_of_ne_nil some)
        have := below o member
        have := o.nine_le_room ⟨false, m⟩
        exact ⟨d - (2 + k), by omega, by omega⟩
      obtain ⟨inBlock, operands⟩ := stored.room_le fun o member ↦
        Nat.le_of_add_le_add_left (below o member)
      have value : Node.room ⟨false, m⟩ ⟨i, sh'⟩ ≤ k + d := by
        refine Node.room_le.2 ⟨Nat.le_add_left_of_le floor, ?_⟩
        rw [places', same.flip.growth]
        refine List.forall_mem_map.2 fun o member ↦ ?_
        show 0 + k + o.room _ ≤ k + d
        rw [Nat.zero_add]
        exact Nat.add_le_add_left (operands o member) k
      refine Node.room_le.2 ⟨given.floor, List.forall_mem_map.2 fun n member ↦ ?_⟩
      show 0 + 2 + n.room _ ≤ 2 + k + d
      rcases List.mem_append.1 member with store | isValue
      · have := inBlock n store
        omega
      · cases List.mem_singleton.1 isValue
        omega

/-- Spilling takes the room that a tree has for it. -/
theorem Node.spill_room {n n' : Node} (h : runs n.spill s n' s') :
    n'.room ⟨false, m⟩ ≤ n.room ⟨true, m⟩ := by
  induction n using Node.induction generalizing s n' s' with
  | step n ih =>
    rw [spill_eq, runs_bind] at h
    obtain ⟨sh, s₁, children, step⟩ := h
    obtain ⟨x, source, rfl, threads⟩ := Runs.shape (f := spill)
      (Q := fun n _ n' _ (_ : Unit) ↦ n'.containsAwait = n.containsAwait ∧
        n'.room ⟨false, m⟩ ≤ n.room ⟨true, m⟩)
      (fun a child _ _ _ run ↦ ⟨(), (spill_census run).awaits, ih a child run⟩) children
    obtain ⟨i, shape⟩ := n
    obtain rfl : x.map Prod.fst = shape := source
    have each (y) (member : y ∈ x.children) := (threads.of_mem member).choose_spec.choose_spec
    exact (runs_spillLayer step).room_le (.of_rebuilt 0 i
      (fun y member ↦ (each y member).1) fun y member ↦ (each y member).2)

end Spilling

/-! ### Moving handlers -/

section Moving

variable {body n n' : Node} {cs : List (Clause Node)} {cleanup fault : Option Node} {s s' : Supply}
  {d : Nat}

/-- A region grows if its handlers are to be moved, or if something in it suspends. -/
theorem Shape.growth_region (options : LoweringOptions) :
    ((Shape.region body cs cleanup fault).map Node.containsAwait).growth options =
      if options.reduceHandlers && ((cs.any fun c ↦ c.body.containsAwait) ||
        cleanup.any Node.containsAwait || fault.any Node.containsAwait) then
        13 * ((if cs.isEmpty then 0 else 1) + cleanup.toList.length + fault.toList.length)
      else if (Shape.region body cs cleanup fault).children.any Node.containsAwait then 4
        else 0 := by
  have children : ((Shape.region body cs cleanup fault).map Node.containsAwait).children.any id =
      (Shape.region body cs cleanup fault).children.any Node.containsAwait := by
    rw [Shape.children_map, List.any_map]
    rfl
  rw [← children]
  simp only [Shape.map, Shape.growth, List.any_map, List.isEmpty_map, Option.toList_map,
    List.length_map, Option.any_map]
  rfl

namespace Node

variable {i : NodeId} {v : Variable}

theorem room_eq_nine {sh : Shape Node} (none : sh.places = []) : room .bare ⟨i, sh⟩ = 9 := by
  refine Nat.le_antisymm (room_le.2 ⟨Nat.le_refl 9, ?_⟩) (nine_le_room .bare _)
  rw [none]
  exact List.forall_mem_nil _

/-- A layer around one child takes what it opens and what grows in it. -/
theorem room_single {sh : Shape Node} (only : sh.places = [(1, n)]) :
    room .bare ⟨i, sh⟩ = (sh.map containsAwait).growth .bare + 1 + n.room .bare := by
  refine Nat.le_antisymm (room_le.2 ⟨Nat.le_add_left_of_le (n.nine_le_room .bare), ?_⟩)
    (room_of_mem .bare i (p := (1, n)) (only ▸ List.mem_singleton_self _))
  rw [only]
  exact List.forall_mem_singleton.2 (Nat.le_refl _)

@[simp] theorem room_assign : room .bare ⟨i, .assign v n⟩ = 1 + n.room .bare :=
  room_single rfl

@[simp] theorem room_raise : room .bare ⟨i, .raise (some n)⟩ = 1 + n.room .bare :=
  room_single rfl

@[simp] theorem room_ret : room .bare ⟨i, .ret (some n)⟩ = 3 + n.room .bare :=
  room_single rfl

@[simp] theorem room_rethrow : room .bare ⟨i, .raise none⟩ = 9 :=
  room_eq_nine rfl

@[simp] theorem room_return : room .bare ⟨i, .ret none⟩ = 9 :=
  room_eq_nine rfl

@[simp] theorem room_var : room .bare ⟨i, .var v⟩ = 9 :=
  room_eq_nine rfl

@[simp] theorem room_const (value : Literal) : room .bare ⟨i, .const value⟩ = 9 :=
  room_eq_nine rfl

@[simp] theorem room_defaultOf (ty : Ty) : room .bare ⟨i, .defaultOf ty⟩ = 9 :=
  room_eq_nine rfl

@[simp] theorem room_goto (target : Label) : room .bare ⟨i, .goto target⟩ = 9 :=
  room_eq_nine rfl

@[simp] theorem room_label (target : Label) : room .bare ⟨i, .label target⟩ = 9 :=
  room_eq_nine rfl

/-- A layer that nothing grows in takes what it opens. -/
theorem room_le_of_places {sh : Shape Node} (grows : (sh.map containsAwait).growth .bare = 0)
    (floor : 9 ≤ d) (below : ∀ p ∈ sh.places, p.1 + p.2.room .bare ≤ d) :
    room .bare ⟨i, sh⟩ ≤ d := by
  refine room_le.2 ⟨floor, ?_⟩
  rw [grows]
  simpa only [Nat.zero_add] using below

/-- A block takes two levels around its statements. -/
theorem room_block_le {ds : List Variable} {ns : List Node} (floor : 7 ≤ d)
    (below : ∀ n ∈ ns, n.room .bare ≤ d) : room .bare ⟨i, .block ds ns⟩ ≤ 2 + d :=
  room_le_of_places rfl (by omega) (List.forall_mem_map.2 fun n member ↦
    Nat.add_le_add_left (below n member) 2)

theorem room_switch_le {j : NodeId} {cases : List (Case Node)} (floor : 10 ≤ d)
    (below : ∀ c ∈ cases, c.body.room .bare + 3 ≤ d) :
    room .bare ⟨i, .switch ⟨j, .var v⟩ cases none⟩ ≤ d := by
  refine room_le_of_places rfl (by omega) (List.forall_mem_append.2 ⟨List.forall_mem_cons.2
    ⟨?_, List.forall_mem_map.2 fun c member ↦ ?_⟩, nofun⟩)
  · dsimp only
    rw [room_var]
    exact floor
  · rw [Nat.add_comm]
    exact below c member

/-- A region takes four levels more than it opens, for a dispatch. -/
theorem room_region_le (inside : body.room .bare + 1 ≤ d)
    (clauses : ∀ part ∈ cs.flatMap Clause.children, part.room .bare + 3 ≤ d)
    (parts : ∀ part ∈ cleanup.toList ++ fault.toList, part.room .bare + 1 ≤ d) :
    room .bare ⟨i, .region body cs cleanup fault⟩ ≤ d + 4 := by
  have grows : ((Shape.region body cs cleanup fault).map containsAwait).growth .bare ≤ 4 := by
    rw [Shape.growth_region, if_neg (by simp [LoweringOptions.bare])]
    split
    · exact Nat.le_refl 4
    · exact Nat.zero_le 4
  have floor := body.nine_le_room .bare
  refine room_le.2 ⟨by omega, List.forall_mem_append.2 ⟨List.forall_mem_cons.2 ⟨?_, ?_⟩, ?_⟩⟩
  · dsimp only
    omega
  · refine List.forall_mem_map.2 fun part member ↦ ?_
    have := clauses part member
    dsimp only
    omega
  · refine List.forall_mem_map.2 fun part member ↦ ?_
    have := parts part member
    dsimp only
    omega

/-- A region that suspends has room for the dispatch around its parts. -/
theorem room_region_of_suspends (i : NodeId)
    (suspends : (Shape.region body cs cleanup fault).children.any containsAwait = true) :
    ∃ d, room .bare ⟨i, .region body cs cleanup fault⟩ = d + 5 ∧ body.room .bare ≤ d ∧
      (∀ part ∈ cs.flatMap Clause.children, part.room .bare + 2 ≤ d) ∧
      ∀ part ∈ cleanup.toList ++ fault.toList, part.room .bare ≤ d := by
  have grows : ((Shape.region body cs cleanup fault).map containsAwait).growth .bare = 4 :=
    (Shape.growth_region .bare).trans (if_pos suspends)
  have given (k : Nat) (part : Node)
      (place : (k, part) ∈ (Shape.region body cs cleanup fault).places) :
      4 + k + part.room .bare ≤ room .bare ⟨i, .region body cs cleanup fault⟩ := by
    have around := room_of_mem .bare i place
    rwa [grows] at around
  have inside := given 1 body (List.mem_append_left _ List.mem_cons_self)
  obtain ⟨d, eq⟩ := Nat.exists_eq_add_of_le' (Nat.le_trans (Nat.le_add_right 5 _) inside)
  rw [eq] at given inside ⊢
  refine ⟨d, rfl, by omega, fun part member ↦ ?_, fun part member ↦ ?_⟩
  · have := given 3 part
      (List.mem_append_left _ (List.mem_cons_of_mem _ (List.mem_map_of_mem member)))
    omega
  · have := given 1 part (List.mem_append_right _ (List.mem_map_of_mem member))
    omega

end Node

/-- Copies with noted exits take three levels more. -/
theorem Edits.room_le {given places : List SymbolId} (h : Edits given places n n') :
    n'.room .bare ≤ n.room .bare + 3 := by
  induction h with
  | @layer i i' x below ih =>
    have given : (x.map Prod.snd).HasRoom .bare .bare _ :=
      .of_rebuilt 3 i (fun y member ↦ (below y member).containsAwait) ih
    exact given.stays i' (Nat.le_refl _)
  | raise known => simp
  | jump known known' =>
    rw [Node.room_goto]
    exact Node.room_block_le (d := 10) (by decide) (by simp)
  | @ret _ _ _ _ _ _ _ _ _ _ n n' value known known' known'' ih =>
    have := n.nine_le_room .bare
    rw [Node.room_ret]
    refine Nat.le_trans (Node.room_block_le (d := n.room .bare + 4) (by omega) ?_) (by omega)
    simp
    omega
  | retUnit =>
    rw [Node.room_return]
    exact Node.room_block_le (d := 10) (by decide) (by simp)

theorem IsMark.room {v : Variable} {value : Literal} (h : IsMark v value n) :
    n.room .bare = 10 := by
  cases h
  simp

theorem IsCopy.room {target source : Variable} (h : IsCopy target source n) :
    n.room .bare = 10 := by
  cases h
  simp

theorem IsRaise.room {v : Variable} (h : IsRaise v n) : n.room .bare = 10 := by
  cases h
  simp

/-- What is left of a clause takes twelve levels. -/
theorem IsCopy.note_room_le {target source which : Variable} {value : Literal} {keep mark : Node}
    (copies : IsCopy target source keep) (marks : IsMark which value mark) (i : NodeId) :
    Node.room .bare ⟨i, .block [] [keep, mark]⟩ ≤ 12 :=
  Node.room_block_le (d := 10) (by decide) (by simp [copies.room, marks.room])

/-- The parts of a clause that catches everything need little room. -/
theorem IsCatchAll.room_le {cap : Captured} {e : Variable} {c : Clause Node}
    (h : IsCatchAll cap e c) : ∀ part ∈ c.children, part.room .bare ≤ 12 := by
  cases h with
  | mk i copies marks => exact List.forall_mem_singleton.2 (copies.note_room_le marks i)

/-- A moved clause leaves its filter and a note, and its case stores the value of its body. -/
theorem MovesClauses.room_le {cap : Captured} {which : Variable} {k : Nat} {m : Moved}
    {new : List Variable} (h : MovesClauses cap which k cs m new) (floor : 9 ≤ d)
    (below : ∀ part ∈ cs.flatMap Clause.children, part.room .bare ≤ d) :
    (∀ part ∈ m.clauses.flatMap Clause.children, part.room .bare ≤ d + 3) ∧
      ∀ c ∈ m.cases, c.body.room .bare ≤ d + 6 := by
  induction h with
  | nil => exact ⟨nofun, nofun⟩
  | @cons k c clause case cs m first rest v holds head tail ih =>
    obtain ⟨here, there⟩ := List.forall_mem_append.1 below
    obtain ⟨clauses, cases⟩ := ih there
    refine ⟨List.forall_mem_append.2 ⟨?_, clauses⟩, List.forall_mem_cons.2 ⟨?_, cases⟩⟩ <;>
      obtain ⟨i, i', j, copies, marks, edits, restores⟩ := head
    · obtain ⟨filter, -⟩ := List.forall_mem_append.1 here
      refine List.forall_mem_append.2 ⟨fun part member ↦ ?_, List.forall_mem_singleton.2 ?_⟩
      · exact Nat.le_add_right_of_le (filter part member)
      · exact Nat.le_trans (copies.note_room_le marks i) (Nat.add_le_add_right floor 3)
    · have handler := Nat.le_trans edits.room_le
        (Nat.add_le_add_right (here c.body (by simp [Clause.children])) 3)
      refine Nat.le_trans (Node.room_block_le (d := d + 4) (by omega) ?_) (by omega)
      simp [restores.room]
      omega

/-! ### Stages -/

/-- Moving clauses takes thirteen more levels. -/
theorem MovesCaught.room_le {ids : List SymbolId} (h : MovesCaught body cs n ids)
    (inside : body.room .bare ≤ d)
    (below : ∀ part ∈ cs.flatMap Clause.children, part.room .bare ≤ d) :
    n.room .bare ≤ d + 13 := by
  have floor := Nat.le_trans (body.nine_le_room .bare) inside
  cases h with
  | @mk i i₁ i₂ i₃ i₄ i₅ cap which m new start clauses starts =>
    obtain ⟨clauses, cases⟩ := clauses.room_le floor below
    have region : Node.room .bare ⟨i₁, .region ⟨i₂, .assign cap.value body⟩ m.clauses none none⟩ ≤
        d + 7 + 4 := by
      refine Node.room_region_le ?_ (fun part member ↦ ?_) nofun
      · rw [Node.room_assign]
        omega
      · have := clauses part member
        omega
    have switch : Node.room .bare ⟨i₃, .switch ⟨i₄, .var which⟩ m.cases none⟩ ≤ d + 9 :=
      Node.room_switch_le (by omega) fun c member ↦ Nat.add_le_add_right (cases c member) 3
    refine Nat.le_trans (Node.room_block_le (d := d + 11) (by omega) ?_) (by omega)
    simp [starts.room, region]
    omega

/-- Moving a fault body takes thirteen more levels. -/
theorem MovesFault.room_le {fault : Node} {ids : List SymbolId} (h : MovesFault body fault n ids)
    (inside : body.room .bare ≤ d) (part : fault.room .bare ≤ d) : n.room .bare ≤ d + 13 := by
  have floor := Nat.le_trans (body.nine_le_room .bare) inside
  cases h with
  | @mk i i₁ i₂ i₃ i₄ i₅ i₆ cap e start again clause starts catches raises =>
    have region : Node.room .bare ⟨i₁, .region ⟨i₂, .assign cap.value body⟩ [clause] none none⟩ ≤
        d + 6 + 4 := by
      refine Node.room_region_le ?_ (fun part member ↦ ?_) nofun
      · rw [Node.room_assign]
        omega
      · have := catches.room_le part (by simpa using member)
        omega
    have handler : Node.room .bare ⟨i₅, .block [] [fault, again]⟩ ≤ 2 + (d + 1) :=
      Node.room_block_le (by omega) (by simp [raises.room]; omega)
    have branch : Node.room .bare
        ⟨i₃, .branch ⟨i₄, .var cap.caught⟩ ⟨i₅, .block [] [fault, again]⟩ none⟩ ≤ d + 4 := by
      refine Node.room_le_of_places rfl (by omega) ?_
      simp [Shape.places]
      omega
    refine Nat.le_trans (Node.room_block_le (d := d + 11) (by omega) ?_) (by omega)
    simp [starts.room]
    omega

/-- A protected body needs two more levels than its value. -/
theorem IsInside.room_le {value : Node} {leave : Label} {left : List Leaving}
    (h : IsInside value leave left n) : n.room .bare ≤ value.room .bare + 2 := by
  cases h with
  | plain => exact Nat.le_add_right _ 2
  | labelled i j some =>
    have floor := value.nine_le_room .bare
    rw [Nat.add_comm]
    exact Node.room_block_le (by omega) (by simpa using floor)

theorem ResumesExits.room_le {exits : Exits} {k : Nat} {ls : List Leaving}
    {cases : List (Case Node)} (h : ResumesExits exits k ls cases) :
    ∀ c ∈ cases, c.body.room .bare ≤ 12 := by
  induction h with
  | nil => exact nofun
  | cons head tail ih => exact List.forall_mem_cons.2 ⟨by cases head <;> simp, ih⟩

theorem DispatchesExits.room_le {exits : Exits} {left : List Leaving} {dispatch : List Node}
    (h : DispatchesExits exits left dispatch) : ∀ n ∈ dispatch, n.room .bare ≤ 15 := by
  cases h with
  | none => exact nofun
  | switch i j some resumes =>
    exact List.forall_mem_singleton.2 (Node.room_switch_le (by decide) fun c member ↦
      Nat.add_le_add_right (resumes.room_le c member) 3)

/-- Moving a finally body takes thirteen more levels. -/
theorem MovesCleanup.room_le {cleanup : Node} {ids : List SymbolId}
    (h : MovesCleanup body cleanup n ids) (inside : body.room .bare ≤ d)
    (part : cleanup.room .bare ≤ d) : n.room .bare ≤ d + 13 := by
  have floor := Nat.le_trans (body.nine_le_room .bare) inside
  cases h with
  | @mk i i₁ i₂ i₃ i₄ i₅ cap exits e start clear copied within raises dispatch left clause named
      starts clears edits noted isInside catches again dispatches =>
    have region : Node.room .bare ⟨i₁, .region within [clause] none none⟩ ≤ d + 7 + 4 := by
      have value := isInside.room_le
      rw [Node.room_assign] at value
      have copied := edits.room_le
      refine Node.room_region_le (by omega) (fun part member ↦ ?_) nofun
      have := catches.room_le part (by simpa using member)
      omega
    have branch : Node.room .bare ⟨i₃, .branch ⟨i₄, .var cap.caught⟩ raises none⟩ ≤ d + 11 :=
      Node.room_le_of_places rfl (by omega) (by simp [Shape.places, again.room])
    refine Nat.le_trans (Node.room_block_le (d := d + 11) (by omega) ?_) (by omega)
    refine List.forall_mem_append.2 ⟨List.forall_mem_append.2 ⟨?_, fun n member ↦ ?_⟩, ?_⟩
    · simp [starts.room, clears.room, region, branch]
      omega
    · have := dispatches.room_le n member
      omega
    · simp

theorem withClauses_room (h : runs (withClauses cs body) s n s') (inside : body.room .bare ≤ d)
    (below : ∀ part ∈ cs.flatMap Clause.children, part.room .bare ≤ d) :
    n.room .bare ≤ d + 13 * (if cs.isEmpty then 0 else 1) := by
  rw [withClauses] at h
  split at h
  · obtain ⟨rfl, rfl⟩ := runs_pure.1 h
    exact Nat.le_add_right_of_le inside
  · rename_i some
    rw [if_neg some]
    split at h
    · obtain ⟨ids, moves, -⟩ := runs_reduceClauses h
      exact moves.room_le inside below
    · obtain ⟨rfl, rfl⟩ := runs_build h
      refine Nat.le_trans (Node.room_region_le (d := d + 3) (by omega) (fun part member ↦ ?_)
        (List.forall_mem_nil _)) (by omega)
      exact Nat.add_le_add_right (below part member) 3

theorem withCleanup_room (h : runs (withCleanup cleanup body) s n s') (inside : body.room .bare ≤ d)
    (below : ∀ part ∈ cleanup, part.room .bare ≤ d) :
    n.room .bare ≤ d + 13 * cleanup.toList.length := by
  cases cleanup with
  | none =>
    obtain ⟨rfl, rfl⟩ := runs_pure.1 h
    exact inside
  | some part =>
    have part_le := below part rfl
    rw [withCleanup] at h
    split at h
    · obtain ⟨ids, moves, -⟩ := runs_reduceCleanup h
      exact moves.room_le inside part_le
    · obtain ⟨rfl, rfl⟩ := runs_build h
      refine Nat.le_trans (Node.room_region_le (d := d + 1) (by omega)
        (List.forall_mem_nil _) ?_) (by simp)
      exact List.forall_mem_singleton.2 (Nat.add_le_add_right part_le 1)

theorem withFault_room (h : runs (withFault fault body) s n s') (inside : body.room .bare ≤ d)
    (below : ∀ part ∈ fault, part.room .bare ≤ d) :
    n.room .bare ≤ d + 13 * fault.toList.length := by
  cases fault with
  | none =>
    obtain ⟨rfl, rfl⟩ := runs_pure.1 h
    exact inside
  | some part =>
    have part_le := below part rfl
    rw [withFault] at h
    split at h
    · obtain ⟨ids, moves, -⟩ := runs_reduceFault h
      exact moves.room_le inside part_le
    · obtain ⟨rfl, rfl⟩ := runs_build h
      refine Nat.le_trans (Node.room_region_le (d := d + 1) (by omega)
        (List.forall_mem_nil _) ?_) (by simp)
      exact List.forall_mem_singleton.2 (Nat.add_le_add_right part_le 1)

/-- Taking a region apart takes the room that there is for it. -/
theorem reduceRegion_room (h : runs (reduceRegion body cs cleanup fault) s n s')
    (given : (Shape.region body cs cleanup fault).HasRoom ⟨false, true⟩ .bare d) :
    n.room .bare ≤ d := by
  rw [reduceRegion_eq] at h
  split at h
  · rename_i quiet
    rw [Bool.not_eq_true'] at quiet
    obtain ⟨rfl, rfl⟩ := runs_build h
    refine given.stays _ ?_
    rw [Shape.growth_region, Shape.growth_region, quiet]
    exact Nat.le_refl _
  · rename_i suspends
    rw [Bool.not_eq_true', Bool.not_eq_false] at suspends
    simp only [runs_bind] at h
    obtain ⟨b₁, s₁, first, b₂, s₂, second, third⟩ := h
    obtain ⟨-, below⟩ := given
    rw [Shape.growth_region, suspends, Bool.and_self, if_pos rfl] at below
    generalize stages : (if cs.isEmpty then 0 else 1) = k at below
    have floor := body.nine_le_room .bare
    obtain ⟨d, rfl⟩ : ∃ e, d = 13 * (k + cleanup.toList.length + fault.toList.length) + e :=
      Nat.exists_eq_add_of_le (by have := below (1, body) (by simp [Shape.places]); omega)
    have each (part : Node) (child : part ∈ (Shape.region body cs cleanup fault).children) :
        part.room .bare ≤ d := by
      rw [← Shape.map_snd_places] at child
      obtain ⟨p, member, rfl⟩ := List.mem_map.1 child
      have := below p member
      omega
    have first := withClauses_room first (each body (by simp [Shape.children])) fun part member ↦
      each part (by simp [Shape.children, member])
    have second := withCleanup_room second first fun part member ↦
      Nat.le_add_right_of_le (each part (by simp [Shape.children, Option.mem_def.1 member]))
    have third := withFault_room third second fun part member ↦
      Nat.le_add_right_of_le (Nat.le_add_right_of_le
        (each part (by simp [Shape.children, Option.mem_def.1 member])))
    rw [stages] at third
    omega

/-- Moving handlers takes the room that a tree has for it. -/
theorem Node.reduce_room (h : runs n.reduceHandlers s n' s') (legal : ∀ m ∈ n.walk, m.Legal) :
    n'.room .bare ≤ n.room ⟨false, true⟩ := by
  induction n using Node.induction generalizing s n' s' with
  | step n ih =>
    obtain ⟨i, sh⟩ := n
    obtain ⟨x, s₁, rfl, threads, step⟩ := reduce_opens h
    obtain ⟨awaits, -⟩ := reduce_rebuilt threads legal
    have given : (x.map (·.2.1)).HasRoom ⟨false, true⟩ .bare _ :=
      .of_rebuilt 0 i awaits fun y member ↦ by
        obtain ⟨_, _, run⟩ := threads.of_mem member
        exact ih y.1 (mem_children_map member) run (legal_below legal y member)
    generalize (x.map (·.2.1)) = sh at step given
    cases sh with
    | region body cs cleanup fault => exact reduceRegion_room step given
    | _ =>
      obtain ⟨rfl, rfl⟩ := runs_build step
      exact given.stays _ (Nat.le_refl _)

/-- The passes before the expansion take the room that a tree has for them. -/
theorem Node.prepare_room {options : LoweringOptions} (h : runs (n.prepare options) s n' s')
    (legal : ∀ m ∈ n.walk, m.Legal) : n'.room .bare ≤ n.room options := by
  obtain ⟨spill, move⟩ := options
  obtain ⟨spilled, s₁, first, second⟩ := runs_prepare_iff.1 h
  obtain ⟨legal, first⟩ : (∀ m ∈ spilled.walk, m.Legal) ∧
      spilled.room ⟨false, move⟩ ≤ n.room ⟨spill, move⟩ := by
    cases spill with
    | true => exact ⟨spill_legal first legal, spill_room first⟩
    | false =>
      obtain ⟨rfl, rfl⟩ := first
      exact ⟨legal, Nat.le_refl _⟩
  refine Nat.le_trans ?_ first
  cases move with
  | true => exact reduce_room second legal
  | false =>
    obtain ⟨rfl, rfl⟩ := second
    exact Nat.le_refl _

end Moving

end Suspension
