import Suspension.Proofs.Layout
import Suspension.Proofs.Nesting.Growth
import Suspension.Proofs.Preparation.NormalForm
import Suspension.Proofs.Reading.Nesting

/-!
# Lowered bodies, written and read again

The expansion nests no deeper than there is room for in the tree that it expands
(`Unfolds.nesting_le`), so that the growths on one way down a body bound how much deeper the lowered
body nests (`Node.lower_depth_le`). Whether a lowered body can be stored and reloaded is a matter of
its nesting alone (`Node.read_lowered`): reading follows `Json.nestingLimit` levels, and there are
bodies within that limit which lowering takes beyond it.
-/

namespace Suspension

open Build

/-! ### Expansions -/

theorem Kind.levels_le (k : Kind) : k.levels ≤ 4 := by
  cases k <;> decide

namespace Node

variable {i : NodeId} {sh : Shape Node} {d : Nat}

theorem nesting_le_of_places (floor : 4 ≤ d) (below : ∀ p ∈ sh.places, p.1 + p.2.nesting ≤ d) :
    nesting ⟨i, sh⟩ ≤ d :=
  nesting_le.2 ⟨Nat.le_trans sh.kind.levels_le floor, below⟩

theorem nesting_block_le {ds : List Variable} {ns : List Node} (floor : 2 ≤ d)
    (below : ∀ n ∈ ns, n.nesting ≤ d) : nesting ⟨i, .block ds ns⟩ ≤ 2 + d :=
  nesting_le_of_places (by omega) (List.forall_mem_map.2 fun n member ↦
    Nat.add_le_add_left (below n member) 2)

/-- A layer nests no deeper than there is room for, if its children do not. -/
theorem nesting_le_room {α : Type} {x : Shape α} {f g : α → Node} (i i' : NodeId)
    (below : ∀ y ∈ x.children, (g y).nesting ≤ (f y).room .bare) :
    nesting ⟨i', x.map g⟩ ≤ room .bare ⟨i, x.map f⟩ := by
  refine nesting_le_of_places (Nat.le_trans (by decide) (nine_le_room _ _)) ?_
  rw [Shape.places_map]
  refine List.forall_mem_map.2 fun p member ↦ ?_
  have around := room_of_mem .bare i (Shape.mem_places_map (f := f) member)
  have := below p.2 (Shape.mem_children_of_places member)
  dsimp only at around ⊢
  omega

end Node

section Expansions

variable {c : Contract} {n e : Node} {X : Added}

theorem IsUpdate.nesting {value : Int64} (h : IsUpdate c value n) : n.nesting = 4 := by
  cases h
  rfl

theorem IsReturn.nesting {label : Label} (h : IsReturn c label n) : n.nesting = 6 := by
  obtain ⟨i, j, ⟨⟩⟩ := h
  rfl

theorem IsSuspension.nesting {p : Point} (h : IsSuspension c p n) : n.nesting = 6 := by
  obtain ⟨i, j, k, l, ⟨⟩⟩ := h
  rfl

theorem IsOutcome.nesting {p : Point} (h : IsOutcome p n) : n.nesting ≤ 4 := by
  cases h
  · exact Nat.le_refl 4
  · exact Nat.le_succ 3

/-- A suspend point that is taken apart nests five levels deeper than its operand. -/
theorem IsPoint.nesting_le {acquire : Option String} {p : Point} {operand : Node} {d : Nat}
    (h : IsPoint c acquire p operand e) (floor : 4 ≤ d) (inside : operand.nesting ≤ d) :
    e.nesting ≤ d + 5 := by
  cases h with
  | @mk i i₁ i₂ i₃ i₄ i₅ i₆ i₇ i₈ i₉ i₁₀ suspend outcome run suspension outcomes update =>
    have acquired : Node.nesting ⟨i₂, Expand.acquireShape acquire operand⟩ ≤ d + 2 := by
      refine Node.nesting_le_of_places (by omega) ?_
      cases acquire <;> simp [Expand.acquireShape, Shape.places] <;> omega
    have stored : Node.nesting ⟨i₁, .assign p.awaiter ⟨i₂, Expand.acquireShape acquire operand⟩⟩ ≤
        d + 3 := by
      refine Node.nesting_le_of_places (by omega) (List.forall_mem_singleton.2 ?_)
      dsimp only
      omega
    have test : Node.nesting ⟨i₄, .unary .not ⟨i₅, .awaiter .isCompleted ⟨i₆, .var p.awaiter⟩⟩⟩ =
        4 := rfl
    have branch : Node.nesting
        ⟨i₃, .branch ⟨i₄, .unary .not ⟨i₅, .awaiter .isCompleted ⟨i₆, .var p.awaiter⟩⟩⟩ suspend
          none⟩ ≤ d + 3 := by
      refine Node.nesting_le_of_places (by omega) ?_
      simp [Shape.places, suspension.nesting, test]
      omega
    have label : Node.nesting ⟨i₇, .label p.label⟩ = 2 := rfl
    have release : Node.nesting ⟨i₈, .assign p.awaiter ⟨i₉, .defaultOf .any⟩⟩ = 2 := rfl
    have value : Node.nesting ⟨i₁₀, p.valueShape⟩ ≤ 2 := by
      rw [Point.valueShape]
      split
      · exact Nat.le_refl 2
      · exact Nat.le_succ 1
    have kept := outcomes.nesting
    refine Nat.le_trans (Node.nesting_block_le (d := d + 3) (by omega) ?_) (by omega)
    simp [update.nesting, label, release]
    omega

theorem IsGuarded.nesting_le {part : Node} {d : Nat} (h : IsGuarded c part e) (floor : 4 ≤ d)
    (inside : part.nesting ≤ d) : e.nesting ≤ d + 1 := by
  cases h with
  | mk i j k l =>
    have test : Node.nesting ⟨j, .binary .lt ⟨k, .var c.localState⟩ ⟨l, .const (.int 0)⟩⟩ = 3 := rfl
    refine Node.nesting_le_of_places (by omega) ?_
    simp [Shape.places, test]
    omega

/-- Guarded parts nest one level deeper. -/
theorem guarded_nesting_le {part part' : Option Node} {d : Nat}
    (h : Option.Rel (IsGuarded c) part part') (floor : 4 ≤ d)
    (inside : ∀ n ∈ part.toList, n.nesting ≤ d) : ∀ n ∈ part'.toList, n.nesting ≤ d + 1 := by
  cases h with
  | none => exact nofun
  | some guards =>
    exact List.forall_mem_singleton.2
      (guards.nesting_le floor (inside _ (List.mem_singleton_self _)))

/-- A protected region that is entered through a label nests four levels deeper than it did. -/
theorem IsEntered.nesting_le {entry : Label} {table : Table} {body : Node}
    {cs : List (Clause Node)} {cleanup fault cleanup' fault' : Option Node} {d : Nat}
    (h : IsEntered c entry table body cs cleanup' fault' e)
    (guarded : Option.Rel (IsGuarded c) cleanup cleanup')
    (guarded' : Option.Rel (IsGuarded c) fault fault')
    (entries : ∀ c ∈ table, c.body.nesting ≤ 6) (floor : 9 ≤ d) (inside : body.nesting ≤ d)
    (clauses : ∀ n ∈ cs.flatMap Clause.children, n.nesting + 2 ≤ d)
    (parts : ∀ n ∈ cleanup.toList ++ fault.toList, n.nesting ≤ d) : e.nesting ≤ d + 5 := by
  cases h with
  | mk i i₁ i₂ i₃ i₄ i₅ =>
    -- From the inside out: the dispatch, the block around it, the region, the block with the label.
    have value : Node.nesting ⟨i₅, .var c.localState⟩ = 2 := rfl
    have switch : Node.nesting ⟨i₄, .switch ⟨i₅, .var c.localState⟩ table none⟩ ≤ d := by
      refine Node.nesting_le_of_places (by omega) (List.forall_mem_append.2
        ⟨List.forall_mem_cons.2 ⟨?_, List.forall_mem_map.2 fun c member ↦ ?_⟩, nofun⟩)
      · dsimp only
        omega
      · have := entries c member
        dsimp only
        omega
    have start : Node.nesting
        ⟨i₃, .block [] [⟨i₄, .switch ⟨i₅, .var c.localState⟩ table none⟩, body]⟩ ≤ 2 + d :=
      Node.nesting_block_le (by omega) (by simp [switch, inside])
    have region : Node.nesting ⟨i₂, .region
        ⟨i₃, .block [] [⟨i₄, .switch ⟨i₅, .var c.localState⟩ table none⟩, body]⟩ cs cleanup'
          fault'⟩ ≤ d + 3 := by
      refine Node.nesting_le_of_places (by omega) (List.forall_mem_append.2
        ⟨List.forall_mem_cons.2 ⟨?_, List.forall_mem_map.2 fun n member ↦ ?_⟩,
          List.forall_mem_map.2 fun n member ↦ ?_⟩)
      · dsimp only
        omega
      · have := clauses n member
        dsimp only
        omega
      · obtain ⟨cleanups, faults⟩ := List.forall_mem_append.1 parts
        have := List.forall_mem_append.2 ⟨guarded_nesting_le guarded (by omega) cleanups,
          guarded_nesting_le guarded' (by omega) faults⟩ n member
        dsimp only
        omega
    have label : Node.nesting ⟨i₁, .label entry⟩ = 2 := rfl
    refine Nat.le_trans (Node.nesting_block_le (d := d + 3) (by omega) ?_) (by omega)
    simp [label, region]

/-- **An expansion nests** no deeper than there is room for, and entries of its tables by six
levels. -/
theorem Unfolds.nesting_le (h : Unfolds c n e X) :
    e.nesting ≤ n.room .bare ∧ ∀ entry ∈ X.table, entry.body.nesting ≤ 6 := by
  have join {ys : List (Node × Node × Added)}
      (each : ∀ y ∈ ys, y.2.1.nesting ≤ y.1.room .bare ∧
      ∀ entry ∈ y.2.2.table, entry.body.nesting ≤ 6) :
      ∀ entry ∈ (Added.join (ys.map (·.2.2))).table, entry.body.nesting ≤ 6 := by
    intro entry member
    obtain ⟨Y, inside, found⟩ := List.mem_flatMap.1 member
    obtain ⟨y, within, rfl⟩ := List.mem_map.1 inside
    exact (each y within).2 entry found
  induction h with
  | @block i i' declared xs below ih =>
    exact ⟨Node.nesting_le_room (x := .block declared xs) i i' fun y member ↦ (ih y member).1,
      join ih⟩
  | @point i o o' e entry acquire result X p below isPoint isReturn interest ih =>
    have grows : Node.room .bare ⟨i, .await o acquire result⟩ = 4 + 1 + o.room .bare :=
      Node.room_single rfl
    have floor := o.nine_le_room .bare
    refine ⟨?_, List.forall_mem_append.2 ⟨ih.2, List.forall_mem_singleton.2 ?_⟩⟩
    · have := isPoint.nesting_le (by omega) ih.1
      omega
    · exact Nat.le_of_eq isReturn.nesting
  | @region i l body cs cleanup fault cleanup' fault' entry e X below parts suspends guarded
      guarded' entered ih =>
    -- The region suspends, so its room has the levels that its entry takes.
    have contains := (Unfolds.region (i := i) (l := l) below parts suspends guarded guarded'
      entered).containsAwait (List.cons_ne_nil _ _)
    rw [(Node.books_of_parts i ((Shape.region body cs cleanup fault).map Prod.fst) nofun nofun).2]
      at contains
    obtain ⟨d, room, inside, clauses, handlers⟩ := Node.room_region_of_suspends i contains
    have floor := Nat.le_trans (body.1.nine_le_room .bare) inside
    have below (y) (child : y ∈ (Shape.region body cs cleanup fault).children) := (ih y child).1
    refine ⟨Nat.le_trans ?_ (Nat.le_of_eq room.symm),
      List.forall_mem_singleton.2 (Nat.le_add_left 2 4)⟩
    refine entered.nesting_le guarded guarded' (parts ▸ join ih) floor
      (Nat.le_trans (below body (by simp [Shape.children])) inside) ?_ ?_
    · rw [Clause.flatMap_children] at clauses ⊢
      refine List.forall_mem_map.2 fun y member ↦ ?_
      exact Nat.le_trans (Nat.add_le_add_right (below y (by simp only [Shape.children]; grind)) 2)
        (clauses _ (List.mem_map_of_mem member))
    · rw [Option.toList_map, Option.toList_map, ← List.map_append] at handlers ⊢
      refine List.forall_mem_map.2 fun y member ↦ ?_
      exact Nat.le_trans (below y (by simp only [Shape.children]; grind))
        (handlers _ (List.mem_map_of_mem member))
  | same x below notBlock notAwait quiet ih =>
    exact ⟨Node.nesting_le_room _ _ fun y member ↦ (ih y member).1, join ih⟩

end Expansions

/-! ### Lowered bodies -/

/-- What is assembled nests three levels deeper than the body in it. -/
theorem IsAssembled.nesting_le {c : Contract} {body n : Node} {table : Table} {d : Nat}
    (h : IsAssembled c body table n) (floor : 9 ≤ d) (inside : body.nesting ≤ d)
    (entries : ∀ c ∈ table, c.body.nesting ≤ 6) : n.nesting ≤ d + 3 := by
  cases h with
  | mk i i₁ i₂ i₃ i₄ i₅ i₆ i₇ =>
    have load : Node.nesting ⟨i₁, .assign c.localState ⟨i₂, .var c.state⟩⟩ = 3 := rfl
    have value : Node.nesting ⟨i₄, .var c.localState⟩ = 2 := rfl
    have otherwise : Node.nesting ⟨i₅, .defaultOf .unit⟩ = 1 := rfl
    have dispatch : Node.nesting
        ⟨i₃, .switch ⟨i₄, .var c.localState⟩ table (some ⟨i₅, .defaultOf .unit⟩)⟩ ≤ d := by
      refine Node.nesting_le_of_places (by omega) (List.forall_mem_append.2
        ⟨List.forall_mem_cons.2 ⟨?_, List.forall_mem_map.2 fun c member ↦ ?_⟩, ?_⟩)
      · dsimp only
        omega
      · have := entries c member
        dsimp only
        omega
      · refine List.forall_mem_singleton.2 ?_
        dsimp only
        omega
    have run : Node.nesting ⟨i₆, .ret (some body)⟩ ≤ d + 1 := by
      refine Node.nesting_le_of_places (by omega) (List.forall_mem_singleton.2 ?_)
      dsimp only
      omega
    have exit : Node.nesting ⟨i₇, .label c.exit⟩ = 2 := rfl
    refine Nat.le_trans (Node.nesting_block_le (d := d + 1) (by omega) ?_) (by omega)
    simp [load, exit]
    omega

namespace Node

variable {options : LoweringOptions} {c : Contract} {body : Node} {s s' : Supply} {l : Lowered}

/-- **A lowered body nests** no deeper than the body with what it grows by, and eleven levels. -/
theorem lower_depth_le (h : body.lower options c s = .ok (l, s')) :
    l.body.toJson.depth ≤ body.toJson.depth + body.growth options + 11 := by
  obtain ⟨checked, prepared, s₁, expanded, r, prepares, expands, assembles, -⟩ := runs_lower h
  obtain ⟨assembled, -⟩ := runs_assemble assembles
  obtain ⟨X, unfolds, adds⟩ := prepared.expand_unfolds expands
  have root : r.resumption.root = X.table := by
    rw [adds.resumption]
    rfl
  rw [root] at assembled
  obtain ⟨nesting, entries⟩ := unfolds.nesting_le
  calc l.body.toJson.depth
    _ ≤ l.body.nesting := depth_toJson_le_nesting l.body
    _ ≤ prepared.room .bare + 3 := assembled.nesting_le (nine_le_room _ _) nesting entries
    _ ≤ body.room options + 3 :=
      Nat.add_le_add_right (prepare_room prepares (check_legal checked)) 3
    _ ≤ body.toJson.depth + body.growth options + 8 + 3 :=
      Nat.add_le_add_right (room_le_depth body) 3

/-- The text of a tree is read if it nests no deeper than the reader follows, and only then. -/
theorem reads_write_iff {n : Node} {supply : Supply} :
    (∃ m supply', read n.write supply = some (m, supply')) ↔
      n.toJson.depth ≤ Json.nestingLimit := by
  constructor
  · rintro ⟨m, supply', accepted⟩
    by_contra deep
    rw [read_write_eq_none (Nat.lt_of_not_le deep)] at accepted
    cases accepted
  · intro within
    obtain ⟨m, supply₁, value, -⟩ := n.ofJson_toJson supply
    exact ⟨m, _, read_of_ofJson (Json.read?_print n.isPlain_toJson within) value⟩

/-- What the text of a tree is read as is structurally equal to the tree. -/
theorem alike_of_read_write {n m : Node} {supply supply' : Supply}
    (accepted : read n.write supply = some (m, supply')) : n.alike m = true := by
  obtain ⟨n', supply₁, value, agrees⟩ := n.ofJson_toJson supply
  have within := reads_write_iff.1 ⟨m, supply', accepted⟩
  have text : Json.read? n.write = some n.toJson := Json.read?_print n.isPlain_toJson within
  rw [read_of_ofJson text value] at accepted
  cases accepted
  exact alike_of_unnumbered agrees

/-- **Lowered bodies can be stored and reloaded** as far as the reader follows the nesting. The text
of a lowered body is read if it nests no deeper, and only then, and what is read is structurally
equal to the body. It nests no deeper than the source with what lowering puts around the layers on
one way down, and eleven levels. -/
theorem read_lowered (h : body.lower options c s = .ok (l, s')) :
    l.body.toJson.depth ≤ body.toJson.depth + body.growth options + 11 ∧
      ∀ supply,
        ((∃ n supply', read l.body.write supply = some (n, supply')) ↔
          l.body.toJson.depth ≤ Json.nestingLimit) ∧
        ∀ n supply', read l.body.write supply = some (n, supply') → l.body.alike n = true :=
  ⟨lower_depth_le h, fun _ ↦ ⟨reads_write_iff, fun _ _ ↦ alike_of_read_write⟩⟩

/-- A clause that suspends behind an operand of a call. -/
theorem read_lowered_clause : ∃ (body : Node) (s : Supply) (l : Lowered) (s' : Supply),
    body.lower {} (Contract.fresh onCompleted s).1 (Contract.fresh onCompleted s).2 =
        .ok (l, s') ∧
      l.body.toJson.depth ≤ body.toJson.depth + body.growth {} + 11 ∧
      ∃ n supply', read l.body.write {} = some (n, supply') ∧ l.body.alike n = true := by
  let handler : Node :=
    ⟨4, .call "f" [⟨1, .call "g" []⟩, ⟨3, .await ⟨2, .call "h" []⟩ none .any⟩]⟩
  let body : Node := ⟨6, .region ⟨5, .call "f" []⟩ [⟨none, none, handler⟩] none none⟩
  let fresh := Contract.fresh onCompleted ⟨7, 1⟩
  have made : ((body.lower {} fresh.1 fresh.2).toOption.any fun p ↦
      decide (p.1.body.toJson.depth ≤ Json.nestingLimit)) = true := by
    decide +kernel
  obtain ⟨⟨l, s'⟩, lowered, fits⟩ := (Option.any_eq_true _ _).1 made
  have lowers : body.lower {} fresh.1 fresh.2 = .ok (l, s') := ok_of_toOption lowered
  obtain ⟨nests, reloads⟩ := read_lowered lowers
  obtain ⟨accepts, same⟩ := reloads {}
  obtain ⟨n, supply', accepted⟩ := accepts.2 (of_decide_eq_true fits)
  exact ⟨body, _, l, s', lowers, nests, n, supply', accepted, same n supply' accepted⟩

/-- A text that is read as a body that lowering takes beyond what the reader follows. -/
theorem read_lowered_deep : ¬ ∀ (text : String) (body : Node) (s : Supply)
    (options : LoweringOptions) (l : Lowered) (s' : Supply), read text {} = some (body, s) →
      body.lower options (Contract.fresh onCompleted s).1 (Contract.fresh onCompleted s).2 =
        .ok (l, s') →
      ∀ supply, ∃ n supply', read l.body.write supply = some (n, supply') ∧
        l.body.alike n = true := by
  intro always
  let value : Json := (fun j ↦ .arr [.str "unary", .str "not", j])^[123]
    (.arr [.str "constant", .obj [("int", .int 1)]])
  have parsed : Json.read? value.print = some value :=
    Json.read?_print (by decide +kernel) (by decide +kernel)
  let fresh (n : Node) (s : Supply) :=
    Contract.fresh onCompleted (reserveThrough n.maxSymbolId s).2
  have made : ((ofJson value {}).any fun p ↦
      (p.1.lower {} (fresh p.1 p.2).1 (fresh p.1 p.2).2).toOption.any fun q ↦
        decide (Json.nestingLimit < q.1.body.toJson.depth)) = true := by
    decide +kernel
  obtain ⟨⟨n, s⟩, reads, lowered⟩ := (Option.any_eq_true _ _).1 made
  obtain ⟨⟨l, s'⟩, lowered, deep⟩ := (Option.any_eq_true _ _).1 lowered
  have lowers : n.lower {} (fresh n s).1 (fresh n s).2 = .ok (l, s') := ok_of_toOption lowered
  obtain ⟨m, supply', accepted, -⟩ :=
    always value.print n _ {} l s' (read_of_ofJson parsed reads) lowers {}
  rw [read_write_eq_none (of_decide_eq_true deep)] at accepted
  cases accepted

end Node

end Suspension
