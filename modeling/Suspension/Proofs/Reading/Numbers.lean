import Suspension.Proofs.Expansion.Books
import Suspension.Proofs.Reading.Trees

/-!
# Trees that are read have nodes of their own

* `Node.read_ids` - the numbers of the nodes of a tree that was read are those that the supply gave
  out meanwhile, each once.

A record is read member by member into slots, in whatever order the members stand, so what has been
numbered is compared as lists up to their order. `Numbers` says it of one computation, with the
trees that were there before it: its result holds those and the nodes that it made itself. That is
kept by everything that readings are put together from, and the induction goes over the value that
is read.
-/

namespace Suspension

open Format

namespace Format

variable {γ δ : Type}

/-- Whether the trees in the result of a reading are those that were `held` before, with the nodes
that the reading has numbered. -/
structure Numbers (held : List Node) (read : Read γ) (trees : γ → List Node) : Prop where
  /-- The result is accounted for between the first number that was free and the first that is. -/
  spans {s : Supply} {x : γ} {s' : Supply} : read s = some (x, s') → s.node ≤ s'.node ∧
    ((trees x).flatMap Node.ids).Perm (held.flatMap Node.ids ++ span s.node s'.node)

namespace Numbers

variable {held : List Node} {read : Read γ} {f : γ → List Node} {g : δ → List Node}

/-- Where nothing is read, nothing is numbered. -/
theorem failure : Numbers held (failure : Read γ) f :=
  ⟨nofun⟩

/-- A value that holds the trees that were there before numbers nothing. -/
theorem pure {x : γ} (same : (f x).Perm held) : Numbers held (pure x : Read γ) f := by
  refine ⟨fun {s y s'} run ↦ ?_⟩
  change some (x, s) = some (y, s') at run
  cases run
  exact ⟨Nat.le_refl _, by simpa using same.flatMap_right Node.ids⟩

/-- A reading that holds no trees and numbers none. -/
theorem ofOption {o : Option γ} (none : ∀ x ∈ o, f x = []) : Numbers [] (o : Read γ) f := by
  cases o with
  | none => exact failure
  | some x => exact pure (by rw [none x rfl])

/-- What is read step by step is numbered step by step. -/
theorem bind {next : γ → Read δ} (first : Numbers held read f)
    (rest : ∀ x, Numbers (f x) (next x) g) : Numbers held (read >>= next) g := by
  refine ⟨fun {s y s'} run ↦ ?_⟩
  change (read s).bind (fun p ↦ next p.1 p.2) = some (y, s') at run
  obtain ⟨⟨x, s₁⟩, reads, run⟩ := Option.bind_eq_some_iff.1 run
  obtain ⟨le, perm⟩ := first.spans reads
  obtain ⟨le', perm'⟩ := (rest x).spans run
  refine ⟨Nat.le_trans le le', perm'.trans ?_⟩
  rw [← span_append le le', ← List.append_assoc]
  exact perm.append_right _

/-- Numbers stay if the same trees are held. -/
theorem map {h : γ → δ} (first : Numbers held read f) (same : ∀ x, (g (h x)).Perm (f x)) :
    Numbers held (h <$> read) g := by
  rw [map_eq_pure_bind]
  exact first.bind fun x ↦ pure (same x)

/-- What else is held stays. -/
theorem beside (others : List Node) (first : Numbers held read f) :
    Numbers (others ++ held) read fun x ↦ others ++ f x := by
  refine ⟨fun {s x s'} run ↦ ?_⟩
  obtain ⟨le, perm⟩ := first.spans run
  refine ⟨le, ?_⟩
  rw [List.flatMap_append, List.flatMap_append, List.append_assoc]
  exact perm.append_left _

/-- A list of readings is numbered one by one. -/
theorem list {α : Type} {reads : α → Read γ} {as : List α}
    (each : ∀ a ∈ as, Numbers [] (reads a) f) : Numbers [] (as.mapM reads) (List.flatMap f) := by
  induction as with
  | nil => exact pure (List.Perm.refl _)
  | cons a as ih =>
    rw [List.mapM_cons]
    refine (each a List.mem_cons_self).bind fun x ↦ ?_
    have rest := (ih fun b member ↦ each b (List.mem_cons_of_mem _ member)).beside (f x)
    rw [List.append_nil] at rest
    exact rest.bind fun xs ↦ pure (List.Perm.refl _)

/-- A node is made of what is held. -/
theorem node (sh : Shape Node) :
    Numbers sh.children (Read.ofBuild (Build.node sh)) fun n ↦ [n] := by
  refine ⟨fun {s n s'} run ↦ ?_⟩
  cases run
  refine ⟨Nat.le_succ _, ?_⟩
  rw [span_succ, List.flatMap_singleton, Node.ids_mk]
  exact (List.perm_append_singleton _ _).symm

/-- Symbols are numbered apart from nodes. -/
theorem reserve (id : SymbolId) :
    Numbers held (Read.ofBuild (Build.reserveThrough id)) fun _ ↦ held := by
  refine ⟨fun {s u s'} run ↦ ?_⟩
  cases run
  exact ⟨Nat.le_refl _, by simp⟩

end Numbers

/-! ### Records -/

/-- The trees in the slots that are filled. -/
def Slots.trees : (fs : List Field) → Slots Node fs → List Node
  | [], () => []
  | f :: fs, (slot, slots) => (Option.toList slot).flatMap f.content.trees ++ trees fs slots

/-- There are no trees in empty slots. -/
theorem Slots.trees_empty (fs : List Field) : Slots.trees fs (Slots.empty Node fs) = [] := by
  induction fs with
  | nil => rfl
  | cons f fs ih => exact ih

/-- A default holds no trees. -/
theorem Content.trees_default {c : Content} {x : c.Carrier Node} (h : c.default? Node = some x) :
    c.trees x = [] := by
  cases c with
  | one b =>
    -- only types have a default of their own
    cases b <;> cases h
    rfl
  | option b => cases h; rfl
  | list b => cases h; rfl

/-- There are no trees in a field that is left out. -/
theorem Field.trees_leftOut {placed : Bool} {f : Field} {x : f.content.Carrier Node}
    (h : f.leftOut? Node placed = some x) : f.content.trees x = [] := by
  rw [Field.leftOut?] at h
  split at h
  · cases h
  · split at h
    · cases h
    · exact Content.trees_default h
  · exact Content.trees_default h

/-- Filling a slot adds the trees that it is filled with. -/
theorem Slots.numbers_fill {name : String} {read : (c : Content) → Read (c.Carrier Node)}
    (reads : ∀ c, Numbers [] (read c) c.trees) (fs : List Field) (slots : Slots Node fs) :
    Numbers (Slots.trees fs slots) (Slots.fill name read fs slots) (Slots.trees fs) := by
  induction fs with
  | nil => exact .pure (List.Perm.refl _)
  | cons f fs ih =>
    obtain ⟨slot, slots⟩ := slots
    by_cases same : f.name = name
    · cases slot with
      | some x =>
        rw [show Slots.fill name read (f :: fs) (some x, slots) = failure from if_pos same]
        exact .failure
      | none =>
        have filled : Slots.fill name read (f :: fs) (none, slots) =
            (read f.content >>= fun x ↦ pure (some x, slots)) := if_pos same
        have first := (reads f.content).beside (Slots.trees fs slots)
        rw [List.append_nil] at first
        rw [filled]
        refine first.bind fun x ↦ .pure ?_
        show ([x].flatMap f.content.trees ++ Slots.trees fs slots).Perm _
        rw [List.flatMap_singleton]
        exact List.perm_append_comm
    · have skipped : Slots.fill name read (f :: fs) (slot, slots) =
          (Slots.fill name read fs slots >>= fun slots ↦ pure (slot, slots)) := if_neg same
      rw [skipped]
      exact ((ih slots).beside _).bind fun slots' ↦ .pure (List.Perm.refl _)

/-- A row holds the trees of the slots that it was made of. -/
theorem Slots.trees_close {fs : List Field} {slots : Slots Node fs} {row : Row Node fs}
    (h : slots.close? fs = some row) : Row.trees fs row = Slots.trees fs slots := by
  induction fs with
  | nil => rfl
  | cons f fs ih =>
    obtain ⟨slot, slots⟩ := slots
    obtain ⟨x, found, h⟩ := Option.bind_eq_some_iff.1 h
    obtain ⟨rest, closed, made⟩ := Option.bind_eq_some_iff.1 h
    cases made
    have first : f.content.trees x = (Option.toList slot).flatMap f.content.trees := by
      cases slot with
      | some y =>
        cases found
        exact (List.flatMap_singleton _ _).symm
      | none => exact Field.trees_leftOut found
    exact congrArg₂ (· ++ ·) first (ih closed)

/-- Whether a reading numbers the nodes that it makes, whatever the value is read as. -/
structure Reading.Numbered (r : Reading) : Prop where
  one : ∀ b, Numbers [] (r.one b) b.trees
  list : ∀ b, Numbers [] (r.list b) (List.flatMap (Base.trees b))

/-- Content is numbered if the value that it is read from is. -/
theorem Reading.Numbered.content {r : Reading} (h : r.Numbered) (c : Content) :
    Numbers [] (r.content c) c.trees := by
  cases c with
  | one b => exact h.one b
  | list b => exact h.list b
  | option b =>
    by_cases absent : r.json = .null
    · have nothing : r.content (.option b) = pure none := by
        obtain ⟨json, one, list⟩ := r
        cases absent
        rfl
      rw [nothing]
      exact .pure (List.Perm.refl _)
    · rw [content_option absent]
      refine (h.one b).map fun x ↦ ?_
      show ([x].flatMap b.trees).Perm _
      rw [List.flatMap_singleton]

/-- A row that is read by the names of its fields is numbered. -/
theorem numbers_rowOfMembers {members : List (String × Reading)}
    (each : ∀ m ∈ members, m.2.Numbered) (fs : List Field) :
    Numbers [] (rowOfMembers fs members) (Row.trees fs) := by
  have fills (slots : Slots Node fs) : Numbers (Slots.trees fs slots)
      (members.foldlM (fun slots m ↦ Slots.fill m.1 m.2.content fs slots) slots)
      (Slots.trees fs) := by
    induction members generalizing slots with
    | nil => exact .pure (List.Perm.refl _)
    | cons m ms ih =>
      obtain ⟨first, rest⟩ := List.forall_mem_cons.1 each
      exact (Slots.numbers_fill first.content fs slots).bind (ih rest)
  have filled := fills (Slots.empty Node fs)
  rw [Slots.trees_empty] at filled
  refine filled.bind fun slots ↦ ?_
  cases closed : slots.close? fs with
  | none => exact .failure
  | some row => exact .pure (.of_eq (Slots.trees_close closed))

/-- A row that is read by the order of its fields is numbered. -/
theorem numbers_rowOfItems {rs : List Reading} (each : ∀ r ∈ rs, r.Numbered) (fs : List Field) :
    Numbers [] (rowOfItems fs rs) (Row.trees fs) := by
  induction fs generalizing rs with
  | nil =>
    cases rs with
    | nil => exact .pure (List.Perm.refl _)
    | cons r rs => exact .failure
  | cons f fs ih =>
    cases rs with
    | nil =>
      rw [rowOfItems]
      refine (Numbers.ofOption fun x left ↦ Field.trees_leftOut left).bind fun x ↦ ?_
      have rest := (@ih [] nofun).beside (f.content.trees x)
      rw [List.append_nil] at rest
      exact rest.bind fun row ↦ .pure (List.Perm.refl _)
    | cons r rs =>
      obtain ⟨first, others⟩ := List.forall_mem_cons.1 each
      rw [rowOfItems]
      refine (first.content f.content).bind fun x ↦ ?_
      have rest := (ih others).beside (f.content.trees x)
      rw [List.append_nil] at rest
      exact rest.bind fun row ↦ .pure (List.Perm.refl _)

/-- A layer put together of a record holds the trees of that record. -/
theorem children_ofRow {α : Type} (k : Kind) (row : Row α k.fields) :
    (Shape.ofRow k row).children = Row.trees k.fields row := by
  cases k <;> exact (Shape.trees_row (Shape.ofRow _ row)).symm

theorem children_clauseOfRow {α : Type} (row : Row α clauseFields) :
    (clauseOfRow row).children = Row.trees clauseFields row := by
  obtain ⟨binder, filter, body, ⟨⟩⟩ := row
  change Option α at filter
  change α at body
  have none : Content.trees (.option .var) binder = [] := by cases binder <;> rfl
  show filter.toList ++ [body] = Content.trees (.option .var) binder ++
    (Content.trees (.option .node) filter ++ [body])
  rw [none, Content.trees_option_node, List.nil_append]

theorem body_caseOfRow {α : Type} (row : Row α caseFields) :
    [(caseOfRow row).body] = Row.trees caseFields row := by
  obtain ⟨tests, body, ⟨⟩⟩ := row
  change α at body
  have none : Content.trees (α := α) (.list .int) tests = [] :=
    List.flatMap_eq_nil_iff.2 fun _ _ ↦ rfl
  show [body] = Content.trees (.list .int) tests ++ [body]
  rw [none, List.nil_append]

variable {ρ : Type} {form : ρ → Option (Kind × ρ)}
  {row : (fs : List Field) → ρ → Read (Row Node fs)}

/-- What is read from a record is numbered. -/
theorem numbers_ofRecord {record : ρ} (json : Json)
    (whole : ∀ fs, Numbers [] (row fs record) (Row.trees fs))
    (behind : ∀ p ∈ form record, ∀ fs, Numbers [] (row fs p.2) (Row.trees fs)) (b : Base) :
    Numbers [] (ofRecord form row record json b) b.trees := by
  cases b with
  | node =>
    rw [ofRecord]
    cases taken : form record with
    | none => exact .failure
    | some p =>
      show Numbers [] (row p.1.fields p.2 >>= fun r ↦
        Read.ofBuild (Build.node (Shape.ofRow p.1 r))) _
      refine (behind p taken p.1.fields).bind fun r ↦ ?_
      rw [← children_ofRow]
      exact .node (Shape.ofRow p.1 r)
  | clause =>
    exact (whole clauseFields).map fun r ↦ .of_eq (children_clauseOfRow r)
  | case =>
    exact (whole caseFields).map fun r ↦ .of_eq (body_caseOfRow r)
  | var => exact (whole variableFields).map fun _ ↦ .refl _
  | label => exact (whole labelFields).map fun _ ↦ .refl _
  | text => exact .failure
  | symbol => exact .failure
  | int => exact .failure
  | _ => exact .ofOption fun _ _ ↦ rfl

theorem numbers_ofLeaf (json : Json) (b : Base) : Numbers [] (ofLeaf json b) b.trees := by
  cases b with
  | node => exact .failure
  | clause => exact .failure
  | case => exact .failure
  | var => exact .failure
  | label => exact .failure
  | _ => exact .ofOption fun _ _ ↦ rfl

/-- The fields of a node are among the items that it is read from. -/
theorem mem_of_kindOfItems? {rs : List Reading} {p : Kind × List Reading}
    (h : p ∈ kindOfItems? rs) : ∀ r ∈ p.2, r ∈ rs := by
  cases rs with
  | nil => cases h
  | cons r rs =>
    obtain ⟨k, -, rfl⟩ := Option.map_eq_some_iff.1 h
    exact fun _ ↦ List.mem_cons_of_mem r

/-- The fields of a node are among the members that it is read from. -/
theorem mem_of_kindOfMembers? {ms : List (String × Reading)}
    {p : Kind × List (String × Reading)} (h : p ∈ kindOfMembers? ms) : ∀ m ∈ p.2, m ∈ ms := by
  rw [kindOfMembers?, List.partition_eq_filter_filter] at h
  split at h
  · rename_i parts
    obtain ⟨k, -, rfl⟩ := Option.map_eq_some_iff.1 h
    obtain ⟨-, rfl⟩ := Prod.mk.inj parts
    exact fun m member ↦ (List.mem_filter.1 member).1
  · cases h

/-- A reading numbers the nodes that it makes: by the values that are read. -/
theorem numbered (j : Json) : (j.fold reading).Numbered := by
  have leaf (j : Json) : (reading.leaf j).Numbered := ⟨numbers_ofLeaf j, fun _ ↦ .failure⟩
  induction j using Json.induction with
  | null => exact leaf _
  | bool => exact leaf _
  | int => exact leaf _
  | real => exact leaf _
  | str => exact leaf _
  | arr items ih =>
    have each : ∀ r ∈ Json.foldItems reading items, r.Numbered := by
      rw [Json.foldItems_eq]
      exact List.forall_mem_map.2 ih
    rw [Json.fold]
    refine ⟨numbers_ofRecord _ (numbers_rowOfItems each) fun p taken ↦ numbers_rowOfItems
      fun r member ↦ each r (mem_of_kindOfItems? taken r member), fun b ↦ ?_⟩
    exact .list fun r member ↦ (each r member).one b
  | obj members ih =>
    have each : ∀ m ∈ Json.foldMembers reading members, m.2.Numbered := by
      rw [Json.foldMembers_eq]
      exact List.forall_mem_map.2 ih
    rw [Json.fold]
    exact ⟨numbers_ofRecord _ (numbers_rowOfMembers each) fun p taken ↦ numbers_rowOfMembers
      fun m member ↦ each m (mem_of_kindOfMembers? taken m member), fun _ ↦ .failure⟩

end Format

namespace Node

theorem numbers_ofJson (j : Json) : Numbers [] (ofJson j) fun n ↦ [n] := by
  by_cases word : formIsWord j
  · rw [show ofJson j = (j.fold reading).one .node from if_pos word]
    exact (numbered j).one .node
  · rw [show ofJson j = failure from if_neg word]
    exact .failure

/-- **The nodes of a tree that was read are numbered apart**: their numbers are those that the
supply gave out meanwhile. -/
theorem read_ids {text : String} {s s' : Supply} {n : Node} (h : read text s = some (n, s')) :
    s.node ≤ s'.node ∧ n.ids.Perm (span s.node s'.node) := by
  have parsed : Numbers [] (Json.read? text : Read Json) fun _ ↦ [] := .ofOption fun _ _ ↦ rfl
  have whole : Numbers [] (read text) fun n ↦ [n] :=
    parsed.bind fun j ↦ (numbers_ofJson j).bind fun n ↦
      (Numbers.reserve n.maxSymbolId).bind fun _ ↦ .pure (List.Perm.refl _)
  obtain ⟨le, perm⟩ := whole.spans h
  rw [List.flatMap_singleton] at perm
  exact ⟨le, perm⟩

end Node

end Suspension
