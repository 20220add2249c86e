import Suspension.Proofs.Reading.Trees

/-!
# How deep written trees nest

In the written format every node is a record, and between a node and a child of it there may stand a
list, and a record in that list: clauses and cases are records of their own. `Shape.places` says for
each child of a layer how many records and lists are opened on the way to it, and `Kind.levels` how
many a layer opens without its children. Together they bound the nesting of a written tree
(`Node.depth_toJson_le_nesting`), and each of the places is really there (`Node.le_depth_toJson`).

`Node.reach` is the nesting of a tree in which some layers count for more than they open. So it is
told from a tree how deep the tree nests that it is turned into.
-/

namespace Suspension

namespace Format

variable {α : Type}

/-- How many records and lists a base opens beside the trees in it. -/
def Base.levels : Base → Nat
  | .clause => 2
  | .case => 2
  | .var => 1
  | .label => 1
  | .literal => 1
  | _ => 0

/-- How many records and lists a field opens beside the trees in it. -/
def Content.levels : Content → Nat
  | .one b => b.levels
  | .option b => b.levels
  | .list b => b.levels + 1

/-- The trees that a base holds, each with the number of records and lists around it. -/
def Base.places : (b : Base) → b.Carrier α → List (Nat × α)
  | .node, (n : α) => [(0, n)]
  | .clause, c => (Clause.children c).map fun a ↦ (1, a)
  | .case, c => [(1, Case.body c)]
  | _, _ => []

/-- The trees that a field holds, each with the number of records and lists around it. -/
def Content.places : (c : Content) → c.Carrier α → List (Nat × α)
  | .one b, x => b.places x
  | .option b, x => (Option.toList x).flatMap b.places
  | .list b, xs => (List.flatMap b.places xs).map fun p ↦ (p.1 + 1, p.2)

/-- The trees that a record holds, each with the number of records and lists around it. -/
def Row.places : (fs : List Field) → Row α fs → List (Nat × α)
  | [], () => []
  | f :: fs, (x, row) => f.content.places x ++ Row.places fs row

/-! The bases whose fields may be absent or repeated, one by one. -/

@[simp] theorem Content.places_one (b : Base) (x : b.Carrier α) :
    Content.places (.one b) x = b.places x := rfl

@[simp] theorem Content.places_option_text (o : Option String) :
    Content.places (α := α) (.option .text) o = [] := by
  cases o <;> rfl

@[simp] theorem Content.places_option_label (o : Option Label) :
    Content.places (α := α) (.option .label) o = [] := by
  cases o <;> rfl

@[simp] theorem Content.places_list_var (vs : List Variable) :
    Content.places (α := α) (.list .var) vs = [] :=
  congrArg (List.map _) (List.flatMap_eq_nil_iff.2 fun _ _ ↦ rfl)

@[simp] theorem Content.places_option_node (o : Option α) :
    Content.places (.option .node) o = o.toList.map fun a ↦ (0, a) := by
  cases o <;> rfl

@[simp] theorem Content.places_list_node (as : List α) :
    Content.places (.list .node) as = as.map fun a ↦ (1, a) := by
  show (List.flatMap (fun a ↦ [(0, a)]) as).map _ = _
  rw [← List.map_eq_flatMap, List.map_map]
  rfl

@[simp] theorem Content.places_list_clause (cs : List (Clause α)) :
    Content.places (.list .clause) cs = (cs.flatMap Clause.children).map fun a ↦ (2, a) := by
  show (cs.flatMap fun c ↦ c.children.map fun a ↦ (1, a)).map _ = _
  rw [List.map_flatMap, List.map_flatMap]
  simp only [List.map_map]
  rfl

@[simp] theorem Content.places_list_case (cs : List (Case α)) :
    Content.places (.list .case) cs = cs.map fun c ↦ (2, c.body) := by
  show (cs.flatMap fun c ↦ [(1, c.body)]).map _ = _
  rw [← List.map_eq_flatMap, List.map_map]
  rfl

end Format

/-- How many records and lists a layer opens beside its children. -/
def Kind.levels (k : Kind) : Nat :=
  (k.fields.map fun f ↦ f.content.levels).foldr max 0 + 1

open Format

namespace Shape

variable {α β : Type}

/-- The children of a layer, each with the number of records and lists that are opened from the
layer on to it. -/
def places : Shape α → List (Nat × α)
  | .block _ statements => statements.map fun a ↦ (2, a)
  | .await operand _ _ => [(1, operand)]
  | .awaiter _ operand => [(1, operand)]
  | .region body clauses cleanup fault =>
    (1, body) :: (clauses.flatMap Clause.children).map (fun a ↦ (3, a)) ++
      (cleanup.toList ++ fault.toList).map fun a ↦ (1, a)
  | .loop body _ _ => [(1, body)]
  | .label _ => []
  | .goto _ => []
  | .switch value cases otherwise =>
    (1, value) :: cases.map (fun c ↦ (3, c.body)) ++ otherwise.toList.map fun a ↦ (1, a)
  | .branch test yes no => (1, test) :: (1, yes) :: no.toList.map fun a ↦ (1, a)
  | .lock guard body => [(1, guard), (1, body)]
  | .ret value => value.toList.map fun a ↦ (1, a)
  | .raise value => value.toList.map fun a ↦ (1, a)
  | .assign _ value => [(1, value)]
  | .binary _ left right => [(1, left), (1, right)]
  | .unary _ operand => [(1, operand)]
  | .call _ args => args.map fun a ↦ (2, a)
  | .var _ => []
  | .const _ => []
  | .defaultOf _ => []

/-- Replacing children keeps their places. -/
theorem places_map (f : α → β) (sh : Shape α) :
    (sh.map f).places = sh.places.map fun p ↦ (p.1, f p.2) := by
  cases sh <;>
    simp [places, map, Function.comp_def, Clause.flatMap_children, Case.map, Option.toList_map]

/-- The children of a layer are those in its places. -/
theorem map_snd_places (sh : Shape α) : sh.places.map Prod.snd = sh.children := by
  cases sh <;> simp [places, children, Function.comp_def]

theorem mem_children_of_places {sh : Shape α} {p : Nat × α} (h : p ∈ sh.places) :
    p.2 ∈ sh.children := by
  rw [← sh.map_snd_places]
  exact List.mem_map_of_mem h

theorem mem_places_map {f : α → β} {sh : Shape α} {p : Nat × α} (h : p ∈ sh.places) :
    (p.1, f p.2) ∈ (sh.map f).places := by
  rw [places_map]
  exact List.mem_map_of_mem (f := fun p ↦ (p.1, f p.2)) h

/-- The places of a layer are those of its record, one level further in. -/
theorem places_row (sh : Shape α) :
    (Row.places sh.kind.fields sh.row).map (fun p ↦ (p.1 + 1, p.2)) = sh.places := by
  cases sh <;> simp [places, row, kind, Kind.fields, Row.places, Function.comp_def]
  all_goals rfl

end Shape

/-! ### Written trees -/

namespace Json

/-- Items are less deep than their array. -/
theorem lt_depth_arr {items : List Json} {j : Json} (h : j ∈ items) :
    j.depth < (arr items).depth := by
  obtain ⟨d, eq, inner⟩ := depth_arr_le.1 (Nat.le_refl (arr items).depth)
  rw [eq]
  exact Nat.lt_succ_of_le (inner j h)

/-- Values of members are less deep than their object. -/
theorem lt_depth_obj {members : List (String × Json)} {m : String × Json} (h : m ∈ members) :
    m.2.depth < (obj members).depth := by
  obtain ⟨d, eq, inner⟩ := depth_obj_le.1 (Nat.le_refl (obj members).depth)
  rw [eq]
  exact Nat.lt_succ_of_le (inner m h)

end Json

namespace Format

open Json

variable {d : Nat}

theorem depth_optionJson_le {α : Type} {write : α → Json} {o : Option α}
    (h : ∀ a ∈ o, (write a).depth ≤ d) : (optionJson write o).depth ≤ d := by
  cases o with
  | none => exact Nat.zero_le d
  | some a => exact h a rfl

/-- A base nests as deep as it opens levels, or as the trees in it reach. -/
theorem Base.depth_json_le {b : Base} {x : b.Carrier Json} (own : b.levels ≤ d)
    (below : ∀ p ∈ b.places x, p.1 + p.2.depth ≤ d) : (b.json x).depth ≤ d := by
  cases b with
  | node =>
    have inner : 0 + Json.depth x ≤ d := below (0, x) (List.mem_singleton_self _)
    rwa [Nat.zero_add] at inner
  | clause =>
    obtain ⟨binder, filter, body⟩ := x
    obtain ⟨d, rfl⟩ : ∃ d', d = d' + 1 := ⟨d - 1, by simp only [levels] at own; omega⟩
    have inner : ∀ j ∈ filter.toList ++ [body], j.depth ≤ d := by
      intro j member
      have : 1 + j.depth ≤ d + 1 := below (1, j) (List.mem_map_of_mem member)
      omega
    have bound (v : Variable) : (variableJson v).depth ≤ d := Nat.le_of_succ_le_succ own
    refine depth_obj_le.2 ⟨d, rfl, ?_⟩
    simp only [List.forall_mem_cons]
    exact ⟨depth_optionJson_le fun v _ ↦ bound v,
      depth_optionJson_le fun j present ↦ inner j (by simp [Option.mem_def.1 present]),
      inner body (by simp), nofun⟩
  | case =>
    obtain ⟨tests, body⟩ := x
    obtain ⟨d, rfl⟩ : ∃ d', d = d' + 1 := ⟨d - 1, by simp only [levels] at own; omega⟩
    have inner : 1 + body.depth ≤ d + 1 := below (1, body) (List.mem_singleton_self _)
    have tests : (Json.arr (tests.map fun t ↦ .int t.toInt)).depth ≤ d := by
      refine depth_arr_le.2 ⟨d - 1, by simp only [levels] at own; omega, fun j member ↦ ?_⟩
      obtain ⟨t, -, rfl⟩ := List.mem_map.1 member
      exact Nat.zero_le _
    refine depth_obj_le.2 ⟨d, rfl, ?_⟩
    simp only [List.forall_mem_cons]
    exact ⟨tests, by omega, nofun⟩
  | literal =>
    cases x with
    | null => exact Nat.zero_le d
    | unit => exact Nat.zero_le d
    | _ => exact own
  | var => exact own
  | label => exact own
  | _ => exact Nat.zero_le d

/-- A field nests as deep as it opens levels, or as the trees in it reach. -/
theorem Content.depth_json_le {c : Content} {x : c.Carrier Json} (own : c.levels ≤ d)
    (below : ∀ p ∈ c.places x, p.1 + p.2.depth ≤ d) : (c.json x).depth ≤ d := by
  cases c with
  | one b => exact Base.depth_json_le own below
  | option b =>
    exact depth_optionJson_le fun y present ↦ Base.depth_json_le own fun p member ↦
      below p (List.mem_flatMap.2 ⟨y, Option.mem_toList.2 present, member⟩)
  | list b =>
    obtain ⟨d, rfl⟩ : ∃ d', d = d' + 1 := ⟨d - 1, by simp only [levels] at own; omega⟩
    refine depth_arr_le.2 ⟨d, rfl, fun j written ↦ ?_⟩
    obtain ⟨y, present, rfl⟩ := List.mem_map.1 written
    refine Base.depth_json_le (Nat.le_of_succ_le_succ own) fun p member ↦ ?_
    have : p.1 + 1 + p.2.depth ≤ d + 1 := below (p.1 + 1, p.2)
      (List.mem_map_of_mem (f := fun p ↦ (p.1 + 1, p.2))
        (List.mem_flatMap.2 ⟨y, present, member⟩))
    omega

/-- The members of a row are as deep as its fields and what stands in them. -/
theorem depth_rowMembers_le {fs : List Field} {row : Row Json fs}
    (own : ∀ f ∈ fs, f.content.levels ≤ d) (below : ∀ p ∈ Row.places fs row, p.1 + p.2.depth ≤ d) :
    ∀ m ∈ rowMembers fs row, m.2.depth ≤ d := by
  induction fs with
  | nil => nofun
  | cons f fs ih =>
    obtain ⟨x, row⟩ := row
    obtain ⟨first, others⟩ := List.forall_mem_cons.1 own
    obtain ⟨here, there⟩ := List.forall_mem_append.1 below
    exact List.forall_mem_cons.2 ⟨Content.depth_json_le first here, ih others there⟩

/-- The trees in a base stand where they are said to. -/
theorem Base.le_depth_json {b : Base} {x : b.Carrier Json} {p : Nat × Json} (h : p ∈ b.places x) :
    p.1 + p.2.depth ≤ (b.json x).depth := by
  cases b with
  | node =>
    cases List.mem_singleton.1 h
    exact Nat.le_of_eq (Nat.zero_add _)
  | clause =>
    obtain ⟨binder, filter, body⟩ := x
    obtain ⟨j, member, rfl⟩ := List.mem_map.1 h
    rw [Nat.add_comm]
    have written : ∃ name, (name, j) ∈ [("variable", optionJson variableJson binder),
        ("filter", optionJson id filter), ("body", body)] := by
      rcases List.mem_append.1 member with isFilter | isBody
      · obtain rfl : filter = some j := Option.mem_toList.1 isFilter
        exact ⟨"filter", by simp [optionJson]⟩
      · exact ⟨"body", by simp [List.mem_singleton.1 isBody]⟩
    obtain ⟨name, written⟩ := written
    exact lt_depth_obj written
  | case =>
    obtain ⟨tests, body⟩ := x
    cases List.mem_singleton.1 h
    rw [Nat.add_comm]
    exact lt_depth_obj (m := ("body", body)) (by simp)
  | _ => cases h

/-- The trees in a field stand where they are said to. -/
theorem Content.le_depth_json {c : Content} {x : c.Carrier Json} {p : Nat × Json}
    (h : p ∈ c.places x) : p.1 + p.2.depth ≤ (c.json x).depth := by
  cases c with
  | one b => exact Base.le_depth_json h
  | option b =>
    obtain ⟨y, present, member⟩ := List.mem_flatMap.1 h
    rw [Option.mem_toList.1 present]
    exact Base.le_depth_json member
  | list b =>
    obtain ⟨q, inside, rfl⟩ := List.mem_map.1 h
    obtain ⟨y, present, member⟩ := List.mem_flatMap.1 inside
    have := Base.le_depth_json member
    have := lt_depth_arr (List.mem_map_of_mem (f := b.json) present)
    show q.1 + 1 + q.2.depth ≤ (arr (List.map b.json x)).depth
    omega

theorem le_depth_rowMembers {fs : List Field} {row : Row Json fs} {p : Nat × Json}
    (h : p ∈ Row.places fs row) : ∃ m ∈ rowMembers fs row, p.1 + p.2.depth ≤ m.2.depth := by
  induction fs with
  | nil => cases h
  | cons f fs ih =>
    obtain ⟨x, row⟩ := row
    rcases List.mem_append.1 h with here | there
    · exact ⟨_, List.mem_cons_self, Content.le_depth_json here⟩
    · obtain ⟨m, written, le⟩ := ih there
      exact ⟨m, List.mem_cons_of_mem _ written, le⟩

end Format

namespace Shape

open Json

/-- A written layer nests as deep as it opens levels, or as its children reach. -/
theorem depth_json_le {sh : Shape Json} {d : Nat} (own : sh.kind.levels ≤ d)
    (below : ∀ p ∈ sh.places, p.1 + p.2.depth ≤ d) : sh.json.depth ≤ d := by
  obtain ⟨d, rfl, fields⟩ := foldr_max_succ_le.1 own
  refine depth_obj_le.2 ⟨d, rfl, List.forall_mem_cons.2 ⟨Nat.zero_le d, ?_⟩⟩
  refine depth_rowMembers_le fields fun p member ↦ ?_
  have : p.1 + 1 + p.2.depth ≤ d + 1 := by
    refine below (p.1 + 1, p.2) ?_
    rw [← sh.places_row]
    exact List.mem_map_of_mem member
  omega

/-- The children of a written layer stand where they are said to. -/
theorem le_depth_json {sh : Shape Json} {p : Nat × Json} (h : p ∈ sh.places) :
    p.1 + p.2.depth ≤ sh.json.depth := by
  rw [← sh.places_row] at h
  obtain ⟨q, inside, rfl⟩ := List.mem_map.1 h
  obtain ⟨m, written, le⟩ := le_depth_rowMembers inside
  have below := lt_depth_obj (List.mem_cons_of_mem ("node", .str sh.kind.tag) written)
  show q.1 + 1 + q.2.depth ≤ sh.json.depth
  rw [json]
  omega

end Shape

namespace Node

/-- A written tree is as deep as its form and what stands in its places. -/
theorem depth_toJson_le {n : Node} {d : Nat} (own : n.kind.levels ≤ d)
    (below : ∀ p ∈ n.shape.places, p.1 + p.2.toJson.depth ≤ d) : n.toJson.depth ≤ d := by
  rw [Format.toJson_eq]
  refine Shape.depth_json_le (by rwa [Shape.kind_map]) ?_
  rw [Shape.places_map]
  exact List.forall_mem_map.2 below

/-- A written tree is deeper than what stands in its places. -/
theorem le_depth_toJson {n : Node} {p : Nat × Node} (h : p ∈ n.shape.places) :
    p.1 + p.2.toJson.depth ≤ n.toJson.depth := by
  rw [Format.toJson_eq n]
  refine Shape.le_depth_json (p := (p.1, p.2.toJson)) ?_
  rw [Shape.places_map]
  exact List.mem_map_of_mem h

theorem one_le_depth_toJson (n : Node) : 1 ≤ n.toJson.depth := by
  rw [Format.toJson_eq]
  exact Nat.le_add_left 1 _

/-! ### Nesting with costs -/

/-- The nesting of a tree where a layer opens at least as many levels as `floor` says, and counts
for `cost` more around what is in it. The cost may depend on which of the children suspend. -/
def reach (floor : Kind → Nat) (cost : Shape Bool → Nat) : Node → Nat :=
  fold fun n layer ↦
    (layer.places.map fun p ↦ cost (n.shape.map containsAwait) + p.1 + p.2).foldr max (floor n.kind)

variable {floor : Kind → Nat} {cost : Shape Bool → Nat} {i : NodeId} {sh : Shape Node}
  {d : Nat}

/-- A tree reaches as deep as its layer and what stands in its places. -/
theorem reach_le : reach floor cost ⟨i, sh⟩ ≤ d ↔ floor sh.kind ≤ d ∧
    ∀ p ∈ sh.places, cost (sh.map containsAwait) + p.1 + p.2.reach floor cost ≤ d := by
  have bound (ks : List Nat) : ks.foldr max (floor sh.kind) ≤ d ↔
      floor sh.kind ≤ d ∧ ∀ k ∈ ks, k ≤ d := by
    induction ks with
    | nil => simp
    | cons k ks ih =>
      rw [List.foldr_cons, Nat.max_le, ih, List.forall_mem_cons]
      tauto
  have unrolled : reach floor cost ⟨i, sh⟩ = ((sh.map (reach floor cost)).places.map fun p ↦
      cost (sh.map containsAwait) + p.1 + p.2).foldr max (floor sh.kind) := by
    rw [reach, fold_eq]
    rfl
  rw [unrolled, bound, Shape.places_map]
  simp only [List.forall_mem_map]

/-- What a layer costs, and what it opens, stands before what is in it. -/
theorem reach_of_mem {p : Nat × Node} (h : p ∈ sh.places) :
    cost (sh.map containsAwait) + p.1 + p.2.reach floor cost ≤ reach floor cost ⟨i, sh⟩ :=
  (reach_le.1 (Nat.le_refl _)).2 p h

/-- The nesting of a tree, told from its layers. -/
def nesting : Node → Nat :=
  reach Kind.levels fun _ ↦ 0

/-- A tree nests as deep as its form and what stands in its places. -/
theorem nesting_le : nesting ⟨i, sh⟩ ≤ d ↔
    sh.kind.levels ≤ d ∧ ∀ p ∈ sh.places, p.1 + p.2.nesting ≤ d := by
  rw [nesting, reach_le]
  simp only [Nat.zero_add]

/-- **A tree is written** no deeper than its layers nest. -/
theorem depth_toJson_le_nesting (n : Node) : n.toJson.depth ≤ n.nesting := by
  induction n using induction with
  | step n ih =>
    obtain ⟨i, sh⟩ := n
    obtain ⟨own, below⟩ := nesting_le.1 (Nat.le_refl (nesting ⟨i, sh⟩))
    refine depth_toJson_le own fun p member ↦ ?_
    have child := ih p.2 (Shape.mem_children_of_places member)
    exact Nat.le_trans (Nat.add_le_add_left child p.1) (below p member)

end Node

end Suspension
