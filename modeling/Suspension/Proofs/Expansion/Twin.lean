import Suspension.Proofs.Expansion.Pieces

/-!
# Expanded bodies and what they stand for

`Node.settle` is a tree that still has its suspend points, with the blocks that the expansion adds
and without the declarations that it takes away: what an expanded body does, said without states.
`Twin` relates a settled tree to its expansion. They have the same form but for three pieces: a
suspend point, with or without a result, and a protected region that suspends.

`Added` is what the expansion of a tree adds to its surroundings: the entries for the table of the
innermost region around, and the fresh variables and labels.
-/

namespace Suspension

/-- The tree whose direct execution is what its expansion does: blocks that suspend declare
nothing, for their variables outlive the run, and the suspend points and the regions that suspend
stand in the blocks that the expansion puts them in. -/
def Node.settle : Node → Node :=
  Node.fold fun n layer ↦
    match layer with
    | .block declared statements =>
      ⟨n.id, .block (if n.containsAwait then [] else declared) statements⟩
    | .await operand acquire result =>
      let wait : Node := ⟨n.id, .await ⟨n.id, .block [] [operand]⟩ acquire result⟩
      if result = .unit then ⟨n.id, .block [] [wait, ⟨n.id, .defaultOf .unit⟩]⟩ else wait
    | .region body clauses cleanup fault =>
      if n.containsAwait then
        ⟨n.id, .block [] [⟨n.id, .region ⟨n.id, .block [] [body]⟩ clauses cleanup fault⟩]⟩
      else ⟨n.id, .region body clauses cleanup fault⟩
    | layer => ⟨n.id, layer⟩

/-- What an expansion adds to its surroundings. -/
structure Added where
  /-- Entries for the table of the innermost region around. -/
  table : Table := []
  /-- The variables that hold awaiters. -/
  fields : List Variable := []
  /-- The variables that hold outcomes. -/
  results : List Variable := []
  /-- Where suspend points go on and where regions are entered. -/
  labels : List Label := []

namespace Added

/-- What two expansions add, one after the other. -/
def append (X Y : Added) : Added :=
  ⟨X.table ++ Y.table, X.fields ++ Y.fields, X.results ++ Y.results, X.labels ++ Y.labels⟩

instance : Append Added := ⟨append⟩

/-- What expansions in a row add. -/
def join (Xs : List Added) : Added :=
  ⟨Xs.flatMap table, Xs.flatMap fields, Xs.flatMap results, Xs.flatMap labels⟩

@[simp] theorem append_table (X Y : Added) : (X ++ Y).table = X.table ++ Y.table := rfl

@[simp] theorem append_fields (X Y : Added) : (X ++ Y).fields = X.fields ++ Y.fields := rfl

@[simp] theorem append_results (X Y : Added) : (X ++ Y).results = X.results ++ Y.results := rfl

@[simp] theorem append_labels (X Y : Added) : (X ++ Y).labels = X.labels ++ Y.labels := rfl

@[simp] theorem join_cons (X : Added) (Xs : List Added) : join (X :: Xs) = X ++ join Xs := rfl

/-- The cases of each are cases of all. -/
theorem table_subset_join {X : Added} {Xs : List Added} (h : X ∈ Xs) : X.table ⊆ (join Xs).table :=
  fun _ inside ↦ List.mem_flatMap.2 ⟨X, h, inside⟩

/-- The labels of each are labels of all. -/
theorem labels_subset_join {X : Added} {Xs : List Added} (h : X ∈ Xs) :
    X.labels ⊆ (join Xs).labels :=
  fun _ inside ↦ List.mem_flatMap.2 ⟨X, h, inside⟩

/-- Nothing is added by most of several expansions. -/
theorem join_eq {X : Added} {Xs : List Added} (h : ∀ Y ∈ Xs, Y = {}) : join (X :: Xs) = X := by
  have : join Xs = {} := by
    induction Xs with
    | nil => rfl
    | cons Y Ys ih =>
      change Y ++ join Ys = _
      rw [h Y List.mem_cons_self, ih fun Z member ↦ h Z (List.mem_cons_of_mem Y member)]
      rfl
  change X ++ join Xs = X
  rw [this]
  obtain ⟨t, f, r, l⟩ := X
  change mk (t ++ []) (f ++ []) (r ++ []) (l ++ []) = _
  simp only [List.append_nil]

/-- The symbols among what is added. -/
def names (X : Added) : List SymbolId :=
  X.fields.map Variable.id ++ X.results.map Variable.id ++ X.labels.map Label.id

/-- What a suspend point adds. -/
def ofPoint (p : Point) (entry : Node) : Added where
  table := [⟨[Int64.ofNat p.index], entry⟩]
  fields := [p.awaiter]
  results := p.result.toList
  labels := [p.label]

/-- What a region adds, in place of what its body does. -/
def ofRegion (X : Added) (entry : Label) (enter : Node) : Added :=
  { X with table := [⟨X.table.flatMap Case.tests, enter⟩], labels := X.labels ++ [entry] }

end Added

/-- The variables that a layer declares. -/
def Shape.declared {α : Type} : Shape α → List Variable
  | .block declared _ => declared
  | _ => []

/-- The operands of a layer that are evaluated one after the other. -/
def Shape.operands {α : Type} : Shape α → List α
  | .binary _ left right => [left, right]
  | .call _ args => args
  | _ => []

/-- Replacing children replaces operands. -/
theorem Shape.operands_map {α β : Type} (f : α → β) (sh : Shape α) :
    (sh.map f).operands = sh.operands.map f := by
  cases sh <;> rfl

/-- Replacing children keeps the variables that are declared. -/
theorem Shape.declared_map {α β : Type} (f : α → β) (sh : Shape α) :
    (sh.map f).declared = sh.declared := by
  cases sh <;> rfl

/-- Operands are children. -/
theorem Shape.mem_operands {α : Type} {sh : Shape α} {a : α} (h : a ∈ sh.operands) :
    a ∈ sh.children := by
  cases sh <;> first | exact h | cases h

/-- An operand that is a constant, or a variable that outlives the run. -/
def Node.Kept (keeps : SymbolId → Prop) (n : Node) : Prop :=
  match n.shape with
  | .const _ => True
  | .defaultOf _ => True
  | .var v => keeps v.id
  | _ => False

/-- A node of a tree whose suspend points can be come back to: none of them is in a handler or in a
lock, and operands in front of one are kept. -/
structure Node.Resumable (keeps : SymbolId → Prop) (n : Node) : Prop where
  region : ∀ {body clauses cleanup fault}, n.shape = .region body clauses cleanup fault →
    ∀ part ∈ clauses.flatMap Clause.children ++ cleanup.toList ++ fault.toList,
      part.containsAwait = false
  lock : ∀ {guard body}, n.shape = .lock guard body →
    guard.containsAwait = false ∧ body.containsAwait = false
  operands : ∀ {before o after}, n.shape.operands = before ++ o :: after → o.containsAwait = true →
    ∀ b ∈ before, b.Kept keeps

/-- A settled tree and its expansion. -/
inductive Twin (keeps : SymbolId → Prop) (c : Contract) : Node → Node → Added → Prop
  | same {i i' : NodeId} (x : Shape (Node × Node × Added)) (below : ∀ y ∈ x.children,
      Twin keeps c y.1 y.2.1 y.2.2) (kind : x.kind ≠ .await)
    (closed : x.kind = .region ∨ x.kind = .lock → ∀ y ∈ x.children, y.2.2.table = [])
    (undeclared : x.declared ≠ [] → ∀ y ∈ x.children, y.2.2.table = [])
    (kept : ∀ {before y after}, x.operands = before ++ y :: after → y.2.2.table ≠ [] →
      ∀ z ∈ before, z.1.Kept keeps) :
    Twin keeps c ⟨i, x.map Prod.fst⟩ ⟨i', x.map (·.2.1)⟩ (.join (x.children.map (·.2.2)))
  | point {i j : NodeId} {p' o e entry : Node} {acquire : Option String} {ty : Ty} {X : Added}
    {p : Point} (operand : Twin keeps c p' o X) (isPoint : IsPoint c acquire p o e)
    (isReturn : IsReturn c p.label entry) (interest : p.result ≠ none) :
    Twin keeps c ⟨i, .await ⟨j, .block [] [p']⟩ acquire ty⟩ e (X ++ .ofPoint p entry)
  | unitPoint {i j k l : NodeId} {p' o e entry : Node} {acquire : Option String} {ty : Ty}
    {X : Added} {p : Point} (operand : Twin keeps c p' o X) (isPoint : IsPoint c acquire p o e)
    (isReturn : IsReturn c p.label entry) (interest : p.result = none) :
    Twin keeps c ⟨i, .block [] [⟨j, .await ⟨k, .block [] [p']⟩ acquire ty⟩, ⟨l, .defaultOf .unit⟩]⟩
      e (X ++ .ofPoint p entry)
  | region {i j k l : NodeId} {body' body e : Node} {X : Added} {entry : Label}
    {cs : List (Clause (Node × Node))} {cleanup fault : Option (Node × Node)}
    {cleanup' fault' : Option Node} (bodies : Twin keeps c body' body X) (suspends : X.table ≠ [])
    (clauses : ∀ y ∈ cs.flatMap Clause.children, Twin keeps c y.1 y.2 {})
    (parts : ∀ y ∈ cleanup.toList ++ fault.toList, Twin keeps c y.1 y.2 {})
    (guarded : Option.Rel (IsGuarded c) (cleanup.map Prod.snd) cleanup')
    (guarded' : Option.Rel (IsGuarded c) (fault.map Prod.snd) fault')
    (entered : IsEntered c entry X.table body (cs.map (Clause.map Prod.snd)) cleanup' fault' e) :
    Twin keeps c
      ⟨i, .block [] [⟨j, .region ⟨k, .block [] [body']⟩ (cs.map (Clause.map Prod.fst))
        (cleanup.map Prod.fst) (fault.map Prod.fst)⟩]⟩
      e (X.ofRegion entry ⟨l, .goto entry⟩)

end Suspension
